import BnfSuppression.Proofs.Directive

/-!
# Directives That Grow

Over time a directive takes up one id after the other: the comment is read, an id is added, and the
directive is written where the comment was. Nothing gets lost on the way and nothing is listed
twice, whatever the verb is, however irregularly the first comment was written, and even if the ids
look like the verb or start like a marker. Once written, a directive is written the same way again.

## Main results

* `Directive.foldlM_withId`: ids taken up one by one, with the comment written in between.
* `Directive.ids_foldl_withId`: ids added one by one stand behind those listed before.
* `Directive.render_invertible`: **writing and reading directives are inverse**.
-/

namespace BnfSuppression

namespace Directive

variable {d : Directive} {new : List String}

/-- Adding any number of ids to a directive keeps its verb. -/
theorem verb_foldl_withId (d : Directive) (new : List String) :
    (new.foldl withId d).verb = d.verb := by
  induction new generalizing d with
  | nil => rfl
  | cons id new ih => rw [List.foldl_cons, ih, verb_withId]

/-- Adding any number of ids to a list of ids, each once, gives such a list again. -/
theorem IsList.foldl_withId (h : d.IsList) (hnew : ∀ id ∈ new, IsId id) :
    (new.foldl Directive.withId d).IsList := by
  induction new generalizing d with
  | nil => exact h
  | cons id new ih =>
      obtain ⟨hid, hnew⟩ := List.forall_mem_cons.1 hnew
      exact ih (h.withId hid) hnew

/-- **Ids added one by one stand behind those listed before**, in the order in which they first come
among the added ones. -/
theorem ids_foldl_withId (d : Directive) (new : List String) :
    (new.foldl withId d).ids = d.ids ++ (new.removeAll d.ids).eraseDups := by
  induction new generalizing d with
  | nil => simp
  | cons id new ih =>
      rw [List.foldl_cons, ih, List.cons_removeAll]
      by_cases hid : id ∈ d.ids
      · simp [withId_of_mem hid, hid]
      · have hids : (d.withId id).ids = d.ids ++ [id] := by simp [withId, hid]
        have hrest : new.removeAll (d.ids ++ [id]) =
            (new.removeAll d.ids).filter fun i => !(i == id) := by
          simp [List.removeAll, List.filter_filter, Bool.and_comm, beq_eq_decide]
        rw [hids, if_pos (by simpa using hid), List.eraseDups_cons, hrest, List.append_assoc,
          List.singleton_append]

/-- Adding several ids to a directive lists exactly these beside the ones it listed. -/
theorem mem_ids_foldl_withId_iff {i : String} :
    i ∈ (new.foldl withId d).ids ↔ i ∈ d.ids ∨ i ∈ new := by
  induction new generalizing d with
  | nil => simp
  | cons id new ih => rw [List.foldl_cons, ih, mem_ids_withId_iff, List.mem_cons, or_assoc]

/-- A comment that takes up ids may be written and read again after every single one. -/
theorem foldlM_withId {comment verb marker : String} (hm : marker.toList ∈ markers)
    (hd : parse? comment verb = some d) (hnew : ∀ id ∈ new, IsId id) :
    new.foldlM (fun e id => parse? ((e.withId id).render marker) verb) d =
      some (new.foldl withId d) := by
  induction new generalizing d comment with
  | nil => rfl
  | cons id new ih =>
      obtain ⟨hid, hnew⟩ := List.forall_mem_cons.1 hnew
      have hread := parse?_render_withId hm hid hd
      rw [List.foldlM_cons, hread, Option.bind_eq_bind, Option.bind_some, ih hread hnew,
        List.foldl_cons]

/-- **Writing and reading directives are inverse**, for every verb and every marker. Ids that are
listed once each are read back as they were written. A comment that is read may take up further ids
one by one: written and read again, at the end or after every single id, it lists what it listed
before and then the new ids, in the order in which they first come, with none lost and none
repeated, and so it is written the same way again. -/
theorem render_invertible (verb : String) {marker : String} (hm : marker.toList ∈ markers) :
    (∀ ids : List String, ids ≠ [] → (∀ id ∈ ids, IsId id) → ids.Nodup →
      parse? (render ⟨verb, ids⟩ marker) verb = some ⟨verb, ids⟩) ∧
    ∀ (comment : String) (d : Directive), parse? comment verb = some d →
      ∀ new : List String, (∀ id ∈ new, IsId id) →
        ∃ e, parse? ((new.foldl withId d).render marker) verb = some e ∧
          new.foldlM (fun e id => parse? ((e.withId id).render marker) verb) d = some e ∧
          e.verb = verb ∧
          e.ids = d.ids ++ (new.removeAll d.ids).eraseDups ∧
          (∀ id, id ∈ e.ids ↔ id ∈ d.ids ∨ id ∈ new) ∧ e.ids.Nodup ∧
          e.render marker = (new.foldl withId d).render marker := by
  refine ⟨fun ids hne hids hnodup => parse?_render hm ⟨hne, hids, hnodup⟩, ?_⟩
  intro comment d hd new hnew
  have hlist : (new.foldl withId d).IsList := (IsList.of_parse? hd).foldl_withId hnew
  have hverb : (new.foldl withId d).verb = verb :=
    (verb_foldl_withId d new).trans (of_parse?_eq_some hd).1
  have hread : parse? ((new.foldl withId d).render marker) verb = some (new.foldl withId d) := by
    have := parse?_render hm hlist
    rwa [hverb] at this
  exact ⟨_, hread, foldlM_withId hm hd hnew, hverb, ids_foldl_withId d new,
    fun _ => mem_ids_foldl_withId_iff, hlist.nodup, rfl⟩

/-- The verb and the ids look like the marker, and the comment is written irregularly. -/
theorem render_invertible_of_dashes : "--".toList ∈ markers ∧ ["--", "-.1"].Nodup ∧
    parse? (render ⟨"--", ["--", "-.1"]⟩ "--") "--" = some ⟨"--", ["--", "-.1"]⟩ ∧
    parse? "#--  B ,A  B" "--" = some ⟨"--", ["B", "A"]⟩ ∧
    (∀ id ∈ ["--", "-.1", "C", "A"], IsId id) ∧
    ∃ e, parse? ((["C", "A", "--", "C"].foldl withId ⟨"--", ["B", "A"]⟩).render "--") "--" =
        some e ∧ e.ids = ["B", "A", "C", "--"] := by
  have hm : "--".toList ∈ markers := by decide
  have hid : ∀ id ∈ ["--", "-.1", "C", "A"], IsId id := by simp [IsId, IsWord, isIdChar]
  have hd : parse? "#--  B ,A  B" "--" = some ⟨"--", ["B", "A"]⟩ := by decide +kernel
  obtain ⟨hback, hgrown⟩ := render_invertible "--" hm
  obtain ⟨e, he, -, -, hids, -⟩ := hgrown _ _ hd ["C", "A", "--", "C"] fun id h => hid id (by grind)
  refine ⟨hm, by decide, hback _ (by simp) (fun id h => hid id (by grind)) (by decide), hd, hid, e,
    he, ?_⟩
  rw [hids]
  rfl

end Directive

end BnfSuppression
