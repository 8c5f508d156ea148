import BnfSuppression.Proofs.Directive.Grammar
import BnfSuppression.Settings
import BnfSuppression.Token.Lexer

/-!
# Written Directives Are Read Back

What a directive is written as follows the grammar of directives, so reading it gives the directive
back. In the other direction, whatever is read as a directive lists ids, each of them once. If the
verb and the ids stay on one line, what is written is one line comment.

## Main results

* `Directive.parse?_render`: **a written directive is read back**.
* `Directive.of_parse?_eq_some`: what a comment lists are ids, each listed once.
* `Directive.tokenize_render`: a written directive is one line comment.
* `Settings.mentions_comment`, `Settings.mentions_withId`: what written comments list.
-/

namespace BnfSuppression

namespace Directive

/-- The text stays on one line. -/
def IsOneLine (s : String) : Prop := ∀ c ∈ s.toList, Lexer.endsLine c = false

instance (s : String) : Decidable (IsOneLine s) :=
  decidable_of_iff (s.toList.all (!Lexer.endsLine ·) = true) (by simp [IsOneLine])

/-- No character of an id ends a line, so neither does any id within a comment. -/
theorem endsLine_of_isIdChar {c : Char} (h : isIdChar c = true) : Lexer.endsLine c = false := by
  have h₁ : c ≠ '\r' := ne_of_isIdChar h (by decide)
  have h₂ : c ≠ '\n' := ne_of_isIdChar h (by decide)
  simp [Lexer.endsLine, h₁, h₂]

/-- A word stays on one line. -/
theorem IsWord.isOneLine {s : String} (h : IsWord s) : IsOneLine s := fun c hc =>
  endsLine_of_isIdChar (h c hc)

/-! ### Whole directives -/

/-- In a joined list, every part but the first follows a separator. -/
theorem intercalate_cons_eq (sep x : List Char) (xs : List (List Char)) :
    sep.intercalate (x :: xs) = x ++ xs.flatMap (sep ++ ·) := by
  induction xs generalizing x with
  | nil => simp
  | cons y ys ih => simp [List.intercalate_cons_cons, ih]

/-- Ids joined by commas are a list of these ids. -/
theorem lists_intercalate {ids : List String} (hne : ids ≠ []) (hids : ∀ id ∈ ids, IsId id) :
    Lists ([',', ' '].intercalate (ids.map String.toList)) ids := by
  induction ids with
  | nil => simp at hne
  | cons id ids ih =>
      obtain ⟨hid, hids⟩ := List.forall_mem_cons.1 hids
      cases ids with
      | nil => simpa using Lists.one hid
      | cons next ids =>
          have hblank : AreBlank [' '] := by simp [AreBlank, Text.isBlank]
          have hgap : IsGap ([] ++ ',' :: [' ']) := .comma (by simp [AreBlank]) hblank
          have hmore := Lists.more hid hgap (ih (by simp) hids)
          rwa [List.map_cons, List.map_cons, List.intercalate_cons_cons, List.append_assoc]

/-- What a directive is written as, character by character. -/
theorem toList_render (d : Directive) (marker : String) :
    (d.render marker).toList = marker.toList ++ (' ' :: d.verb.toList ++
      ' ' :: [',', ' '].intercalate (d.ids.map String.toList)) := by
  simp [render, String.toList_intercalate]

/-- A list without repetitions stays as it is. -/
theorem eraseDups_of_nodup {ids : List String} (h : ids.Nodup) : ids.eraseDups = ids := by
  induction ids with
  | nil => rfl
  | cons id ids ih =>
      rw [List.nodup_cons] at h
      have hf : ids.filter (fun i => !(i == id)) = ids := by
        rw [List.filter_eq_self]
        intro i hi
        have hne : i ≠ id := fun he => h.1 (he ▸ hi)
        simpa using hne
      rw [List.eraseDups_cons, hf, ih h.2]

/-- The directive lists ids, at least one and each of them once, as a comment that is read does. -/
structure IsList (d : Directive) : Prop where
  ne_nil : d.ids ≠ []
  isId : ∀ id ∈ d.ids, IsId id
  nodup : d.ids.Nodup

variable {d : Directive} {marker : String}

/-- Two slashes are one of the markers that a directive may start with. -/
theorem slashes_mem_markers : "//".toList ∈ markers := by simp [markers]

/-- A written directive follows the grammar, whatever its verb is. -/
theorem exists_reading_render (hm : marker.toList ∈ markers) (hne : d.ids ≠ [])
    (hids : ∀ id ∈ d.ids, IsId id) : ∃ r : Reading (d.render marker) d.verb, r.ids = d.ids := by
  have hblank : AreBlank [' '] := by simp [AreBlank, Text.isBlank]
  refine ⟨{
    marker := marker.toList, before := [' '], gap := [' '], ids := d.ids, after := []
    list := [',', ' '].intercalate (d.ids.map String.toList)
    comment_eq := by simp [toList_render]
    marker_mem := hm
    before_blank := hblank
    gap_ne_nil := by simp
    gap_blank := hblank
    lists := lists_intercalate hne hids
    after_blank := by simp [AreBlank] }, rfl⟩

/-- **A written directive is read back.** -/
theorem parse?_render (hm : marker.toList ∈ markers) (h : d.IsList) :
    parse? (d.render marker) d.verb = some d := by
  obtain ⟨r, hr⟩ := exists_reading_render hm h.ne_nil h.isId
  rw [r.parse?_eq, hr, eraseDups_of_nodup h.nodup]

/-- **Whatever is read as a directive lists ids, each of them once.** -/
theorem of_parse?_eq_some {comment verb : String} {d : Directive}
    (h : parse? comment verb = some d) :
    d.verb = verb ∧ d.ids ≠ [] ∧ (∀ id ∈ d.ids, IsId id) ∧ d.ids.Nodup := by
  obtain ⟨r, rfl⟩ := exists_reading_of_parse? h
  obtain ⟨hne, hids⟩ := r.lists.isId
  exact ⟨rfl, eraseDups_ne_nil hne, fun id hid => hids id (List.mem_eraseDups.1 hid),
    nodup_eraseDups r.ids⟩

/-- A comment holds the verb that it is read with. -/
theorem IsOneLine.of_parse? {comment verb : String} {d : Directive} (h : IsOneLine comment)
    (hd : parse? comment verb = some d) : IsOneLine verb := by
  obtain ⟨r, -⟩ := exists_reading_of_parse? hd
  intro c hc
  refine h c ?_
  rw [r.comment_eq]
  simp [hc]

/-! ### Adding an id -/

/-- Adding an id to a directive keeps its verb. -/
@[simp]
theorem verb_withId (d : Directive) (id : String) : (d.withId id).verb = d.verb := by
  unfold withId
  split <;> rfl

/-- Adding an id to a directive lists this id beside the ones it listed. -/
theorem mem_ids_withId_iff {d : Directive} {id i : String} :
    i ∈ (d.withId id).ids ↔ i ∈ d.ids ∨ i = id := by
  unfold withId
  split
  · next hc =>
    have hm : id ∈ d.ids := by simpa using hc
    exact ⟨.inl, fun hi => hi.elim (fun hi => hi) fun hi => hi ▸ hm⟩
  · simp

/-- What is read as a directive lists at least one id, and each id once. -/
theorem IsList.of_parse? {comment verb : String} (h : parse? comment verb = some d) : d.IsList :=
  ⟨(of_parse?_eq_some h).2.1, (of_parse?_eq_some h).2.2.1, (of_parse?_eq_some h).2.2.2⟩

/-- Adding an id keeps the list one. -/
theorem IsList.withId (h : d.IsList) {id : String} (hid : IsId id) : (d.withId id).IsList := by
  by_cases hm : id ∈ d.ids
  · rwa [withId_of_mem hm]
  · have hw : d.withId id = { d with ids := d.ids ++ [id] } := by simp [Directive.withId, hm]
    rw [hw]
    refine ⟨by simp, ?_, ?_⟩
    · intro i hi
      rcases List.mem_append.1 hi with hi | hi
      · exact h.isId i hi
      · exact List.mem_singleton.1 hi ▸ hid
    · rw [List.nodup_append]
      refine ⟨h.nodup, by simp, fun i hi j hj => ?_⟩
      obtain rfl := List.mem_singleton.1 hj
      rintro rfl
      exact hm hi

/-- An id may be added to what is read. -/
theorem parse?_render_withId {comment verb id : String} (hm : marker.toList ∈ markers)
    (hid : IsId id) (h : parse? comment verb = some d) :
    parse? ((d.withId id).render marker) verb = some (d.withId id) := by
  have hread := parse?_render hm ((IsList.of_parse? h).withId hid)
  rwa [verb_withId, (of_parse?_eq_some h).1] at hread

/-! ### As tokens -/

/-- Two slashes start a line comment, which only the end of the line ends. -/
theorem tokens_lineComment {cs : List Char} (h : ∀ c ∈ cs, Lexer.endsLine c = false) :
    tokens ('/' :: '/' :: cs) = [⟨.lineComment, String.ofList ('/' :: '/' :: cs)⟩] := by
  have hall : ∀ c ∈ '/' :: cs, (!Lexer.endsLine c) = true := by
    intro c hc
    rcases List.mem_cons.1 hc with rfl | hc
    · decide
    · simp [h c hc]
  have hcut : Lexer.cut '/' ('/' :: cs) =
      Lexer.run .lineComment (!Lexer.endsLine ·) ('/' :: cs) := by
    have h₁ : Text.isBlank '/' = false := by decide
    have h₂ : Lexer.startsIdentifier '/' = false := by decide
    have h₃ : Text.isDecimal '/' = false := by decide
    unfold Lexer.cut
    rw [h₁, h₂, h₃]
    rfl
  rw [tokens, hcut, Lexer.run, List.takeWhile_eq_self_iff.2 hall, List.dropWhile_eq_nil_iff.2 hall,
    tokens]

/-- The members of a joined list are those of its parts and of the separator. -/
theorem of_mem_intercalate {sep : List Char} {xs : List (List Char)} {c : Char}
    (h : c ∈ sep.intercalate xs) : c ∈ sep ∨ ∃ x ∈ xs, c ∈ x := by
  cases xs with
  | nil => simp at h
  | cons x xs =>
      rw [intercalate_cons_eq, List.mem_append, List.mem_flatMap] at h
      rcases h with h | ⟨y, hy, h⟩
      · exact .inr ⟨x, by simp, h⟩
      · rcases List.mem_append.1 h with h | h
        · exact .inl h
        · exact .inr ⟨y, List.mem_cons_of_mem _ hy, h⟩

/-- A character of one part is a character of the joined text. -/
theorem mem_intercalate {sep x : List Char} {xs : List (List Char)} {c : Char} (hx : x ∈ xs)
    (hc : c ∈ x) : c ∈ sep.intercalate xs := by
  cases xs with
  | nil => simp at hx
  | cons y ys =>
      rw [intercalate_cons_eq, List.mem_append, List.mem_flatMap]
      rcases List.mem_cons.1 hx with rfl | hx
      · exact .inl hc
      · exact .inr ⟨x, hx, List.mem_append_right _ hc⟩

/-- The verb and the ids of a written directive are on its line. -/
theorem IsOneLine.of_render {d : Directive} (h : IsOneLine (d.render "//")) :
    IsOneLine d.verb ∧ ∀ id ∈ d.ids, IsOneLine id := by
  rw [IsOneLine, toList_render] at h
  refine ⟨fun c hc => h c (by simp [hc]), fun id hid c hc => h c ?_⟩
  have hm : c ∈ [',', ' '].intercalate (d.ids.map String.toList) :=
    mem_intercalate (List.mem_map_of_mem hid) hc
  simp [hm]

/-- **A written directive is one line comment**, if its parts stay on one line. -/
theorem tokenize_render {d : Directive} (hv : IsOneLine d.verb)
    (hids : ∀ id ∈ d.ids, IsOneLine id) :
    tokenize (d.render "//") = [⟨.lineComment, d.render "//"⟩] := by
  have hline : ∀ c ∈ ' ' :: d.verb.toList ++ ' ' :: [',', ' '].intercalate
      (d.ids.map String.toList), Lexer.endsLine c = false := by
    intro c hc
    rw [List.mem_append, List.mem_cons, List.mem_cons] at hc
    rcases hc with (rfl | hc) | rfl | hc
    · decide
    · exact hv c hc
    · decide
    · rcases of_mem_intercalate hc with hc | ⟨i, hi, hc⟩
      · simp only [List.mem_cons, List.not_mem_nil, or_false] at hc
        rcases hc with rfl | rfl <;> decide
      · obtain ⟨id, hid, rfl⟩ := List.mem_map.1 hi
        exact hids id hid c hc
  have hlist : (d.render "//").toList = '/' :: '/' :: (' ' :: d.verb.toList ++
      ' ' :: [',', ' '].intercalate (d.ids.map String.toList)) := toList_render d "//"
  rw [tokenize, hlist, tokens_lineComment hline, ← hlist, String.ofList_toList]

end Directive

/-! ### Plain settings -/

namespace Settings

open Directive (IsId IsOneLine)

/-- Settings that spell directives with ids, and write them as line comments. -/
structure Plain (s : Settings) : Prop where
  verb : IsId s.verb
  fileSuffix : IsId s.fileSuffix
  allChecksId : IsId s.allChecksId
  marker : s.marker = "//"

/-- The standard settings have the plain verb and marker that the results on written comments ask
for. -/
theorem plain_standard : standard.Plain where
  verb := ⟨by decide, by decide⟩
  fileSuffix := ⟨by decide, by decide⟩
  allChecksId := ⟨by decide, by decide⟩
  marker := rfl

/-- Settings whose verb is an id, and that write directives as line comments: what they write for an
id is read back. -/
structure Legible (s : Settings) : Prop where
  verb : IsId s.verb
  marker : s.marker = "//"

variable {s : Settings} {id check text : String} {dir : Directive}

/-- Plain settings are legible: their verb is a word and their marker one that is read. -/
theorem Plain.legible (h : s.Plain) : s.Legible := ⟨h.verb, h.marker⟩

/-- The marker of legible settings is one that the reader of directives knows. -/
theorem Legible.marker_mem (h : s.Legible) : s.marker.toList ∈ Directive.markers :=
  h.marker ▸ Directive.slashes_mem_markers

/-- What is written for an id is read back. -/
theorem parse?_comment (h : s.Legible) (hid : IsId id) :
    Directive.parse? (s.comment id) s.verb = some ⟨s.verb, [id]⟩ :=
  Directive.parse?_render (d := ⟨s.verb, [id]⟩) h.marker_mem
    ⟨by simp, by simpa using hid, by simp⟩

/-- Adding an id to a directive that was read, and writing it out, gives a text that is read as the
directive with this id. -/
theorem parse?_withId (h : s.Legible) (hid : IsId id)
    (hdir : Directive.parse? text s.verb = some dir) :
    Directive.parse? ((dir.withId id).render s.marker) s.verb = some (dir.withId id) :=
  Directive.parse?_render_withId h.marker_mem hid hdir

/-- Whether a comment lists an id is asked of the directive in it. -/
theorem mentions_iff (h : Directive.parse? text s.verb = some dir) :
    s.mentions text check = true ↔ check ∈ dir.ids ∨ s.allChecksId ∈ dir.ids := by
  simp [mentions, isMentioned, h, Directive.mentions]

/-- **A written directive lists its id** and no other. -/
theorem mentions_comment (h : s.Plain) (hid : IsId id) (hne : id ≠ s.allChecksId) :
    s.mentions (s.comment id) check = true ↔ check = id := by
  rw [mentions_iff (parse?_comment h.legible hid)]
  simp [Ne.symm hne]

/-- **A directive with one more id lists that id** besides those it listed. -/
theorem mentions_withId (h : s.Plain) (hid : IsId id) (hne : id ≠ s.allChecksId)
    (hdir : Directive.parse? text s.verb = some dir) :
    s.mentions ((dir.withId id).render s.marker) check = true ↔
      s.mentions text check = true ∨ check = id := by
  rw [mentions_iff (parse?_withId h.legible hid hdir), mentions_iff hdir,
    Directive.mem_ids_withId_iff, Directive.mem_ids_withId_iff]
  simp only [Ne.symm hne, or_false]
  exact or_right_comm

/-- What is written for an id is one line comment, if the verb and the id stay on one line. -/
theorem tokenize_comment (hmarker : s.marker = "//") (hverb : IsOneLine s.verb)
    (hid : IsOneLine id) : tokenize (s.comment id) = [⟨.lineComment, s.comment id⟩] := by
  rw [comment, hmarker]
  exact Directive.tokenize_render hverb (by simpa using hid)

/-- If verb and id stay on one line, a directive with an added id is still written as a single line
comment. -/
theorem tokenize_withId (hmarker : s.marker = "//") (hverb : IsOneLine s.verb)
    (hid : IsOneLine id) (hdir : Directive.parse? text s.verb = some dir) :
    tokenize ((dir.withId id).render s.marker) =
      [⟨.lineComment, (dir.withId id).render s.marker⟩] := by
  obtain ⟨hdirverb, -, hids, -⟩ := Directive.of_parse?_eq_some hdir
  rw [hmarker]
  refine Directive.tokenize_render ?_ fun i hi => ?_
  · rwa [Directive.verb_withId, hdirverb]
  · rcases Directive.mem_ids_withId_iff.1 hi with hi | rfl
    · exact (hids i hi).2.isOneLine
    · exact hid

end Settings

end BnfSuppression
