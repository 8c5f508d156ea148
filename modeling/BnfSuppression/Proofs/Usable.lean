import BnfSuppression.Proofs.ReadBack

/-!
# What Settled Settings Are Good For

Settling drops the values that cannot be used, so what is settled spells directives: words for the
verb, the suffix and the id of all checks, and the marker of line comments. There is one gap. A word
may end with a line feed, and then it stays as it is. A verb with a line feed makes comments that
cannot be created, and a suffix with a line feed makes ids that cannot be created and are not read
back.

## Main definitions

* `Layer.EndsInLineFeed`: the value of a key is an id with a line feed after it.

## Main results

* `isToken_iff`: what is accepted as a word.
* `Layer.isId_get_freeze_iff`: **which settled values are ids**.
* `Settings.addComment_comment`: when the comment of an action can be created.
* `Layer.freeze_usable_iff`: **what settled settings write for a check is created and read back,
  exactly if no line feed gets in the way and there is an id to write**.
-/

namespace BnfSuppression

open Directive (IsId IsOneLine IsWord)

variable {id text : String} {key : Key} {s : Settings} {a : Action}

/-! ### Words -/

/-- A text with a line feed at its end does not stay on one line. -/
theorem not_isOneLine_lineFeed (id : String) : ¬ IsOneLine (id ++ "\n") := fun h => by
  have := h '\n' (by simp)
  simp [Lexer.endsLine] at this

/-- **What is accepted as a word** is an id, perhaps with a line feed after it. -/
theorem isToken_iff : isToken text = true ↔ ∃ id, IsId id ∧ (text = id ∨ text = id ++ "\n") := by
  constructor
  · intro h
    by_cases hl : text.toList.getLast? = some '\n'
    · obtain ⟨cs, hcs⟩ := List.getLast?_eq_some_iff.1 hl
      simp only [isToken, hcs, List.dropLast_concat, Bool.and_eq_true,
        List.all_eq_true] at h
      refine ⟨String.ofList cs, ⟨fun he => ?_, by simpa [Directive.IsWord] using h.2⟩, .inr ?_⟩
      · simp [String.ofList_eq_empty_iff.1 he] at h
      · rw [← String.toList_inj, hcs]
        simp
    · simp only [isToken, if_neg hl, Bool.and_eq_true, List.all_eq_true] at h
      exact ⟨text, ⟨fun he => by simp [he] at h, h.2⟩, .inl rfl⟩
  · rintro ⟨id, hid, rfl | rfl⟩
    · have hl : text.toList.getLast? ≠ some '\n' := fun he => by
        have := hid.2 _ (List.mem_of_getLast? he)
        simp [Directive.isIdChar] at this
      have hne := hid.toList_ne_nil
      have hall := List.all_eq_true.2 hid.2
      simp [isToken, if_neg hl, hne, hall]
    · have hne := hid.toList_ne_nil
      have hall := List.all_eq_true.2 hid.2
      simp [isToken, hne, hall]

/-- Two texts together stay on one line exactly if each of them does. -/
theorem isOneLine_append_iff {x y : String} :
    IsOneLine (x ++ y) ↔ IsOneLine x ∧ IsOneLine y := by
  simp only [IsOneLine, String.toList_append, List.mem_append, or_imp, forall_and]

/-- An accepted word is an id exactly if it stays on one line. -/
theorem isOneLine_iff_isId (h : isToken text = true) : IsOneLine text ↔ IsId text :=
  ⟨isId_of_isToken h, fun hid => hid.2.isOneLine⟩

/-! ### Settled values -/

/-- The value of a key is an id with a line feed after it. -/
def Layer.EndsInLineFeed (l : Layer) (key : Key) : Prop :=
  ∃ id, IsId id ∧ l.value? key = some (id ++ "\n")

/-- Every key but the marker accepts the same texts, those that match a token. -/
theorem Key.accepts_eq_isToken (hk : key ≠ .marker) : key.accepts = isToken := by
  cases key <;> first | rfl | exact absurd rfl hk

/-- The standard value of every key but the marker is an id. -/
theorem Key.isId_standard (hk : key ≠ .marker) : IsId key.standard := by
  cases key with
  | marker => exact absurd rfl hk
  | _ => exact ⟨by decide, by decide⟩

namespace Layer

variable {l : Layer}

/-- A value with a line feed at its end is settled as it is. -/
theorem get_freeze_of_lineFeed (hk : key ≠ .marker) (hid : IsId id)
    (hv : l.value? key = some (id ++ "\n")) : l.freeze.settings.get key = id ++ "\n" := by
  have ha : key.accepts (id ++ "\n") = true := by
    rw [Key.accepts_eq_isToken hk]
    exact isToken_iff.2 ⟨id, hid, .inr rfl⟩
  rw [get_freeze, hv]
  simp [Option.filter, ha]

/-- **Which settled values are ids**: all but those with a line feed at their end. -/
theorem isId_get_freeze_iff (l : Layer) (hk : key ≠ .marker) :
    IsId (l.freeze.settings.get key) ↔ ¬ l.EndsInLineFeed key := by
  constructor
  · rintro h ⟨id, hid, hv⟩
    rw [get_freeze_of_lineFeed hk hid hv] at h
    exact not_isOneLine_lineFeed id h.2.isOneLine
  · intro h
    rw [get_freeze]
    cases hv : (l.value? key).filter key.accepts with
    | none => exact Key.isId_standard hk
    | some value =>
        obtain ⟨hvalue, ha⟩ := Option.filter_eq_some_iff.1 hv
        rw [Key.accepts_eq_isToken hk] at ha
        obtain ⟨id, hid, rfl | rfl⟩ := isToken_iff.1 ha
        · exact hid
        · exact absurd ⟨id, hid, hvalue⟩ h

/-- A setting stays on one line exactly if the layer does not set it to a text with a line feed at
its end. -/
theorem isOneLine_get_freeze_iff (l : Layer) (hk : key ≠ .marker) :
    IsOneLine (l.freeze.settings.get key) ↔ ¬ l.EndsInLineFeed key := by
  have ha := l.accepts_freeze key
  rw [Key.accepts_eq_isToken hk] at ha
  rw [isOneLine_iff_isId ha, l.isId_get_freeze_iff hk]

/-- What an action writes for a word stays on one line, unless the suffix breaks it. -/
theorem isOneLine_id_freeze_iff (l : Layer) (hword : IsWord a.check) :
    IsOneLine (a.id l.freeze.settings) ↔
      (a.scope = .document → ¬ l.EndsInLineFeed .fileSuffix) := by
  have hcheck : IsOneLine a.check := hword.isOneLine
  by_cases hd : a.scope = .document
  · have hfile : a.id l.freeze.settings = a.check ++ l.freeze.settings.get .fileSuffix := if_pos hd
    rw [hfile, isOneLine_append_iff, l.isOneLine_get_freeze_iff (by decide)]
    simp [hcheck, hd]
  · have hplain : a.id l.freeze.settings = a.check := if_neg hd
    simp [hplain, hcheck, hd]

/-- What an action writes for a word is an id, unless the suffix breaks the line or nothing is
written at all. -/
theorem isId_id_freeze_iff (l : Layer) (hword : IsWord a.check) :
    IsId (a.id l.freeze.settings) ↔ (a.scope = .document → ¬ l.EndsInLineFeed .fileSuffix) ∧
      (a.check ≠ "" ∨ a.scope = .document) := by
  refine ⟨fun h => ⟨(l.isOneLine_id_freeze_iff hword).1 h.2.isOneLine, ?_⟩, fun ⟨h, hne⟩ =>
    a.isId_id (fun hd => (l.isId_get_freeze_iff (by decide)).2 (h hd)) hword hne⟩
  by_cases hd : a.scope = .document
  · exact .inr hd
  · have hplain : a.id l.freeze.settings = a.check := if_neg hd
    exact .inl (hplain ▸ h.1)

end Layer

/-! ### Comments -/

/-- A comment that cannot be created is refused for its text. -/
theorem Forest.addComment_of_ne_ok {f : Forest} (h : ∀ r, f.addComment text ≠ .ok r) :
    f.addComment text = .error (.notOneComment text) := by
  simp only [addComment] at h ⊢
  split at h
  · split at h
    · exact absurd rfl (h _)
    · next ht => simp [ht]
  · rfl

/-- **When the comment for an id can be created**: exactly if the verb and the id stay on one
line. -/
theorem Settings.addComment_comment (hm : s.marker = "//") (f : Forest) (id : String) :
    f.addComment (s.comment id) =
      if IsOneLine s.verb ∧ IsOneLine id then .ok (f.addLeaf ⟨.lineComment, s.comment id⟩)
      else .error (.notOneComment (s.comment id)) := by
  split
  · next h => exact Forest.addComment_ok (tokenize_comment hm h.1 h.2) rfl
  · next h =>
      refine Forest.addComment_of_ne_ok fun r hr => h ?_
      obtain ⟨t, ht, hl, -⟩ := Forest.addComment_eq_ok hr
      have hline : IsOneLine (s.comment id) := Workspace.IsLineComment.isOneLine ⟨ht, hl⟩
      rw [comment, hm] at hline
      exact ⟨hline.of_render.1, hline.of_render.2 id (by simp)⟩

/-- What is written for an id is read back as this id exactly if it is one. -/
theorem Settings.parse?_comment_iff (hm : s.marker = "//") :
    Directive.parse? (s.comment id) s.verb = some ⟨s.verb, [id]⟩ ↔ IsId id := by
  constructor
  · intro h
    exact (Directive.of_parse?_eq_some h).2.2.1 id (by simp)
  · intro hid
    exact Directive.parse?_render (d := ⟨s.verb, [id]⟩) (hm ▸ Directive.slashes_mem_markers)
      ⟨by simp, by simpa using hid, by simp⟩

/-- **What settled settings are good for.** They write line comments, and spell directives with ids,
except where a value has a line feed at its end. For every check that is a word, and each kind of
container, the comment that is written lists just the id that was meant, unless the suffix breaks
the line, or the check is empty and no suffix comes behind it; and it can be created, unless the
suffix or the verb breaks the line. -/
theorem Layer.freeze_usable_iff (l : Layer) :
    let s := l.freeze.settings
    s.marker = "//" ∧
    (∀ key, key ≠ .marker → (IsId (s.get key) ↔ ¬ l.EndsInLineFeed key) ∧
      ∀ id, IsId id → l.value? key = some (id ++ "\n") → s.get key = id ++ "\n") ∧
    ∀ a : Action, IsWord a.check →
      let comment := s.comment (a.id s)
      let stays := a.scope = .document → ¬ l.EndsInLineFeed .fileSuffix
      (Directive.parse? comment s.verb = some ⟨s.verb, [a.id s]⟩ ↔
        stays ∧ (a.check ≠ "" ∨ a.scope = .document)) ∧
      ∀ f : Forest,
        (¬ l.EndsInLineFeed .verb ∧ stays →
          f.addComment comment = .ok (f.addLeaf ⟨.lineComment, comment⟩)) ∧
        (¬ (¬ l.EndsInLineFeed .verb ∧ stays) →
          f.addComment comment = .error (.notOneComment comment)) := by
  intro s
  refine ⟨l.marker_freeze, fun key hk => ⟨l.isId_get_freeze_iff hk, fun id hid hv =>
    get_freeze_of_lineFeed hk hid hv⟩, fun a hword => ?_⟩
  intro comment stays
  have hverb : IsOneLine (s.get .verb) ↔ ¬ l.EndsInLineFeed .verb :=
    l.isOneLine_get_freeze_iff (by decide)
  have hstays : IsOneLine s.verb ∧ IsOneLine (a.id s) ↔ ¬ l.EndsInLineFeed .verb ∧ stays :=
    and_congr hverb (l.isOneLine_id_freeze_iff hword)
  refine ⟨?_, fun f => ?_⟩
  · rw [Settings.parse?_comment_iff l.marker_freeze, l.isId_id_freeze_iff hword]
  · rw [← hstays, Settings.addComment_comment l.marker_freeze]
    exact ⟨fun h => if_pos h, fun h => if_neg h⟩

/-- A verb with a line feed at its end is taken as it is, without a diagnostic: its comments would
be read, but none can be created. The empty check is no id even where a comment is written for
it. -/
theorem Layer.freeze_usable_iff_of_lineFeed :
    let l := Layer.empty.set .verb (some "x\n")
    let a : Action := ⟨"A", .rule, rfl⟩
    let empty : Action := ⟨"", .rule, rfl⟩
    l.freeze.settings.verb = "x\n" ∧ l.freeze.diagnostics = [] ∧ Key.verb ≠ .marker ∧ IsId "x" ∧
      l.value? .verb = some ("x" ++ "\n") ∧ ¬ IsId (l.freeze.settings.get .verb) ∧ IsId a.check ∧
      Directive.parse? "// x\n A" "x\n" = some ⟨"x\n", ["A"]⟩ ∧
      Forest.empty.addComment "// x\n A" = .error (.notOneComment "// x\n A") ∧
      IsWord empty.check ∧ Directive.parse? "// x\n " "x\n" ≠ some ⟨"x\n", [""]⟩ := by
  intro l a empty
  have hx : IsId "x" := ⟨by decide, by decide⟩
  have hA : IsId a.check := ⟨by decide, by decide⟩
  have hnone : IsWord empty.check := by decide
  have hv : l.value? .verb = some ("x" ++ "\n") := by decide
  have hl : l.EndsInLineFeed .verb := ⟨"x", hx, hv⟩
  obtain ⟨-, hget, hwritten⟩ := l.freeze_usable_iff
  obtain ⟨hid, hkept⟩ := hget .verb (by decide)
  obtain ⟨hread, hcreated⟩ := hwritten a hA.2
  obtain ⟨hempty, -⟩ := hwritten empty hnone
  exact ⟨hkept "x" hx hv, by decide +kernel, by decide, hx, hv, fun h => hid.1 h hl, hA,
    hread.2 ⟨fun hd => absurd hd (by decide), .inl hA.1⟩,
    (hcreated .empty).2 fun h => h.1 hl, hnone, fun hp => absurd (hempty.1 hp).2 (by decide)⟩

end BnfSuppression
