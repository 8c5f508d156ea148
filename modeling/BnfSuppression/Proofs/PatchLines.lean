import BnfSuppression.Proofs.Lines
import BnfSuppression.Proofs.Patching

/-!
# The Lines of Patches

What a patch lists are single lines: the names of the two texts, the ranges of the hunks, and lines
of the texts behind signs. The first two are complete, if the name breaks no line. A line of a text
is, unless it is the last one and lacks its line break. So a patch is made of complete lines exactly
if no hunk shows such a line.

## Main definitions

* `Diff.changes`: the hunks of the patch between two texts.
* `Diff.Bare`: the last line of a text lacks its line break.
* `Diff.Hunk.ShowsOld`, `Diff.Hunk.ShowsNew`: the lines of either text that a hunk shows.
* `Diff.HidesBare`: no hunk shows a last line that lacks its line break.

## Main results

* `Diff.joinable_patch`: **what a patch lists are lines**.
* `Diff.complete_patch_iff`: **they are complete exactly if no hunk shows a line that is not**.
-/

namespace BnfSuppression.Diff

open Text (IsComplete IsLine Unbroken)

variable {old new name : String} {s t : Script} {hs : List Hunk} {k : Hunk} {m n : Nat}
  {l : MarkedLine}

/-- The hunks of the patch between two texts. -/
def changes (old new : String) : List Hunk := hunks (script (linesOf old) (linesOf new))

/-- A script between two lists of lines reads as the first on its old side. -/
theorem before_script (xs ys : List String) : before (script xs ys) = xs := before_align ..

/-- A script between two lists of lines reads as the second on its new side. -/
theorem after_script (xs ys : List String) : after (script xs ys) = ys := after_align ..

/-! ### Where hunks are -/

/-- Each hunk shows a part of the script, and says how many lines come before it. -/
theorem Covers.split (h : Covers m n s hs) (hk : k ∈ hs) : ∃ front back,
    s = front ++ k.script ++ back ∧ k.old = m + (before front).length ∧
      k.new = n + (after front).length := by
  induction h with
  | nil => simp at hk
  | @kept m n l s hs hl _ ih =>
      obtain ⟨front, back, rfl, hold, hnew⟩ := ih hk
      refine ⟨l :: front, back, rfl, ?_, ?_⟩
      · rw [hold, length_before_cons, MarkedLine.oldCount, hl, Nat.add_assoc]
        rfl
      · rw [hnew, length_after_cons, MarkedLine.newCount, hl, Nat.add_assoc]
        rfl
  | @hunk m n t s hs _ ih =>
      rcases List.mem_cons.1 hk with rfl | hk
      · exact ⟨[], s, rfl, rfl, rfl⟩
      · obtain ⟨front, back, rfl, hold, hnew⟩ := ih hk
        refine ⟨t ++ front, back, by simp, ?_, ?_⟩
        · rw [hold, before_append, List.length_append, Nat.add_assoc]
        · rw [hnew, after_append, List.length_append, Nat.add_assoc]

/-- A hunk shows a run of lines of either text, the place of which it names. -/
theorem split_of_mem_changes (hk : k ∈ changes old new) :
    (∃ front back, linesOf old = front ++ before k.script ++ back ∧ k.old = front.length) ∧
      ∃ front back, linesOf new = front ++ after k.script ++ back ∧ k.new = front.length := by
  obtain ⟨front, back, hs, hold, hnew⟩ := (covers_hunks _).split hk
  rw [Nat.zero_add] at hold hnew
  refine ⟨⟨before front, before back, ?_, hold⟩, ⟨after front, after back, ?_, hnew⟩⟩
  · simpa [before_script] using congrArg before hs
  · simpa [after_script] using congrArg after hs

/-- A line of a script is one of either text. -/
theorem mem_before_or_after (h : l ∈ s) : l.line ∈ before s ∨ l.line ∈ after s := by
  cases hm : l.mark with
  | added => exact .inr (List.mem_map.2 ⟨l, List.mem_filter.2 ⟨h, by simp [hm]⟩, rfl⟩)
  | kept => exact .inl (List.mem_map.2 ⟨l, List.mem_filter.2 ⟨h, by simp [hm]⟩, rfl⟩)
  | removed => exact .inl (List.mem_map.2 ⟨l, List.mem_filter.2 ⟨h, by simp [hm]⟩, rfl⟩)

/-- The lines of a script are those of the two texts. -/
theorem forall_line_iff {P : String → Prop} :
    (∀ l ∈ s, P l.line) ↔ (∀ x ∈ before s, P x) ∧ ∀ x ∈ after s, P x := by
  constructor
  · intro h
    constructor
    all_goals
      intro x hx
      obtain ⟨l, hl, rfl⟩ := List.mem_map.1 hx
      exact h l (List.mem_filter.1 hl).1
  · intro h l hl
    exact (mem_before_or_after hl).elim (h.1 _) (h.2 _)

/-- Every line of a text is one line. -/
theorem isLine_of_mem_linesOf {text x : String} (h : x ∈ linesOf text) : IsLine x.toList := by
  obtain ⟨cs, hcs, rfl⟩ := List.mem_map.1 h
  rw [String.toList_ofList]
  exact Text.isLine_of_mem_lines hcs

/-- What a hunk shows are lines. -/
theorem isLine_of_mem_script (hk : k ∈ changes old new) (hl : l ∈ k.script) :
    IsLine l.line.toList := by
  obtain ⟨⟨front, back, hold, -⟩, ⟨front', back', hnew, -⟩⟩ := split_of_mem_changes hk
  rcases mem_before_or_after hl with h | h
  · exact @isLine_of_mem_linesOf old _ (by simp [hold, h])
  · exact @isLine_of_mem_linesOf new _ (by simp [hnew, h])

/-! ### What a patch lists -/

/-- The line that a hunk starts with. -/
def Hunk.opening (k : Hunk) : String :=
  "@@ -" ++ range k.old (before k.script).length ++ " +" ++
    range k.new (after k.script).length ++ " @@\n"

/-- A text with a sign in front. -/
def MarkedLine.signed (l : MarkedLine) : String := l.mark.sign ++ l.line

/-- A hunk is written as its opening, and then its lines with their signs. -/
theorem Hunk.render_eq (k : Hunk) : k.render = k.opening :: k.script.map MarkedLine.signed := rfl

/-- The line that names the old text, and the one that names the new text. -/
def titles (name : String) : List String :=
  ["--- " ++ name ++ " (original)\n", "+++ " ++ name ++ " (suppressed)\n"]

/-- What a patch lists: the names of the texts, the openings of its hunks, and lines with signs. -/
theorem forall_mem_patch {P : String → Prop} : (∀ x ∈ patch old new name, P x) ↔
    (changes old new ≠ [] → ∀ x ∈ titles name, P x) ∧
      ∀ k ∈ changes old new, P k.opening ∧ ∀ l ∈ k.script, P l.signed := by
  rw [patch, ← changes]
  cases changes old new with
  | nil => simp
  | cons k ks =>
      simp only [titles, Hunk.render_eq, List.mem_cons, List.mem_flatMap, List.mem_map]
      grind

/-! ### Complete lines -/

/-- A text within a line, and a line feed behind it, are a complete line. -/
theorem isComplete_of_unbroken {cs : List Char} (h : Unbroken cs) : IsComplete (cs ++ ['\n']) :=
  ⟨cs, ['\n'], h, .single (by decide), rfl⟩

/-- The range of a hunk is written on one line. -/
theorem unbroken_range (m n : Nat) : Unbroken (range m n).toList := by
  intro c hc
  rcases of_mem_range hc with h | rfl
  · exact Text.isLineBreak_of_isDigit h
  · decide

/-- The opening of a hunk is a complete line. -/
theorem Hunk.isComplete_opening (k : Hunk) : IsComplete k.opening.toList := by
  have hopening : k.opening.toList = ("@@ -".toList ++
      (range k.old (before k.script).length).toList ++ " +".toList ++
        (range k.new (after k.script).length).toList ++ " @@".toList) ++ ['\n'] := by
    simp [opening]
  rw [hopening]
  refine isComplete_of_unbroken ?_
  simp only [Text.unbroken_append, unbroken_range, and_true]
  exact ⟨⟨by decide, by decide⟩, by decide⟩

/-- What a complete line has in front of two characters at its end breaks no line. -/
theorem unbroken_of_isComplete {cs ds : List Char} (h : IsComplete (cs ++ ds))
    (hd : 2 ≤ ds.length) : Unbroken cs := by
  obtain ⟨body, ending, hb, he, heq⟩ := h
  have hending : ending.length ≤ 2 := by cases he <;> simp
  have hlength := congrArg List.length heq
  simp only [List.length_append] at hlength
  have hfront : cs <+: body := List.prefix_of_prefix_length_le (heq ▸ List.prefix_append cs ds)
    (List.prefix_append body ending) (by omega)
  exact fun c hc => hb c (hfront.subset hc)

/-- The titles are complete lines exactly if the name breaks no line. -/
theorem isComplete_titles_iff :
    (∀ x ∈ titles name, IsComplete x.toList) ↔ Unbroken name.toList := by
  constructor
  · intro h
    have hold := h _ List.mem_cons_self
    rw [String.toList_append] at hold
    have hfront := unbroken_of_isComplete hold (by decide)
    rw [String.toList_append] at hfront
    exact (Text.unbroken_append.1 hfront).2
  · intro h
    have htitle (sign kind : String) (hs : Unbroken sign.toList) (hk : Unbroken kind.toList) :
        IsComplete (sign ++ name ++ (kind ++ "\n")).toList := by
      simp only [String.toList_append, ← List.append_assoc]
      exact isComplete_of_unbroken
        (Text.unbroken_append.2 ⟨Text.unbroken_append.2 ⟨hs, h⟩, hk⟩)
    intro x hx
    simp only [titles, List.mem_cons, List.not_mem_nil, or_false] at hx
    rcases hx with rfl | rfl
    · exact htitle "--- " " (original)" (by decide) (by decide)
    · exact htitle "+++ " " (suppressed)" (by decide) (by decide)

/-- A sign breaks no line. -/
theorem toList_signed (l : MarkedLine) : ∃ c, Text.isLineBreak c = false ∧ c ≠ '\n' ∧
    l.signed.toList = c :: l.line.toList := by
  obtain ⟨mark, line⟩ := l
  cases mark with
  | kept => exact ⟨' ', by decide, by decide, by simp [MarkedLine.signed, Mark.sign]⟩
  | removed => exact ⟨'-', by decide, by decide, by simp [MarkedLine.signed, Mark.sign]⟩
  | added => exact ⟨'+', by decide, by decide, by simp [MarkedLine.signed, Mark.sign]⟩

/-- A sign in front of a line makes no difference to whether it is complete. -/
theorem isComplete_signed_iff : IsComplete l.signed.toList ↔ IsComplete l.line.toList := by
  obtain ⟨c, hc, -, hl⟩ := toList_signed l
  rw [hl, Text.isComplete_cons_iff hc]

/-- **What a patch lists are lines**, none of which could be taken for the second half of a line
break, if the name breaks no line. -/
theorem joinable_patch (hname : Unbroken name.toList) :
    Text.Joinable ((patch old new name).map String.toList) := by
  rw [Text.Joinable, List.forall_mem_map, forall_mem_patch]
  refine ⟨fun _ x hx => ⟨(isComplete_titles_iff.2 hname x hx).isLine, ?_⟩, fun k hk =>
    ⟨⟨k.isComplete_opening.isLine, by simp [Hunk.opening]⟩, fun l hl => ?_⟩⟩
  · simp only [titles, List.mem_cons, List.not_mem_nil, or_false] at hx
    rcases hx with rfl | rfl <;> simp
  · obtain ⟨c, hc, hne, hs⟩ := toList_signed l
    rw [hs]
    exact ⟨(isLine_of_mem_script hk hl).cons hc, by simpa using hne⟩

/-! ### Lines without a line break -/

/-- The last line of a text lacks its line break. -/
def Bare (text : String) : Prop := ∃ x ∈ (linesOf text).getLast?, ¬ IsComplete x.toList

/-- The hunk shows the line of the old text that so many lines come before. -/
def Hunk.ShowsOld (k : Hunk) (i : Nat) : Prop := k.old ≤ i ∧ i < k.old + (before k.script).length

/-- The hunk shows the line of the new text that so many lines come before. -/
def Hunk.ShowsNew (k : Hunk) (i : Nat) : Prop := k.new ≤ i ∧ i < k.new + (after k.script).length

/-- Every line of a text but the last has its line break. -/
theorem isComplete_of_mem_dropLast_linesOf {text x : String} (h : x ∈ (linesOf text).dropLast) :
    IsComplete x.toList := by
  rw [linesOf, ← List.map_dropLast] at h
  obtain ⟨cs, hcs, rfl⟩ := List.mem_map.1 h
  rw [String.toList_ofList]
  exact Text.isComplete_of_mem_dropLast_lines hcs

/-- Lines in a row are complete exactly if they do not reach a last line that is not. -/
theorem complete_run_iff {text : String} {front run back : List String}
    (h : linesOf text = front ++ run ++ back) : (∀ x ∈ run, IsComplete x.toList) ↔
      (Bare text → ¬ (front.length ≤ (linesOf text).length - 1 ∧
        (linesOf text).length - 1 < front.length + run.length)) := by
  constructor
  · rintro hrun ⟨x, hx, hbare⟩ ⟨hfirst, hlast⟩
    have hpos : 0 < (linesOf text).length :=
      List.length_pos_of_mem (List.mem_of_getLast? (Option.mem_def.1 hx))
    simp only [h, List.length_append] at hfirst hlast hpos
    obtain rfl : back = [] := List.length_eq_zero_iff.1 (by omega)
    have hne : run ≠ [] := by
      rintro rfl
      simp only [List.length_nil] at hfirst hlast hpos
      omega
    rw [h, List.append_nil, List.getLast?_append_of_ne_nil _ hne] at hx
    exact hbare (hrun x (List.mem_of_getLast? (Option.mem_def.1 hx)))
  · intro hbare x hx
    by_contra hno
    obtain ⟨run₁, run₂, rfl⟩ := List.append_of_mem hx
    have hlines : linesOf text = (front ++ run₁) ++ x :: (run₂ ++ back) := by simp [h]
    by_cases hend : run₂ ++ back = []
    · rw [hend] at hlines
      refine hbare ⟨x, by simp [hlines], hno⟩ ?_
      obtain ⟨rfl, rfl⟩ := List.append_eq_nil_iff.1 hend
      simp only [hlines, List.length_append, List.length_cons, List.length_nil]
      omega
    · refine hno (@isComplete_of_mem_dropLast_linesOf text x ?_)
      rw [hlines, List.dropLast_append_of_ne_nil (by simp), List.dropLast_cons_of_ne_nil hend]
      simp

/-- No hunk shows the last line of a text that lacks its line break there. -/
def HidesBare (old new : String) : Prop :=
  (Bare old → ∀ k ∈ changes old new, ¬ k.ShowsOld ((linesOf old).length - 1)) ∧
    (Bare new → ∀ k ∈ changes old new, ¬ k.ShowsNew ((linesOf new).length - 1))

/-- **A patch is made of complete lines exactly if no hunk shows a line that is not**, and the name
breaks no line if there is a hunk. -/
theorem complete_patch_iff : (∀ x ∈ patch old new name, IsComplete x.toList) ↔
    (changes old new ≠ [] → Unbroken name.toList) ∧ HidesBare old new := by
  have hhunk (k : Hunk) (hk : k ∈ changes old new) :
      (IsComplete k.opening.toList ∧ ∀ l ∈ k.script, IsComplete l.signed.toList) ↔
        (Bare old → ¬ k.ShowsOld ((linesOf old).length - 1)) ∧
          (Bare new → ¬ k.ShowsNew ((linesOf new).length - 1)) := by
    obtain ⟨⟨front, back, hold, hfirst⟩, ⟨front', back', hnew, hfirst'⟩⟩ := split_of_mem_changes hk
    simp only [Hunk.ShowsOld, Hunk.ShowsNew, hfirst, hfirst', ← complete_run_iff hold,
      ← complete_run_iff hnew, k.isComplete_opening, isComplete_signed_iff, true_and]
    exact forall_line_iff (P := fun x => IsComplete x.toList)
  rw [forall_mem_patch, isComplete_titles_iff]
  refine and_congr_right fun _ => ⟨fun h => ⟨fun hb k hk => ((hhunk k hk).1 (h k hk)).1 hb,
    fun hb k hk => ((hhunk k hk).1 (h k hk)).2 hb⟩, fun h k hk => (hhunk k hk).2
      ⟨fun hb => h.1 hb k hk, fun hb => h.2 hb k hk⟩⟩

end BnfSuppression.Diff
