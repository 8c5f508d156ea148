/-!
# Aligning two sequences of lines

Two sequences of lines are aligned at their longest common run, and so are the parts before and
after it. Of several longest runs the one counts that starts first in the old sequence, and of those
the one that starts first in the new one. Lines that occur often in a long new sequence say little:
a run is found by its other lines alone, and then grows over such lines on both sides.

## Main definitions

* `Diff.MarkedLine`, `Diff.Script`: lines that were kept, removed or added.
* `Diff.align`: the script that turns one sequence into another.

## Main results

* `Diff.before_align`, `Diff.after_align`: the script is one from the old sequence to the new one.
-/

namespace BnfSuppression.Diff

/-- What became of a line. -/
inductive Mark
  | kept
  | removed
  | added
  deriving DecidableEq, Repr

/-- A line and what became of it. -/
structure MarkedLine where
  mark : Mark
  line : String
  deriving DecidableEq, Repr

/-- Lines and what became of each. -/
abbrev Script := List MarkedLine

/-- The lines before the change. -/
def before (s : Script) : List String := (s.filter (·.mark != .added)).map MarkedLine.line

/-- The lines after the change. -/
def after (s : Script) : List String := (s.filter (·.mark != .removed)).map MarkedLine.line

/-- The script that keeps lines. -/
def keep (lines : List String) : Script := lines.map (MarkedLine.mk .kept)

/-- The script that removes lines and adds others. -/
def replace (old new : List String) : Script :=
  old.map (MarkedLine.mk .removed) ++ new.map (MarkedLine.mk .added)

/-! ### Common runs -/

/-- What two lists have in common at their starts. -/
def commonPrefix : List String → List String → List String
  | x :: xs, y :: ys => if x = y then x :: commonPrefix xs ys else []
  | _, _ => []

/-- The common prefix of two lists of lines is a prefix of the first. -/
theorem commonPrefix_left (xs ys : List String) : commonPrefix xs ys <+: xs := by
  fun_induction commonPrefix xs ys with
  | case1 xs x ys ih => exact (List.prefix_cons_inj _).2 ih
  | case2 => exact List.nil_prefix
  | case3 => exact List.nil_prefix

/-- The common prefix of two lists of lines is a prefix of the second. -/
theorem commonPrefix_right (xs ys : List String) : commonPrefix xs ys <+: ys := by
  fun_induction commonPrefix xs ys with
  | case1 xs x ys ih => exact (List.prefix_cons_inj _).2 ih
  | case2 => exact List.nil_prefix
  | case3 => exact List.nil_prefix

/-- How many lines two lists have in common at their ends. -/
def commonSuffixLength (xs ys : List String) : Nat := (commonPrefix xs.reverse ys.reverse).length

/-- A common run: its length and where it starts in either sequence. -/
structure CommonRun where
  length : Nat
  old : Nat
  new : Nat

/-- For each place of a sequence the length of the common run that ends there, given those for the
previous line of the other sequence. -/
def runLengths (isAnchor : String → Bool) (new : List String) (line : String) (lengths : List Nat) :
    List Nat :=
  if isAnchor line then
    List.zipWith (fun other length => if other == line then length + 1 else 0) new (0 :: lengths)
  else new.map fun _ => 0

/-- The longest common run, the first of several. -/
def longestRun (isAnchor : String → Bool) (old new : List String) : CommonRun :=
  (old.zipIdx.foldl (fun (best, lengths) (line, i) =>
    let lengths := runLengths isAnchor new line lengths
    (lengths.zipIdx.foldl (fun best (length, j) =>
      if best.length < length then ⟨length, i + 1 - length, j + 1 - length⟩ else best) best,
      lengths)) ((⟨0, 0, 0⟩ : CommonRun), new.map fun _ => 0)).1

/-- A place in either of two sequences. -/
structure Place where
  old : Nat
  new : Nat

/-- Where the longest common run starts after it has grown. -/
def runStart (isAnchor : String → Bool) (old new : List String) : Place :=
  let run := longestRun isAnchor old new
  let grown := commonSuffixLength (old.take run.old) (new.take run.new)
  ⟨run.old - grown, run.new - grown⟩

/-- The lines that two sequences have in common from a place on. -/
def commonFrom (old new : List String) (p : Place) : List String :=
  commonPrefix (old.drop p.old) (new.drop p.new)

/-! ### The script -/

/-- The script from one sequence of lines to another. -/
def align (isAnchor : String → Bool) (old new : List String) : Script :=
  if commonFrom old new (runStart isAnchor old new) = [] then replace old new
  else
    let p := runStart isAnchor old new
    let common := commonFrom old new p
    align isAnchor (old.take p.old) (new.take p.new) ++ keep common ++
      align isAnchor (old.drop (p.old + common.length)) (new.drop (p.new + common.length))
termination_by old.length
decreasing_by
  all_goals
    have hp := (commonPrefix_left (old.drop (runStart isAnchor old new).old)
      (new.drop (runStart isAnchor old new).new)).length_le
    have hn : 0 < (commonFrom old new (runStart isAnchor old new)).length :=
      List.length_pos_iff.2 (by assumption)
    simp only [List.length_drop, List.length_take, commonFrom] at *
    omega

/-- The lines that occur often in a long sequence. -/
def popular (lines : List String) : List String :=
  if lines.length < 200 then []
  else lines.eraseDups.filter fun line => lines.length / 100 + 1 < lines.count line

/-- The script from one sequence of lines to another. -/
def script (old new : List String) : Script :=
  let common := popular new
  align (fun line => !common.contains line) old new

/-! ### The script leads from the old lines to the new ones -/

/-- The old lines of a script made of two parts are those of the one, then those of the other. -/
@[simp]
theorem before_append (s t : Script) : before (s ++ t) = before s ++ before t := by
  simp [before]

/-- The new lines of a script made of two parts are those of the one, then those of the other. -/
@[simp]
theorem after_append (s t : Script) : after (s ++ t) = after s ++ after t := by
  simp [after]

/-- A script that keeps lines has exactly these on its old side. -/
@[simp]
theorem before_keep (lines : List String) : before (keep lines) = lines := by
  induction lines with
  | nil => rfl
  | cons x xs ih => simp_all [before, keep]

/-- A script that keeps lines has exactly these on its new side. -/
@[simp]
theorem after_keep (lines : List String) : after (keep lines) = lines := by
  induction lines with
  | nil => rfl
  | cons x xs ih => simp_all [after, keep]

/-- A script that replaces lines has the replaced ones on its old side. -/
@[simp]
theorem before_replace (old new : List String) : before (replace old new) = old := by
  have h₁ : before (old.map (MarkedLine.mk .removed)) = old := by
    induction old with
    | nil => rfl
    | cons x xs ih => simp_all [before]
  have h₂ : before (new.map (MarkedLine.mk .added)) = [] := by simp [before]
  rw [replace, before_append, h₁, h₂, List.append_nil]

/-- A script that replaces lines has the replacing ones on its new side. -/
@[simp]
theorem after_replace (old new : List String) : after (replace old new) = new := by
  have h₁ : after (old.map (MarkedLine.mk .removed)) = [] := by simp [after]
  have h₂ : after (new.map (MarkedLine.mk .added)) = new := by
    induction new with
    | nil => rfl
    | cons x xs ih => simp_all [after]
  rw [replace, after_append, h₁, h₂, List.nil_append]

/-- A list is its part before a place, what starts there, and the rest. -/
theorem take_append_common_drop {xs common : List String} {i : Nat} (h : common <+: xs.drop i) :
    xs.take i ++ common ++ xs.drop (i + common.length) = xs := by
  obtain ⟨rest, hr⟩ := h
  have : xs.drop (i + common.length) = rest := by
    rw [← List.drop_drop, ← hr, List.drop_left]
  rw [this, List.append_assoc, hr, List.take_append_drop]

/-- Whichever lines are chosen as anchors, an alignment reads as the old lines on its old side. -/
theorem before_align (isAnchor : String → Bool) (old new : List String) :
    before (align isAnchor old new) = old := by
  induction old, new using align.induct isAnchor with
  | case1 old new h => rw [align, if_pos h, before_replace]
  | case2 old new h _ _ ih₁ ih₂ =>
    rw [align, if_neg h]
    simp only [before_append, before_keep]
    exact (congr (congrArg (fun l r => l ++ commonFrom old new _ ++ r) ih₁) ih₂).trans
      (take_append_common_drop (commonPrefix_left _ _))

/-- Whichever lines are chosen as anchors, an alignment reads as the new lines on its new side. -/
theorem after_align (isAnchor : String → Bool) (old new : List String) :
    after (align isAnchor old new) = new := by
  induction old, new using align.induct isAnchor with
  | case1 old new h => rw [align, if_pos h, after_replace]
  | case2 old new h _ _ ih₁ ih₂ =>
    rw [align, if_neg h]
    simp only [after_append, after_keep]
    exact (congr (congrArg (fun l r => l ++ commonFrom old new _ ++ r) ih₁) ih₂).trans
      (take_append_common_drop (commonPrefix_right _ _))

end BnfSuppression.Diff
