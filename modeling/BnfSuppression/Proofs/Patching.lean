import BnfSuppression.Diff.Patch
import Mathlib.Data.List.SplitBy

/-!
# Applying Patches

A patch can be read: the ranges of a hunk say where it starts and how many lines it covers in either
text, and the sign of a line says what became of it. Applying the hunks to the old lines, and asking
at every step that these are the lines that the hunk names, gives the new lines.

## Main definitions

* `Diff.Covers`: hunks show all changes of a script, each in its place.
* `Diff.readPatch?`, `Diff.applyHunks?`, `Diff.applyPatch?`: reading and applying patches.

## Main results

* `Diff.covers_hunks`: **the hunks of a script show all its changes**.
* `Diff.readPatch?_patch`: **a patch is read as the hunks that it was written for**.
* `Diff.applyPatch?_patch`: **applying the patch between two texts to the one gives the other**.
-/

namespace BnfSuppression.Diff

variable {l : MarkedLine} {s t : Script} {hs : List Hunk} {m n : Nat}

/-! ### Scripts -/

/-- How many lines of the old text a line of a script stands for. -/
def MarkedLine.oldCount (l : MarkedLine) : Nat := if l.mark = .added then 0 else 1

/-- How many lines of the new text a line of a script stands for. -/
def MarkedLine.newCount (l : MarkedLine) : Nat := if l.mark = .removed then 0 else 1

/-- On the old side of a script a line counts unless it was added. -/
theorem before_cons (l : MarkedLine) (s : Script) :
    before (l :: s) = (if l.mark = .added then [] else [l.line]) ++ before s := by
  obtain ⟨mark, line⟩ := l
  cases mark <;> rfl

/-- On the new side of a script a line counts unless it was removed. -/
theorem after_cons (l : MarkedLine) (s : Script) :
    after (l :: s) = (if l.mark = .removed then [] else [l.line]) ++ after s := by
  obtain ⟨mark, line⟩ := l
  cases mark <;> rfl

/-- A line makes the old side longer by what it stands for there. -/
theorem length_before_cons (l : MarkedLine) (s : Script) :
    (before (l :: s)).length = l.oldCount + (before s).length := by
  rw [before_cons, MarkedLine.oldCount]
  split <;> simp [Nat.add_comm]

/-- A line makes the new side longer by what it stands for there. -/
theorem length_after_cons (l : MarkedLine) (s : Script) :
    (after (l :: s)).length = l.newCount + (after s).length := by
  rw [after_cons, MarkedLine.newCount]
  split <;> simp [Nat.add_comm]

/-! ### Hunks show all changes -/

/-- Hunks show all changes of a script, each in its place, where so many lines of either text come
before the script. What they do not show is kept. -/
inductive Covers : Nat → Nat → Script → List Hunk → Prop
  | nil {m n : Nat} : Covers m n [] []
  | kept {m n : Nat} {l : MarkedLine} {s : Script} {hs : List Hunk} :
    l.mark = .kept → Covers (m + 1) (n + 1) s hs → Covers m n (l :: s) hs
  | hunk {m n : Nat} {t s : Script} {hs : List Hunk} :
    Covers (m + (before t).length) (n + (after t).length) s hs →
      Covers m n (t ++ s) (⟨m, n, t⟩ :: hs)

/-- Lines that were all kept may stand in front of what hunks cover, without being shown. -/
theorem Covers.kept_append (ht : ∀ l ∈ t, l.mark = .kept)
    (h : Covers (m + t.length) (n + t.length) s hs) : Covers m n (t ++ s) hs := by
  induction t generalizing m n with
  | nil => exact h
  | cons l t ih =>
      refine .kept (ht l (by simp)) (ih (fun l hl => ht l (by simp [hl])) ?_)
      simpa only [List.length_cons, Nat.add_assoc, Nat.add_comm 1] using h

/-- Lines of a script are in their places, and those that are not shown are kept. -/
def InPlace (m n : Nat) : List PlacedLine → Prop
  | [] => True
  | p :: ps => p.old = m ∧ p.new = n ∧ (p.shown = false → p.line.mark = .kept) ∧
    InPlace (m + p.line.oldCount) (n + p.line.newCount) ps

/-- Placed lines are in their places if the first part is, and the second part is after what the
first stands for. -/
theorem inPlace_append {ps qs : List PlacedLine} : InPlace m n (ps ++ qs) ↔
    InPlace m n ps ∧ InPlace (m + (before (ps.map PlacedLine.line)).length)
      (n + (after (ps.map PlacedLine.line)).length) qs := by
  induction ps generalizing m n with
  | nil => simp [InPlace, before, after]
  | cons p ps ih =>
      simp only [List.cons_append, InPlace, ih, List.map_cons, length_before_cons,
        length_after_cons, Nat.add_assoc, and_assoc]

/-- The lines of a script are given the places that they have. -/
theorem inPlace_placed (m n k : Nat) (s : Script) : InPlace m n (placed m n k s) := by
  induction s generalizing m n k with
  | nil => trivial
  | cons l s ih =>
      obtain ⟨mark, line⟩ := l
      cases mark <;>
        simp [placed, InPlace, MarkedLine.changed, MarkedLine.oldCount, MarkedLine.newCount, ih]

/-- Giving lines their places leaves the script as it is. -/
theorem map_line_placed (m n k : Nat) (s : Script) :
    (placed m n k s).map PlacedLine.line = s := by
  induction s generalizing m n k with
  | nil => rfl
  | cons l s ih =>
      rw [placed]
      split <;> simp [ih]

/-- A line in its place that is not shown was kept. -/
theorem InPlace.kept {ps : List PlacedLine} (h : InPlace m n ps) :
    ∀ p ∈ ps, p.shown = false → p.line.mark = .kept := by
  induction ps generalizing m n with
  | nil => simp
  | cons p ps ih =>
      obtain ⟨-, -, hp, hps⟩ := h
      exact List.forall_mem_cons.2 ⟨hp, ih hps⟩

/-- Lines of a group are shown alike. -/
theorem shown_eq_of_isChain {p : PlacedLine} {ps : List PlacedLine}
    (h : (p :: ps).IsChain fun p q => p.shown == q.shown) : ∀ q ∈ p :: ps, q.shown = p.shown := by
  induction ps generalizing p with
  | nil => simp
  | cons q ps ih =>
      obtain ⟨hpq, hps⟩ := List.isChain_cons_cons.1 h
      refine List.forall_mem_cons.2 ⟨rfl, fun r hr => ?_⟩
      rw [ih hps r hr, beq_iff_eq.1 hpq]

/-- Kept lines are in both texts. -/
theorem length_of_kept (h : ∀ l ∈ s, l.mark = .kept) :
    (before s).length = s.length ∧ (after s).length = s.length := by
  induction s with
  | nil => exact ⟨rfl, rfl⟩
  | cons l s ih =>
      obtain ⟨hold, hnew⟩ := ih fun l hl => h l (by simp [hl])
      have hl := h l (by simp)
      rw [length_before_cons, length_after_cons, MarkedLine.oldCount, MarkedLine.newCount, hl, hold,
        hnew]
      exact ⟨Nat.add_comm .., Nat.add_comm ..⟩

/-- Lines that are in their places are covered by the hunks of groups of them that are shown
alike. -/
theorem covers_groups {groups : List (List PlacedLine)} (hplace : InPlace m n groups.flatten)
    (hgroups : ∀ ps ∈ groups, ps ≠ [] ∧ ps.IsChain fun p q => p.shown == q.shown) :
    Covers m n (groups.flatten.map PlacedLine.line) (groups.filterMap Hunk.ofLines?) := by
  induction groups generalizing m n with
  | nil => exact .nil
  | cons ps groups ih =>
      obtain ⟨hne, hchain⟩ := hgroups ps (by simp)
      rw [List.flatten_cons, inPlace_append] at hplace
      obtain ⟨hps, hrest⟩ := hplace
      have hcovers := ih hrest fun qs hqs => hgroups qs (by simp [hqs])
      rw [List.flatten_cons, List.map_append]
      obtain ⟨p, ps, rfl⟩ := List.exists_cons_of_ne_nil hne
      cases hshown : p.shown with
      | true =>
          obtain ⟨rfl, rfl, -, -⟩ := hps
          have hhunk : Hunk.ofLines? (p :: ps) =
              some ⟨p.old, p.new, (p :: ps).map PlacedLine.line⟩ := by
            rw [Hunk.ofLines?, if_pos hshown]
          rw [List.filterMap_cons_some hhunk]
          exact .hunk hcovers
      | false =>
          have hkept : ∀ l ∈ (p :: ps).map PlacedLine.line, l.mark = .kept := fun l hl => by
            obtain ⟨q, hq, rfl⟩ := List.mem_map.1 hl
            exact hps.kept q hq ((shown_eq_of_isChain hchain q hq).trans hshown)
          have hnone : Hunk.ofLines? (p :: ps) = none := by
            rw [Hunk.ofLines?, if_neg (by simp [hshown])]
          obtain ⟨hold, hnew⟩ := length_of_kept hkept
          rw [List.filterMap_cons_none hnone]
          rw [hold, hnew] at hcovers
          exact .kept_append hkept hcovers

/-- **The hunks of a script show all its changes.** -/
theorem covers_hunks (s : Script) : Covers 0 0 s (hunks s) := by
  have hplace := inPlace_placed 0 0 contextSize s
  rw [← List.flatten_splitBy (fun p q => p.shown == q.shown) (placed 0 0 contextSize s)] at hplace
  have hcovers := covers_groups hplace fun ps hps =>
    ⟨List.ne_nil_of_mem_splitBy hps, List.isChain_of_mem_splitBy hps⟩
  rwa [List.flatten_splitBy, map_line_placed] at hcovers

/-! ### Applying hunks -/

/-- The old lines with hunks applied to them, where so many lines of either text come before: each
hunk is to start in its place, and the lines that it kept or removed are to be there. -/
def applyHunks? (m n : Nat) : List Hunk → List String → Option (List String)
  | [], lines => some lines
  | h :: hs, lines =>
    let gap := h.old - m
    if m ≤ h.old ∧ gap ≤ lines.length ∧ h.new = n + gap ∧
        (before h.script).isPrefixOf (lines.drop gap) then
      (applyHunks? (h.old + (before h.script).length) (h.new + (after h.script).length) hs
        (lines.drop (gap + (before h.script).length))).map
          fun rest => lines.take gap ++ after h.script ++ rest
    else none

/-- A line before the first hunk stays. -/
theorem applyHunks?_cons {line : String} {old new : List String}
    (h : applyHunks? (m + 1) (n + 1) hs old = some new) :
    applyHunks? m n hs (line :: old) = some (line :: new) := by
  cases hs with
  | nil => simpa [applyHunks?] using h
  | cons k hs =>
      simp only [applyHunks?] at h ⊢
      split at h
      · next hk =>
          obtain ⟨hm, hgap, hn, hfits⟩ := hk
          obtain ⟨rest, hrest, rfl⟩ := Option.map_eq_some_iff.1 h
          have hnext : k.old - m = k.old - (m + 1) + 1 := by omega
          simp only [hnext, Nat.succ_add, List.drop_succ_cons, List.take_succ_cons]
          rw [if_pos ⟨by omega, by simpa using hgap, by omega, hfits⟩, hrest]
          rfl
      · simp at h

/-- **Applying hunks that show all changes of a script** to the old lines gives the new ones. -/
theorem Covers.applyHunks? (h : Covers m n s hs) :
    applyHunks? m n hs (before s) = some (after s) := by
  induction h with
  | nil => rfl
  | @kept m n l s hs hl _ ih =>
      rw [before_cons, after_cons, hl]
      exact applyHunks?_cons ih
  | @hunk m n t s hs _ ih =>
      rw [before_append, after_append, Diff.applyHunks?]
      simp [ih]

/-! ### Reading patches -/

/-- The number that decimal digits denote. -/
def readNumber? (cs : List Char) : Option Nat :=
  if cs ≠ [] ∧ cs.all Char.isDigit = true then some (Nat.ofDigitChars 10 cs 0) else none

/-- How many lines come before a range, and how many are in it. -/
def readRange? (cs : List Char) : Option (Nat × Nat) := do
  let first ← readNumber? (cs.takeWhile (· != ','))
  match cs.dropWhile (· != ',') with
  | [] => return (first - 1, 1)
  | _ :: digits =>
    let length ← readNumber? digits
    return (if length = 0 then first else first - 1, length)

/-- The ranges of a hunk in either text, from the line that it starts with. -/
def readRanges? (line : String) : Option ((Nat × Nat) × (Nat × Nat)) :=
  match line.toList with
  | '@' :: '@' :: ' ' :: '-' :: cs =>
    match cs.dropWhile (· != ' ') with
    | ' ' :: '+' :: ds =>
      if ds.dropWhile (· != ' ') = [' ', '@', '@', '\n'] then do
        return (← readRange? (cs.takeWhile (· != ' ')), ← readRange? (ds.takeWhile (· != ' ')))
      else none
    | _ => none
  | _ => none

/-- A line of a hunk with what its sign says. -/
def readLine? (line : String) : Option MarkedLine :=
  match line.toList with
  | ' ' :: cs => some ⟨.kept, String.ofList cs⟩
  | '-' :: cs => some ⟨.removed, String.ofList cs⟩
  | '+' :: cs => some ⟨.added, String.ofList cs⟩
  | _ => none

/-- The hunks of a patch, and the lines before the first of them. The ranges of a hunk are to fit
its lines. -/
def readHunks? : List String → Option (Script × List Hunk)
  | [] => some ([], [])
  | line :: rest => do
    let (script, hunks) ← readHunks? rest
    match readRanges? line with
    | some (old, new) =>
      if (before script).length = old.2 ∧ (after script).length = new.2 then
        return ([], ⟨old.1, new.1, script⟩ :: hunks)
      else none
    | none => return ((← readLine? line) :: script, hunks)

/-- The hunks of a patch. It is empty or starts with a line for either text. -/
def readPatch? : List String → Option (List Hunk)
  | [] => some []
  | old :: new :: rest =>
    if "--- ".toList.isPrefixOf old.toList ∧ "+++ ".toList.isPrefixOf new.toList then
      match readHunks? rest with
      | some ([], hunks) => some hunks
      | _ => none
    else none
  | [_] => none

/-- A text with the hunks of a patch applied to its lines. -/
def applyPatch? (patch : List String) (text : String) : Option String := do
  return String.join (← applyHunks? 0 0 (← readPatch? patch) (linesOf text))

/-! ### Ranges -/

/-- The characters of a number are digits. -/
theorem isDigit_of_mem_toDigits {c : Char} (h : c ∈ Nat.toDigits 10 n) : c.isDigit = true :=
  Nat.isDigit_of_mem_toDigits (by decide) (by decide) h

/-- A number that was written in decimal digits is read back. -/
theorem readNumber?_toDigits (n : Nat) : readNumber? (Nat.toDigits 10 n) = some n := by
  have hdigits : (Nat.toDigits 10 n).all Char.isDigit = true :=
    List.all_eq_true.2 fun c => isDigit_of_mem_toDigits
  rw [readNumber?, if_pos ⟨Nat.toDigits_ne_nil, hdigits⟩,
    Nat.ofDigitChars_toDigits (by decide) (by decide)]

/-- A range names its first line, and the line before it if it is empty; then it says how many lines
it has, unless it has one. -/
theorem toList_range (m n : Nat) : (range m n).toList =
    Nat.toDigits 10 (if n = 0 then m else m + 1) ++
      if n = 1 then [] else ',' :: Nat.toDigits 10 n := by
  rw [range]
  by_cases h1 : n = 1
  · simp [h1]
  · by_cases h0 : n = 0
    · simp [h0]
    · simp [h0, h1]

/-- A range is made of digits and a comma. -/
theorem of_mem_range {c : Char} (h : c ∈ (range m n).toList) : c.isDigit = true ∨ c = ',' := by
  rw [toList_range, List.mem_append] at h
  rcases h with h | h
  · exact .inl (isDigit_of_mem_toDigits h)
  · split at h
    · simp at h
    · exact (List.mem_cons.1 h).symm.imp_left isDigit_of_mem_toDigits

/-- **A range is read as the lines that it was written for.** -/
theorem readRange?_range (m n : Nat) : readRange? (range m n).toList = some (m, n) := by
  have hdigits (k : Nat) : ∀ c ∈ Nat.toDigits 10 k, (c != ',') = true := fun c hc => by
    rw [bne_iff_ne]
    rintro rfl
    exact absurd (isDigit_of_mem_toDigits hc) (by decide)
  rw [toList_range, readRange?, List.takeWhile_append_of_pos (hdigits _),
    List.dropWhile_append_of_pos (hdigits _)]
  by_cases h1 : n = 1
  · simp [h1, readNumber?_toDigits]
  · by_cases h0 : n = 0
    · have hzero : readNumber? ['0'] = some 0 := readNumber?_toDigits 0
      simp [h0, readNumber?_toDigits, hzero]
    · simp [h0, h1, readNumber?_toDigits]

/-! ### Reading back -/

/-- The ranges of a hunk are read back. -/
theorem readRanges?_header (m m' n n' : Nat) :
    readRanges? ("@@ -" ++ range m m' ++ " +" ++ range n n' ++ " @@\n") =
      some ((m, m'), (n, n')) := by
  have hrange (m n : Nat) : ∀ c ∈ (range m n).toList, (c != ' ') = true := fun c hc => by
    rw [bne_iff_ne]
    rintro rfl
    rcases of_mem_range hc with hd | hd
    · exact absurd hd (by decide)
    · exact absurd hd (by decide)
  have hline : ("@@ -" ++ range m m' ++ " +" ++ range n n' ++ " @@\n").toList =
      '@' :: '@' :: ' ' :: '-' :: ((range m m').toList ++
        ' ' :: '+' :: ((range n n').toList ++ [' ', '@', '@', '\n'])) := by
    simp
  simp [readRanges?, hline, List.dropWhile_append_of_pos (hrange m m'),
    List.takeWhile_append_of_pos (hrange m m'), List.dropWhile_append_of_pos (hrange n n'),
    List.takeWhile_append_of_pos (hrange n n'), readRange?_range]

/-- A line that was written with its sign is read back, with what the sign says. -/
theorem readLine?_sign (l : MarkedLine) : readLine? (l.mark.sign ++ l.line) = some l := by
  obtain ⟨mark, line⟩ := l
  cases mark <;> simp [readLine?, Mark.sign]

/-- A line with a sign starts no hunk. -/
theorem readRanges?_sign (l : MarkedLine) : readRanges? (l.mark.sign ++ l.line) = none := by
  obtain ⟨mark, line⟩ := l
  cases mark <;> simp [readRanges?, Mark.sign]

/-- The lines of a hunk are read in front of what follows it. -/
theorem readHunks?_lines (s : Script) {rest : List String} {hs : List Hunk} {t : Script}
    (h : readHunks? rest = some (t, hs)) :
    readHunks? ((s.map fun l => l.mark.sign ++ l.line) ++ rest) = some (s ++ t, hs) := by
  induction s with
  | nil => exact h
  | cons l s ih =>
      rw [List.map_cons, List.cons_append, readHunks?, ih]
      simp [readRanges?_sign, readLine?_sign]

/-- Hunks are read back. -/
theorem readHunks?_render (hs : List Hunk) :
    readHunks? (hs.flatMap Hunk.render) = some ([], hs) := by
  induction hs with
  | nil => rfl
  | cons h hs ih =>
      rw [List.flatMap_cons, Hunk.render, List.cons_append, readHunks?, readHunks?_lines _ ih]
      simp [readRanges?_header]

/-- **A patch is read as the hunks that it was written for**, whatever name it gives the texts. -/
theorem readPatch?_patch (before after name : String) : readPatch? (patch before after name) =
    some (hunks (script (linesOf before) (linesOf after))) := by
  rw [patch]
  cases hunks (script (linesOf before) (linesOf after)) with
  | nil => rfl
  | cons h hs =>
      simp only [readPatch?, readHunks?_render]
      rw [if_pos (by simp [List.isPrefixOf])]

/-- The lines of a text, one after the other, are the text. -/
theorem join_linesOf (text : String) : String.join (linesOf text) = text := by
  rw [← String.toList_inj, String.toList_join, linesOf, List.flatMap_map]
  simpa [List.flatMap_id] using Text.lines_flatten text.toList

/-- **Applying the patch between two texts to the one gives the other.** -/
theorem applyPatch?_patch (before after name : String) :
    applyPatch? (patch before after name) before = some after := by
  have happly := (covers_hunks (script (linesOf before) (linesOf after))).applyHunks?
  rw [script, before_align, after_align, ← script] at happly
  rw [applyPatch?, readPatch?_patch]
  simp [happly, join_linesOf]

end BnfSuppression.Diff
