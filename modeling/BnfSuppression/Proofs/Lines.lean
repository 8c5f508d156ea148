import BnfSuppression.Text.Lines
import Mathlib.Data.List.Basic

/-!
# Texts Made of Lines

A line is a text that is split into one: characters that break no line, and at most one line break
behind them. Lines that are put one after the other are split into the same lines again if each but
the last is complete, that is, ends with its line break; otherwise there are fewer.

## Main definitions

* `Text.Unbroken`, `Text.IsBreak`: texts within a line, and line breaks.
* `Text.IsLine`, `Text.IsComplete`: lines, and those that end with their line break.

## Main results

* `Text.splitLines_cons_line`: **a complete line is split off**.
* `Text.splitLines_flatten`: complete lines are split as each of them is.
* `Text.length_splitLines_flatten_eq_iff`: lines that are put one after the other are as many as they
  were exactly if they are complete.
-/

namespace BnfSuppression.Text

variable {c : Char} {cs body ending rest : List Char} {xs : List (List Char)}

/-! ### Line breaks -/

/-- A text that holds no line break. -/
def Unbroken (cs : List Char) : Prop := ∀ c ∈ cs, isLineBreak c = false

instance : Decidable (Unbroken cs) := List.decidableBAll (fun c => isLineBreak c = false) cs

/-- A line break: a character that ends a line, or a carriage return with a line feed. -/
inductive IsBreak : List Char → Prop
  | pair : IsBreak ['\r', '\n']
  | single {c : Char} : isLineBreak c = true → IsBreak [c]

/-- A line break has at least one character. -/
theorem IsBreak.ne_nil (h : IsBreak ending) : ending ≠ [] := by
  cases h <;> simp

/-- A line break is made of characters that end lines. -/
theorem IsBreak.isLineBreak (h : IsBreak ending) : ∀ c ∈ ending, isLineBreak c = true := by
  cases h with
  | pair =>
      have hr : isLineBreak '\r' = true := by decide
      have hn : isLineBreak '\n' = true := by decide
      simp [hr, hn]
  | single h => simpa using h

/-- Digits break no line. -/
theorem isLineBreak_of_isDigit (h : c.isDigit = true) : isLineBreak c = false := by
  have hcode : 48 ≤ c.toNat ∧ c.toNat ≤ 57 := by
    simpa [Char.isDigit, UInt32.le_iff_toNat_le] using h
  rw [isLineBreak]
  grind

/-- The empty text holds no line break. -/
theorem unbroken_nil : Unbroken [] := fun c hc => by simp at hc

/-- A text holds no line break if neither its first character nor the rest is or holds one. -/
theorem unbroken_cons : Unbroken (c :: cs) ↔ isLineBreak c = false ∧ Unbroken cs := by
  simp [Unbroken]

/-- Two texts together hold no line break if neither of them does. -/
theorem unbroken_append : Unbroken (body ++ cs) ↔ Unbroken body ∧ Unbroken cs := by
  simp [Unbroken, or_imp, forall_and]

/-! ### Splitting -/

/-- Only the empty text has no lines. -/
theorem splitLines_eq_nil_iff : splitLines cs = [] ↔ cs = [] := by
  fun_cases splitLines cs <;> simp_all

/-- A character that ends no line belongs to the line that follows it. -/
theorem splitLines_cons_of_unbroken (hc : isLineBreak c = false) :
    splitLines (c :: cs) = match splitLines cs with
      | [] => [([c], [])]
      | (line, ending) :: rest => (c :: line, ending) :: rest := by
  have hreturn : c ≠ '\r' := by
    rintro rfl
    exact absurd hc (by decide)
  refine ((splitLines.eq_3 _ _ fun _ h => absurd h hreturn).trans (if_neg (by simp [hc]))).trans ?_
  cases splitLines cs <;> rfl

/-- A text that holds no line break is one line. -/
theorem splitLines_of_unbroken (hne : body ≠ []) (hb : Unbroken body) :
    splitLines body = [(body, [])] := by
  induction body with
  | nil => exact absurd rfl hne
  | cons c cs ih =>
      obtain ⟨hc, hcs⟩ := unbroken_cons.1 hb
      rw [splitLines_cons_of_unbroken hc]
      cases cs with
      | nil => rfl
      | cons d cs => rw [ih (by simp) hcs]

/-- A text that holds no line break belongs to the line that follows it. -/
theorem splitLines_unbroken_append (hb : Unbroken body) {line : List Char}
    {ls : List (List Char × List Char)} (hr : splitLines rest = (line, ending) :: ls) :
    splitLines (body ++ rest) = (body ++ line, ending) :: ls := by
  induction body with
  | nil => exact hr
  | cons c cs ih =>
      obtain ⟨hc, hcs⟩ := unbroken_cons.1 hb
      rw [List.cons_append, splitLines_cons_of_unbroken hc, ih hcs]
      rfl

/-- A line break ends an empty line, unless it is the first half of one. -/
theorem splitLines_break_append (he : IsBreak ending)
    (hr : ending = ['\r'] → rest.head? ≠ some '\n') :
    splitLines (ending ++ rest) = ([], ending) :: splitLines rest := by
  cases he with
  | pair => rfl
  | @single c hc =>
      rw [List.singleton_append, splitLines.eq_3, if_pos hc]
      rintro cs rfl rfl
      exact hr rfl rfl

/-- **A complete line is split off.** -/
theorem splitLines_cons_line (hb : Unbroken body) (he : IsBreak ending)
    (hr : ending = ['\r'] → rest.head? ≠ some '\n') :
    splitLines (body ++ ending ++ rest) = (body, ending) :: splitLines rest := by
  rw [List.append_assoc, splitLines_unbroken_append hb (splitLines_break_append he hr),
    List.append_nil]

/-- What a text is split into: texts without line breaks, each with its line break; the last one may
have none, and then is not empty. -/
theorem of_mem_splitLines (h : (body, ending) ∈ splitLines cs) :
    Unbroken body ∧ (IsBreak ending ∨ ending = [] ∧ body ≠ []) := by
  fun_induction splitLines cs generalizing body ending with
  | case1 => simp at h
  | case2 cs ih =>
      rcases List.mem_cons.1 h with h | h
      · cases h
        exact ⟨unbroken_nil, .inl .pair⟩
      · exact ih h
  | case3 c cs _ hc ih =>
      rcases List.mem_cons.1 h with h | h
      · cases h
        exact ⟨unbroken_nil, .inl (.single hc)⟩
      · exact ih h
  | case4 c cs _ hc hnil ih =>
      obtain ⟨rfl, rfl⟩ := by simpa using h
      exact ⟨unbroken_cons.2 ⟨by simpa using hc, unbroken_nil⟩, .inr ⟨rfl, by simp⟩⟩
  | case5 c cs _ hc line ending' ls hls ih =>
      rcases List.mem_cons.1 h with h | h
      · cases h
        obtain ⟨hline, hend⟩ := ih (by rw [hls]; exact List.mem_cons_self)
        exact ⟨unbroken_cons.2 ⟨by simpa using hc, hline⟩, hend.imp_right fun h => ⟨h.1, by simp⟩⟩
      · exact ih (by rw [hls]; exact List.mem_cons_of_mem _ h)

/-- What is in a list before its last member is the head, or in the tail before the last member. -/
theorem mem_dropLast_cons {α : Type} {x a : α} {as : List α} (h : x ∈ (a :: as).dropLast) :
    x = a ∨ x ∈ as.dropLast := by
  cases as with
  | nil => simp at h
  | cons b as => simpa using h

/-- All lines of a text but the last end with a line break. -/
theorem isBreak_of_mem_dropLast_splitLines (h : (body, ending) ∈ (splitLines cs).dropLast) :
    IsBreak ending := by
  fun_induction splitLines cs generalizing body ending with
  | case1 => simp at h
  | case2 cs ih =>
      rcases mem_dropLast_cons h with h | h
      · cases h
        exact .pair
      · exact ih h
  | case3 c cs _ hc ih =>
      rcases mem_dropLast_cons h with h | h
      · cases h
        exact .single hc
      · exact ih h
  | case4 => simp at h
  | case5 c cs _ hc line ending' ls hls ih =>
      rw [hls] at ih
      cases ls with
      | nil => simp at h
      | cons l ls =>
          rcases mem_dropLast_cons h with h | h
          · cases h
            exact @ih line ending' (by simp)
          · exact ih (by simpa using .inr h)

/-! ### Lines -/

/-- The text is one line, with its line break or without. -/
def IsLine (cs : List Char) : Prop := ∃ body ending, splitLines cs = [(body, ending)]

/-- The text is one line with its line break. -/
def IsComplete (cs : List Char) : Prop :=
  ∃ body ending, Unbroken body ∧ IsBreak ending ∧ cs = body ++ ending

/-- A line with its line break is split into its body and this line break. -/
theorem IsComplete.splitLines_eq (hb : Unbroken body) (he : IsBreak ending) :
    splitLines (body ++ ending) = [(body, ending)] := by
  simpa [splitLines] using @splitLines_cons_line _ _ [] hb he (by simp)

/-- A line with its line break is a line. -/
theorem IsComplete.isLine (h : IsComplete cs) : IsLine cs := by
  obtain ⟨body, ending, hb, he, rfl⟩ := h
  exact ⟨body, ending, splitLines_eq hb he⟩

/-- A line is complete, or it holds no line break. -/
theorem isLine_iff : IsLine cs ↔ IsComplete cs ∨ Unbroken cs ∧ cs ≠ [] := by
  constructor
  · rintro ⟨body, ending, h⟩
    have hcs := lines_flatten cs
    rw [lines, h] at hcs
    obtain rfl : body ++ ending = cs := by simpa using hcs
    obtain ⟨hb, he | ⟨rfl, hne⟩⟩ := of_mem_splitLines (h ▸ List.mem_singleton_self _)
    · exact .inl ⟨body, ending, hb, he, rfl⟩
    · exact .inr (by simpa using ⟨hb, hne⟩)
  · rintro (h | ⟨hb, hne⟩)
    · exact h.isLine
    · exact ⟨cs, [], splitLines_of_unbroken hne hb⟩

/-- A line is complete if it holds a line break. -/
theorem IsLine.isComplete_iff (h : IsLine cs) : IsComplete cs ↔ ¬ Unbroken cs := by
  constructor
  · rintro ⟨body, ending, -, he, rfl⟩ hu
    obtain ⟨c, hc⟩ := List.exists_mem_of_ne_nil _ he.ne_nil
    exact absurd (he.isLineBreak c hc) (by simp [hu c (List.mem_append_right _ hc)])
  · exact fun hu => (isLine_iff.1 h).resolve_right fun hb => hu hb.1

/-- A line is the only line of itself. -/
theorem IsLine.lines_eq (h : IsLine cs) : lines cs = [cs] := by
  obtain ⟨body, ending, hs⟩ := h
  have hcs := lines_flatten cs
  rw [lines, hs] at hcs ⊢
  simpa using hcs

/-- The lines of a text are lines. -/
theorem isLine_of_mem_lines (h : body ∈ lines cs) : IsLine body := by
  obtain ⟨⟨b, e⟩, hmem, rfl⟩ := List.mem_map.1 h
  rw [isLine_iff]
  obtain ⟨hb, he | ⟨rfl, hne⟩⟩ := of_mem_splitLines hmem
  · exact .inl ⟨b, e, hb, he, rfl⟩
  · exact .inr (by simpa using ⟨hb, hne⟩)

/-- All lines of a text but the last are complete. -/
theorem isComplete_of_mem_dropLast_lines (h : body ∈ (lines cs).dropLast) : IsComplete body := by
  rw [lines, ← List.map_dropLast] at h
  obtain ⟨⟨b, e⟩, hmem, rfl⟩ := List.mem_map.1 h
  exact ⟨b, e, (of_mem_splitLines (List.dropLast_subset _ hmem)).1,
    isBreak_of_mem_dropLast_splitLines hmem, rfl⟩

/-- A line goes on in front. -/
theorem IsLine.cons (h : IsLine cs) (hc : isLineBreak c = false) : IsLine (c :: cs) := by
  obtain ⟨body, ending, hs⟩ := h
  exact ⟨c :: body, ending, by rw [splitLines_cons_of_unbroken hc, hs]⟩

/-- A character that ends no line, put in front of a text, makes no difference to whether it is a
complete line. -/
theorem isComplete_cons_iff (hc : isLineBreak c = false) :
    IsComplete (c :: cs) ↔ IsComplete cs := by
  constructor
  · rintro ⟨body, ending, hb, he, h⟩
    cases body with
    | nil =>
        rw [List.nil_append] at h
        exact absurd (he.isLineBreak c (h ▸ List.mem_cons_self)) (by simp [hc])
    | cons d body =>
        obtain ⟨rfl, rfl⟩ := by simpa using h
        exact ⟨body, ending, (unbroken_cons.1 hb).2, he, rfl⟩
  · rintro ⟨body, ending, hb, he, rfl⟩
    exact ⟨c :: body, ending, unbroken_cons.2 ⟨hc, hb⟩, he, rfl⟩

/-! ### Lines one after the other -/

/-- The texts are lines, none of which could be taken for the second half of a line break. -/
def Joinable (xs : List (List Char)) : Prop := ∀ x ∈ xs, IsLine x ∧ x.head? ≠ some '\n'

/-- Lines that can be put together can be so without the first of them. -/
theorem Joinable.tail {x : List Char} (h : Joinable (x :: xs)) : Joinable xs := fun y hy =>
  h y (List.mem_cons_of_mem _ hy)

/-- Lines that can be put together do not start with a line feed. -/
theorem Joinable.head?_flatten (h : Joinable xs) : xs.flatten.head? ≠ some '\n' := by
  cases xs with
  | nil => simp
  | cons x xs =>
      obtain ⟨⟨body, ending, hs⟩, hx⟩ := h x List.mem_cons_self
      cases x with
      | nil => simp [splitLines] at hs
      | cons c cs => simpa using hx

/-- A complete line in front of lines is split off. -/
theorem Joinable.splitLines_cons {x : List Char} (h : Joinable (x :: xs)) (hx : IsComplete x) :
    splitLines (x :: xs).flatten = splitLines x ++ splitLines xs.flatten := by
  obtain ⟨body, ending, hb, he, rfl⟩ := hx
  rw [List.flatten_cons, splitLines_cons_line hb he fun _ => h.tail.head?_flatten,
    IsComplete.splitLines_eq hb he, List.singleton_append]

/-- **Complete lines are split as each of them is**; the last one may lack its line break. -/
theorem splitLines_flatten (h : Joinable xs) (hc : ∀ x ∈ xs.dropLast, IsComplete x) :
    splitLines xs.flatten = xs.flatMap splitLines := by
  induction xs with
  | nil => rfl
  | cons x xs ih =>
      cases xs with
      | nil => simp
      | cons y ys =>
          rw [h.splitLines_cons (hc x (by simp)), List.flatMap_cons,
            ih h.tail fun z hz => hc z (by simpa using .inr hz)]

/-- **Lines one after the other are the lines of the whole**, if all but the last are complete. -/
theorem lines_flatten_of_complete (h : Joinable xs) (hc : ∀ x ∈ xs.dropLast, IsComplete x) :
    lines xs.flatten = xs := by
  have hone : ∀ x ∈ xs, (splitLines x).map (fun l => l.1 ++ l.2) = [x] := fun x hx =>
    (h x hx).1.lines_eq
  rw [lines, splitLines_flatten h hc, List.map_flatMap, List.flatMap_congr hone]
  simp

/-- A line that is not complete runs into the next. -/
theorem Joinable.length_splitLines_cons {x : List Char} (h : Joinable (x :: xs)) (hxs : xs ≠ [])
    (hx : ¬ IsComplete x) :
    (splitLines (x :: xs).flatten).length = (splitLines xs.flatten).length := by
  obtain ⟨hx, -⟩ := (isLine_iff.1 (h x List.mem_cons_self).1).resolve_left hx
  cases hs : splitLines xs.flatten with
  | nil =>
      obtain ⟨y, hy⟩ := List.exists_mem_of_ne_nil _ hxs
      obtain ⟨body, ending, hline⟩ := (h y (List.mem_cons_of_mem _ hy)).1
      rw [splitLines_eq_nil_iff, List.flatten_eq_nil_iff] at hs
      simp [hs y hy, splitLines] at hline
  | cons l ls => rw [List.flatten_cons, splitLines_unbroken_append hx hs]; rfl

/-- Lines one after the other are no more than they were. -/
theorem length_splitLines_flatten_le (h : Joinable xs) :
    (splitLines xs.flatten).length ≤ xs.length := by
  induction xs with
  | nil => simp [splitLines]
  | cons x xs ih =>
      have ih := ih h.tail
      by_cases hx : IsComplete x
      · obtain ⟨body, ending, hs⟩ := hx.isLine
        rw [h.splitLines_cons hx, hs]
        simpa using ih
      · by_cases hxs : xs = []
        · obtain ⟨body, ending, hs⟩ := (h x List.mem_cons_self).1
          simp [hxs, hs]
        · rw [h.length_splitLines_cons hxs hx]
          exact Nat.le_succ_of_le ih

/-- **Lines one after the other are as many as they were only if all but the last are complete.** -/
theorem complete_of_length_le (h : Joinable xs)
    (hl : xs.length ≤ (splitLines xs.flatten).length) : ∀ x ∈ xs.dropLast, IsComplete x := by
  induction xs with
  | nil => simp
  | cons x xs ih =>
      intro y hy
      by_cases hxs : xs = []
      · simp [hxs] at hy
      · by_cases hx : IsComplete x
        · obtain ⟨body, ending, hs⟩ := hx.isLine
          rw [h.splitLines_cons hx, hs] at hl
          rcases mem_dropLast_cons hy with rfl | hy
          · exact hx
          · exact ih h.tail (by simpa using hl) y hy
        · rw [h.length_splitLines_cons hxs hx, List.length_cons] at hl
          have := length_splitLines_flatten_le h.tail
          omega

/-- Lines one after the other are as many as they were exactly if all but the last are complete. -/
theorem length_splitLines_flatten_eq_iff (h : Joinable xs) :
    (splitLines xs.flatten).length = xs.length ↔ ∀ x ∈ xs.dropLast, IsComplete x := by
  refine ⟨fun hl => complete_of_length_le h (Nat.le_of_eq hl.symm), fun hc => ?_⟩
  have hlength := congrArg List.length (lines_flatten_of_complete h hc)
  rwa [lines, List.length_map] at hlength

end BnfSuppression.Text
