import BnfSuppression.Text.Digit
import Mathlib.Data.Nat.Digits.Defs
import Mathlib.Data.List.TakeWhile
import Mathlib.Tactic.IntervalCases

/-!
# Numbers Made of Digits

A text may be all digits and still be no number: superscripts and circled numerals look like digits
and have no place in a decimal number. Reading such a text as an integer fails, and so does reading
one with too many digits. Every other text of digits is read as the number that its digits denote in
the decimal system, whatever scripts they are taken from.

## Main definitions

* `Text.decimalNumber`: the number that decimal digits denote.
* `Text.Unreadable`: a text of digits that denotes no integer.

## Main results

* `Text.readInteger_of_isDecimal`: **decimal digits are read as the number that they denote**.
* `Text.readInteger_of_unreadable`: **an unreadable text is refused**.
-/

namespace BnfSuppression.Text

variable {c : Char} {cs : List Char}

/-! ### Digits -/

/-- A decimal digit has a value below ten. -/
theorem lt_of_decimalValue? {d : Nat} (h : decimalValue? c = some d) : d < 10 := by
  rw [decimalValue?, Option.map_eq_some_iff] at h
  obtain ⟨first, hfirst, rfl⟩ := h
  have hrange := List.find?_some hfirst
  simp only [Bool.and_eq_true, decide_eq_true_eq] at hrange
  omega

/-- The letters that are digits of greater bases are no decimal digits. -/
theorem decimalValue?_of_hexLetter
    (h : ('a' ≤ c ∧ c ≤ 'f') ∨ ('A' ≤ c ∧ c ≤ 'F')) : decimalValue? c = none := by
  have hcode : (97 ≤ c.toNat ∧ c.toNat ≤ 102) ∨ (65 ≤ c.toNat ∧ c.toNat ≤ 70) := h
  rw [decimalValue?]
  generalize c.toNat = n at hcode ⊢
  rcases hcode with ⟨hl, hu⟩ | ⟨hl, hu⟩ <;> interval_cases n <;> rfl

/-- **In base ten, the digits are the decimal ones.** -/
theorem digitBelow?_ten (c : Char) : digitBelow? 10 c = decimalValue? c := by
  rw [digitBelow?, digitValue?]
  split
  · next h =>
      simp only [Bool.and_eq_true, decide_eq_true_eq] at h
      rw [decimalValue?_of_hexLetter (.inl h), Option.filter_some, if_neg (by simp)]
  · split
    · next h =>
        simp only [Bool.and_eq_true, decide_eq_true_eq] at h
        rw [decimalValue?_of_hexLetter (.inr h), Option.filter_some, if_neg (by simp)]
    · cases hd : decimalValue? c with
      | none => rfl
      | some d => rw [Option.filter_some, if_pos (by simpa using lt_of_decimalValue? hd)]

/-- No blank looks like a digit. -/
theorem isDigitLike_of_isBlank (h : isBlank c = true) : isDigitLike c = false := by
  simp only [isBlank, Bool.or_eq_true, Bool.and_eq_true, decide_eq_true_eq, beq_iff_eq] at h
  simp only [isDigitLike, isDecimal, decimalValue?]
  generalize c.toNat = n at h ⊢
  rcases h with (((((((((h | h) | h) | h) | h) | h) | h) | h) | h) | h) | h
  all_goals first
    | subst h; rfl
    | obtain ⟨hl, hu⟩ := h
      interval_cases n <;> rfl

/-- What looks like a digit is no sign and no underscore. -/
theorem ne_of_isDigitLike (h : isDigitLike c = true) : c ≠ '-' ∧ c ≠ '+' ∧ c ≠ '_' := by
  refine ⟨?_, ?_, ?_⟩ <;> rintro rfl <;> revert h <;> decide

/-- Every decimal digit looks like a digit; the superscripts show that the converse fails. -/
theorem isDigitLike_of_isDecimal (h : isDecimal c = true) : isDigitLike c = true := by
  rw [isDigitLike, h, Bool.true_or]

/-- A text that looks like a number has no padding. -/
theorem trimPadding_of_isDigitLike (h : ∀ c ∈ cs, isDigitLike c = true) : trimPadding cs = cs := by
  have hnone : ∀ c ∈ cs, isPadding c = false := fun c hc => by
    have hblank : isBlank c = false := by
      by_contra hb
      exact absurd (h c hc) (by simp [isDigitLike_of_isBlank (Bool.eq_true_of_not_eq_false hb)])
    rw [isPadding, hblank, Bool.false_and]
  have hdrop : ∀ ds : List Char, (∀ c ∈ ds, c ∈ cs) → ds.dropWhile isPadding = ds := by
    intro ds hds
    cases ds with
    | nil => rfl
    | cons d ds => exact List.dropWhile_cons_of_neg (by simp [hnone d (hds d (by simp))])
  rw [trimPadding, hdrop cs fun _ => id, trimPaddingRight, hdrop cs.reverse (by simp),
    List.reverse_reverse]

/-! ### Numerals -/

/-- Digits without underscores between them are a numeral. -/
theorem numeral?_of_isDecimal (hne : cs ≠ []) (h : ∀ c ∈ cs, isDecimal c = true) :
    numeral? 10 cs = some (cs.filterMap decimalValue?) := by
  have hdigit : ∀ c ∈ cs, ∃ d, decimalValue? c = some d := fun c hc =>
    Option.isSome_iff_exists.1 (h c hc)
  have hbar : ∀ c ∈ cs, c ≠ '_' := fun c hc =>
    (ne_of_isDigitLike (isDigitLike_of_isDecimal (h c hc))).2.2
  fun_induction numeral? 10 cs with
  | case1 => exact absurd rfl hne
  | case2 c =>
      obtain ⟨d, hd⟩ := hdigit c (by simp)
      simp [digitBelow?_ten, hd]
  | case3 c cs ih => exact absurd rfl (hbar '_' (by simp))
  | case4 c cs hcs _ ih =>
      obtain ⟨d, hd⟩ := hdigit c (by simp)
      have ih := ih (by simpa using hcs) (fun c hc => h c (by simp [hc]))
        (fun c hc => hdigit c (by simp [hc])) fun c hc => hbar c (by simp [hc])
      simp [digitBelow?_ten, hd, ih]

/-- The number that decimal digits denote, whatever scripts they are taken from. -/
def decimalNumber (cs : List Char) : Nat := Nat.ofDigits 10 (cs.filterMap decimalValue?).reverse

/-- A text that is all digits, some of which only look like one, or too many. -/
structure Unreadable (cs : List Char) : Prop where
  ne_nil : cs ≠ []
  digits : ∀ c ∈ cs, isDigitLike c = true
  broken : (∃ c ∈ cs, isDecimal c = false) ∨ maxDecimalDigits < cs.length

/-- Why an unreadable text denotes no integer: too many decimal digits stand in front, or it is not
written as one. -/
def refusal (cs : List Char) : IntegerError :=
  if maxDecimalDigits < (cs.takeWhile isDecimal).length then
    .tooLong (cs.takeWhile isDecimal).length
  else .malformed (String.ofList cs) 10

/-- Digits denote the number that the library computes from them in the opposite order. -/
theorem ofDigits_eq (base : Nat) (ds : List Nat) :
    ofDigits base ds = Nat.ofDigits base ds.reverse := by
  rw [Nat.ofDigits_eq_foldr, List.foldr_reverse, ofDigits]
  congr 1
  funext n d
  simp [Nat.mul_comm, Nat.add_comm]

/-- The digits of a numeral are as many as its characters, and denote its number. -/
theorem length_filterMap_decimalValue? (h : ∀ c ∈ cs, isDecimal c = true) :
    (cs.filterMap decimalValue?).length = cs.length := by
  rw [List.length_filterMap_eq_countP]
  exact List.countP_eq_length.2 h

/-- The characters that a numeral may hold are the decimal digits among those that look like one. -/
theorem split_isNumeralChar (h : ∀ c ∈ cs, isDigitLike c = true) :
    cs.takeWhile (isNumeralChar 10) = cs.takeWhile isDecimal ∧
      cs.dropWhile (isNumeralChar 10) = cs.dropWhile isDecimal := by
  induction cs with
  | nil => exact ⟨rfl, rfl⟩
  | cons c cs ih =>
      have hchar : isNumeralChar 10 c = isDecimal c := by
        rw [isNumeralChar, digitBelow?_ten, Bool.or_eq_right_iff_imp.2, isDecimal]
        exact fun hb => absurd (beq_iff_eq.1 hb) (ne_of_isDigitLike (h c (by simp))).2.2
      obtain ⟨htake, hdrop⟩ := ih fun d hd => h d (by simp [hd])
      simp only [List.takeWhile_cons, List.dropWhile_cons, hchar, htake, hdrop, and_self]

/-- How a text that looks like a number is read: its first decimal digits are a numeral, and there
must be no more. -/
theorem readInteger_of_isDigitLike (h : ∀ c ∈ cs, isDigitLike c = true) :
    readInteger 10 cs =
      if cs.takeWhile isDecimal = [] then .error (.malformed (String.ofList cs) 10)
      else if maxDecimalDigits < (cs.takeWhile isDecimal).length then
        .error (.tooLong (cs.takeWhile isDecimal).length)
      else if cs.dropWhile isDecimal ≠ [] then .error (.malformed (String.ofList cs) 10)
      else .ok (decimalNumber (cs.takeWhile isDecimal)) := by
  have hmarker : dropBaseMarker 10 cs = cs := by
    rw [dropBaseMarker] <;> simp
  obtain ⟨htake, hdrop⟩ := split_isNumeralChar h
  have hdecimal : ∀ c ∈ cs.takeWhile isDecimal, isDecimal c = true := fun c hc =>
    List.mem_takeWhile_imp hc
  rw [readInteger, trimPadding_of_isDigitLike h]
  split
  next negative unsigned hsign =>
  obtain ⟨rfl, rfl⟩ : negative = false ∧ cs = unsigned := by
    split at hsign
    · exact absurd rfl (ne_of_isDigitLike (h '-' (by simp))).1
    · exact absurd rfl (ne_of_isDigitLike (h '+' (by simp))).2.1
    · simpa using hsign
  simp only [hmarker, htake, hdrop]
  by_cases hnil : cs.takeWhile isDecimal = []
  · simp [hnil, numeral?]
  · rw [numeral?_of_isDecimal hnil hdecimal, if_neg hnil]
    simp only [length_filterMap_decimalValue? hdecimal, decimalNumber, ofDigits_eq]
    by_cases hlong : maxDecimalDigits < (cs.takeWhile isDecimal).length
    · simp [hlong]
    · cases cs.dropWhile isDecimal <;> simp [hlong]

/-- **Decimal digits are read as the number that they denote**, if they are not too many. -/
theorem readInteger_of_isDecimal (hne : cs ≠ []) (h : ∀ c ∈ cs, isDecimal c = true)
    (hl : cs.length ≤ maxDecimalDigits) : readInteger 10 cs = .ok (decimalNumber cs) := by
  have htake : cs.takeWhile isDecimal = cs := List.takeWhile_eq_self_iff.2 h
  have hdrop : cs.dropWhile isDecimal = [] := List.dropWhile_eq_nil_iff.2 h
  rw [readInteger_of_isDigitLike fun c hc => isDigitLike_of_isDecimal (h c hc), htake, hdrop,
    if_neg hne, if_neg (Nat.not_lt.2 hl), if_neg (by simp)]

/-- **An unreadable text is refused.** -/
theorem readInteger_of_unreadable (h : Unreadable cs) :
    readInteger 10 cs = .error (refusal cs) := by
  rw [readInteger_of_isDigitLike h.digits, refusal]
  by_cases hnil : cs.takeWhile isDecimal = []
  · rw [if_pos hnil, hnil, if_neg (by simp)]
  · rw [if_neg hnil]
    split
    · rfl
    · next hlong =>
        rw [if_pos]
        intro hdrop
        have hall : ∀ c ∈ cs, isDecimal c = true := List.dropWhile_eq_nil_iff.1 hdrop
        rcases h.broken with ⟨c, hc, hno⟩ | hmany
        · exact absurd (hall c hc) (by simp [hno])
        · exact hlong (by rwa [List.takeWhile_eq_self_iff.2 hall])

end BnfSuppression.Text
