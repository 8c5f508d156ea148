import BnfSuppression.Text.Lines
import BnfSuppression.Text.Utf8
import Mathlib.Data.List.Basic

/-!
# Texts and Their Bytes

The characters that bytes are read as are written as these bytes again, as only the shortest
spelling of a character is read. Turning the line breaks of a text into line feeds is what reading
a file does besides, and it is undone by nothing: the bytes of a text that holds a carriage return
are not those of a text that holds none.

## Main results

* `Text.utf8Encode_of_decodeUtf8`: **reading loses nothing**.
* `Text.decodeUtf8_utf8Encode`: **what is written is read back**.
* `Text.mem_utf8Encode_iff`: a byte below 128 stands for its own character only.
* `Text.normalizeBreaks_eq_self`: the line breaks of a text without carriage returns stay.
-/

namespace BnfSuppression.Text

/-! ### Bytes in a list -/

/-- Listing bytes from a place on appends the rest of the array to what was collected in reverse. -/
theorem toList_loop_eq (bs : ByteArray) (i : Nat) (r : List UInt8) :
    ByteArray.toList.loop bs i r = r.reverse ++ bs.data.toList.drop i := by
  fun_induction ByteArray.toList.loop bs i r with
  | case1 i r h ih =>
      have hi : i < bs.data.toList.length := by simpa using h
      rw [ih, List.drop_eq_getElem_cons hi]
      simp [ByteArray.get!, h]
  | case2 i r h =>
      rw [List.drop_eq_nil_of_le (by simpa using Nat.le_of_not_lt h)]
      simp

/-- Listing the bytes of an array and putting them together again gives the array. -/
theorem toByteArray_toList (bs : ByteArray) : bs.toList.toByteArray = bs := by
  apply ByteArray.ext
  rw [List.data_toByteArray, ByteArray.toList, toList_loop_eq]
  simp

/-! ### Reading -/

/-- A byte that continues a character is in its range, and adds six bits. -/
theorem continueBytes_cons_eq_ok {value taken n : Nat} {range : ByteRange}
    {ranges : List ByteRange} {bytes rest : List UInt8} :
    continueBytes value taken (range :: ranges) bytes = .ok (n, rest) ↔
      ∃ b bs, bytes = b :: bs ∧ range.1.toNat ≤ b.toNat ∧ b.toNat ≤ range.2.toNat ∧
        continueBytes (value * 64 + b.toNat % 64) (taken + 1) ranges bs = .ok (n, rest) := by
  cases bytes with
  | nil => simp [continueBytes]
  | cons b bs =>
      rw [continueBytes]
      split
      · next hb =>
          simp only [UInt8.le_iff_toNat_le] at hb
          simp [hb]
      · next hb =>
          simp only [UInt8.le_iff_toNat_le, not_and] at hb
          simp only [reduceCtorEq, List.cons.injEq, false_iff, not_exists, not_and]
          rintro b' bs' ⟨rfl, rfl⟩ hlo hhi
          exact absurd hhi (hb hlo)

/-- Once no further byte is asked for, the value is complete and nothing more is taken. -/
theorem continueBytes_nil_eq_ok {value taken n : Nat} {bytes rest : List UInt8} :
    continueBytes value taken [] bytes = .ok (n, rest) ↔ value = n ∧ bytes = rest := by
  simp [continueBytes]

/-- A byte that starts a character, by the length of the character: what it adds to the code point,
and the ranges of the bytes after it. The first of these ranges keeps longer spellings than needed,
surrogates and values beyond the last code point out. -/
inductive Leads (b : UInt8) : Nat → List ByteRange → Prop
  | one : b.toNat < 0x80 → Leads b b.toNat []
  | two {v : Nat} : b.toNat = 0xC0 + v → 2 ≤ v → v < 0x20 → Leads b v [tailRange]
  | three {v : Nat} {r : ByteRange} : b.toNat = 0xE0 + v → v < 0x10 →
    0x80 ≤ r.1.toNat → r.2.toNat ≤ 0xBF → (v = 0 → 0xA0 ≤ r.1.toNat) →
    (v = 0x0D → r.2.toNat ≤ 0x9F) → Leads b v [r, tailRange]
  | four {v : Nat} {r : ByteRange} : b.toNat = 0xF0 + v → v ≤ 4 →
    0x80 ≤ r.1.toNat → r.2.toNat ≤ 0xBF → (v = 0 → 0x90 ≤ r.1.toNat) →
    (v = 4 → r.2.toNat ≤ 0x8F) → Leads b v [r, tailRange, tailRange]

/-- The byte that starts a character is read as the table of such bytes says. -/
theorem leads_of_leadByte? {b : UInt8} {value : Nat} {ranges : List ByteRange}
    (h : leadByte? b = some (value, ranges)) : Leads b value ranges := by
  simp only [leadByte?, UInt8.lt_iff_toNat_lt, ← UInt8.toNat_inj, UInt8.reduceToNat] at h
  split_ifs at h <;> simp only [Option.some.injEq, Prod.mk.injEq] at h <;> obtain ⟨rfl, rfl⟩ := h
  · exact .one ‹_›
  · exact .two (by omega) (by omega) (by omega)
  · exact .three (by omega) (by omega) (by decide) (by decide) (by decide) (by omega)
  · exact .three (by omega) (by omega) (by decide) (by decide) (by decide) (by decide)
  · exact .three (by omega) (by omega) (by decide) (by decide) (by omega) (by omega)
  · exact .four (by omega) (by omega) (by decide) (by decide) (by decide) (by omega)
  · exact .four (by omega) (by omega) (by decide) (by decide) (by omega) (by omega)
  · exact .four (by omega) (by omega) (by decide) (by decide) (by decide) (by decide)

/-- The code point of a character that is made of a valid one. -/
theorem toNat_val_ofNat {n : Nat} (h : n.isValidChar) : (Char.ofNat n).val.toNat = n := by
  rw [Char.ofNat, dif_pos h]
  rfl

/-- The byte of a number is the one that has it as its value. -/
theorem eq_ofNat_iff {n : Nat} {b : UInt8} (h : n < 256) : b = UInt8.ofNat n ↔ b.toNat = n := by
  rw [← UInt8.toNat_inj, UInt8.toNat_ofNat_of_lt' h]

/-- **What is read of one character is its spelling.** -/
theorem utf8EncodeChar_of_leadByte? {b : UInt8} {value n : Nat} {ranges : List ByteRange}
    {following rest : List UInt8} (hb : leadByte? b = some (value, ranges))
    (h : continueBytes value 1 ranges following = .ok (n, rest)) :
    b :: following = String.utf8EncodeChar (Char.ofNat n) ++ rest := by
  have htail : tailRange.1.toNat = 0x80 ∧ tailRange.2.toNat = 0xBF := by decide
  -- in each case the code point is put together six bits at a time, and its spelling takes it apart
  cases leads_of_leadByte? hb with
  | one hv =>
      obtain ⟨rfl, rfl⟩ := continueBytes_nil_eq_ok.1 h
      rw [String.utf8EncodeChar, toNat_val_ofNat (by simp only [Nat.isValidChar]; omega)]
      simp [show b.toNat ≤ 127 by omega]
  | two hv hlo hhi =>
      obtain ⟨b₁, bs, rfl, hb₁, hb₁', h⟩ := continueBytes_cons_eq_ok.1 h
      obtain ⟨rfl, rfl⟩ := continueBytes_nil_eq_ok.1 h
      rw [String.utf8EncodeChar, toNat_val_ofNat (by simp only [Nat.isValidChar]; omega)]
      simp (disch := omega) only [if_neg, if_pos, List.cons_append, List.nil_append,
        List.cons.injEq, and_true, eq_ofNat_iff]
      omega
  | three hv hhi hlo' hhi' hshort hsurrogate =>
      obtain ⟨b₁, bs, rfl, hb₁, hb₁', h⟩ := continueBytes_cons_eq_ok.1 h
      obtain ⟨b₂, bs, rfl, hb₂, hb₂', h⟩ := continueBytes_cons_eq_ok.1 h
      obtain ⟨rfl, rfl⟩ := continueBytes_nil_eq_ok.1 h
      rw [String.utf8EncodeChar, toNat_val_ofNat (by simp only [Nat.isValidChar]; omega)]
      simp (disch := omega) only [if_neg, if_pos, List.cons_append, List.nil_append,
        List.cons.injEq, and_true, eq_ofNat_iff]
      omega
  | four hv hhi hlo' hhi' hshort hlast =>
      obtain ⟨b₁, bs, rfl, hb₁, hb₁', h⟩ := continueBytes_cons_eq_ok.1 h
      obtain ⟨b₂, bs, rfl, hb₂, hb₂', h⟩ := continueBytes_cons_eq_ok.1 h
      obtain ⟨b₃, bs, rfl, hb₃, hb₃', h⟩ := continueBytes_cons_eq_ok.1 h
      obtain ⟨rfl, rfl⟩ := continueBytes_nil_eq_ok.1 h
      rw [String.utf8EncodeChar, toNat_val_ofNat (by simp only [Nat.isValidChar]; omega)]
      simp (disch := omega) only [if_neg, List.cons_append, List.nil_append,
        List.cons.injEq, and_true, eq_ofNat_iff]
      omega

/-- Wherever reading starts, the characters read are spelled by the bytes that they were read
from. -/
theorem flatMap_utf8EncodeChar_of_decodeFrom {position : Nat} {bytes : List UInt8}
    {cs : List Char} (h : decodeFrom position bytes = .ok cs) :
    cs.flatMap String.utf8EncodeChar = bytes := by
  fun_induction decodeFrom position bytes generalizing cs with
  | case1 =>
      obtain rfl : [] = cs := Except.ok.inj h
      rfl
  | case5 position b following value ranges hb n rest hrest cs' hcs ih =>
      obtain rfl : Char.ofNat n :: cs' = cs := Except.ok.inj h
      rw [List.flatMap_cons, ih hcs, ← utf8EncodeChar_of_leadByte? hb hrest]
  | case2 | case3 | case4 => simp at h

/-- **Reading loses nothing**: the characters that bytes are read as are spelled by these bytes. -/
theorem utf8Encode_of_decodeUtf8 {bytes : ByteArray} {cs : List Char}
    (h : decodeUtf8 bytes = .ok cs) : cs.utf8Encode = bytes := by
  rw [List.utf8Encode, flatMap_utf8EncodeChar_of_decodeFrom h, toByteArray_toList]

/-! ### Reading what was written -/

/-- The bytes below 0x80 are characters on their own. -/
theorem leadByte?_one : ∀ v < 0x80, leadByte? (UInt8.ofNat v) = some (v, []) := by
  decide

/-- The first byte of a character of two bytes adds its low bits and asks for one more byte. -/
theorem leadByte?_two : ∀ v < 0x1E,
    leadByte? (UInt8.ofNat (v + 0xC2)) = some (v + 2, [tailRange]) := by
  decide

/-- The first byte of a character of three bytes asks for two more, the first of them from a range
that depends on it. -/
theorem leadByte?_three : ∀ v < 0x10, leadByte? (UInt8.ofNat (v + 0xE0)) =
    some (v, [(if v = 0 then 0xA0 else 0x80, if v = 0x0D then 0x9F else 0xBF), tailRange]) := by
  decide

/-- The first byte of a character of four bytes asks for three more, the first of them from a range
that depends on it. -/
theorem leadByte?_four : ∀ v ≤ 4, leadByte? (UInt8.ofNat (v + 0xF0)) =
    some (v, [(if v = 0 then 0x90 else 0x80, if v = 4 then 0x8F else 0xBF), tailRange,
      tailRange]) := by
  decide

/-- A byte in the range goes on with the character. -/
theorem continueBytes_ofNat {range : ByteRange} {v : Nat} (hv : v < 256)
    (hlo : range.1.toNat ≤ v) (hhi : v ≤ range.2.toNat) (value taken : Nat)
    (ranges : List ByteRange) (bytes : List UInt8) :
    continueBytes value taken (range :: ranges) (UInt8.ofNat v :: bytes) =
      continueBytes (value * 64 + v % 64) (taken + 1) ranges bytes := by
  have hb : (UInt8.ofNat v).toNat = v := UInt8.toNat_ofNat_of_lt' hv
  rw [continueBytes, if_pos, hb]
  rw [UInt8.le_iff_toNat_le, UInt8.le_iff_toNat_le, hb]
  exact ⟨hlo, hhi⟩

/-- **The spelling of a character is read as it.** -/
theorem exists_leadByte?_of_utf8EncodeChar (c : Char) (rest : List UInt8) :
    ∃ b bytes value ranges, String.utf8EncodeChar c = b :: bytes ∧
      leadByte? b = some (value, ranges) ∧
      continueBytes value 1 ranges (bytes ++ rest) = .ok (c.toNat, rest) := by
  have htail : tailRange.1.toNat = 0x80 ∧ tailRange.2.toNat = 0xBF := by decide
  have hmore {v value taken : Nat} {ranges : List ByteRange} {bytes : List UInt8} :
      continueBytes value taken (tailRange :: ranges) (UInt8.ofNat (v % 64 + 128) :: bytes) =
        continueBytes (value * 64 + v % 64) (taken + 1) ranges bytes := by
    rw [continueBytes_ofNat (by omega) (by omega) (by omega),
      show (v % 64 + 128) % 64 = v % 64 by omega]
  have hvalid : c.val.toNat < 0xD800 ∨ 0xDFFF < c.val.toNat ∧ c.val.toNat < 0x110000 := c.valid
  rw [String.utf8EncodeChar, Char.toNat]
  generalize c.val.toNat = n at hvalid
  -- one case for each length of spelling: the first byte gives the top bits, each other six more
  split_ifs with h₁ h₂ h₃
  · exact ⟨_, [], _, _, rfl, leadByte?_one n (by omega), rfl⟩
  · have hlead := leadByte?_two (n / 64 - 2) (by omega)
    rw [show n / 64 - 2 + 0xC2 = n / 64 % 32 + 192 by omega] at hlead
    refine ⟨_, _, _, _, rfl, hlead, ?_⟩
    rw [List.singleton_append, hmore, continueBytes, Except.ok.injEq, Prod.mk.injEq]
    exact ⟨by omega, rfl⟩
  · refine ⟨_, _, _, _, rfl, leadByte?_three (n / 4096 % 16) (by omega), ?_⟩
    rw [List.cons_append, continueBytes_ofNat (by omega)]
    · rw [List.singleton_append, hmore, continueBytes, Except.ok.injEq, Prod.mk.injEq]
      exact ⟨by omega, rfl⟩
    all_goals split_ifs <;> simp only [UInt8.reduceToNat] <;> omega
  · refine ⟨_, _, _, _, rfl, leadByte?_four (n / 262144 % 8) (by omega), ?_⟩
    rw [List.cons_append, continueBytes_ofNat (by omega)]
    · rw [List.cons_append, hmore, List.singleton_append, hmore, continueBytes, Except.ok.injEq,
        Prod.mk.injEq]
      exact ⟨by omega, rfl⟩
    all_goals split_ifs <;> simp only [UInt8.reduceToNat] <;> omega

/-- Wherever reading starts, characters that were spelled out are read back. -/
theorem decodeFrom_flatMap_utf8EncodeChar (position : Nat) (cs : List Char) :
    decodeFrom position (cs.flatMap String.utf8EncodeChar) = .ok cs := by
  induction cs generalizing position with
  | nil => simp [decodeFrom]
  | cons c cs ih =>
      obtain ⟨b, bytes, value, ranges, hc, hlead, hmore⟩ :=
        exists_leadByte?_of_utf8EncodeChar c (cs.flatMap String.utf8EncodeChar)
      rw [List.flatMap_cons, hc, List.cons_append, decodeFrom]
      simp only [hlead]
      split
      · next he => cases hmore.symm.trans he
      · next n rest he =>
          obtain ⟨rfl, rfl⟩ := Prod.mk.inj (Except.ok.inj (hmore.symm.trans he))
          rw [ih, Char.ofNat_toNat]

/-- **What is written is read back**, character by character. -/
theorem decodeUtf8_utf8Encode (cs : List Char) : decodeUtf8 cs.utf8Encode = .ok cs := by
  rw [decodeUtf8, ByteArray.toList, toList_loop_eq, List.utf8Encode, List.data_toByteArray]
  exact decodeFrom_flatMap_utf8EncodeChar 0 cs

/-- A text is written with the spellings of its characters. -/
theorem toUTF8_eq_utf8Encode (text : String) : text.toUTF8 = text.toList.utf8Encode := by
  rw [String.toUTF8_eq_toByteArray, String.utf8Encode_toList]

/-! ### Finding a character in bytes -/

/-- The bytes of two arrays are found in the one array of both. -/
theorem mem_data_append {b : UInt8} {bs bs' : ByteArray} :
    b ∈ (bs ++ bs').data ↔ b ∈ bs.data ∨ b ∈ bs'.data := by
  rw [ByteArray.data_append, Array.mem_append]

/-- Only a character below 128 is spelled with a byte below 128, and by it alone. -/
theorem mem_utf8EncodeChar_iff {b : UInt8} (hb : b.toNat < 128) (c : Char) :
    b ∈ String.utf8EncodeChar c ↔ b.toNat = c.val.toNat := by
  have hlast : c.val.toNat < 0x110000 := c.valid.elim (by omega) (by omega)
  rw [String.utf8EncodeChar]
  split_ifs <;> simp (disch := omega) only [List.mem_cons, List.not_mem_nil, or_false,
    eq_ofNat_iff] <;> omega

/-- **A byte below 128 stands for its own character only.** -/
theorem mem_utf8Encode_iff {b : UInt8} (hb : b.toNat < 128) {cs : List Char} :
    b ∈ cs.utf8Encode.data ↔ ∃ c ∈ cs, b.toNat = c.val.toNat := by
  rw [List.utf8Encode, List.data_toByteArray, List.mem_toArray, List.mem_flatMap]
  simp only [mem_utf8EncodeChar_iff hb]

/-- The byte of a carriage return. -/
def returnByte : UInt8 := 0x0D

/-- The byte of a carriage return occurs exactly where this character is spelled. -/
theorem returnByte_mem_utf8Encode_iff {cs : List Char} :
    returnByte ∈ cs.utf8Encode.data ↔ '\r' ∈ cs := by
  rw [mem_utf8Encode_iff (by decide)]
  constructor
  · rintro ⟨c, hc, he⟩
    obtain rfl : '\r' = c := Char.ext (UInt32.toNat_inj.1 he)
    exact hc
  · exact fun h => ⟨'\r', h, by decide⟩

/-- Bytes that are read hold the byte of a carriage return if one is read. -/
theorem return_mem_iff_of_decodeUtf8 {bytes : ByteArray} {cs : List Char}
    (h : decodeUtf8 bytes = .ok cs) : '\r' ∈ cs ↔ returnByte ∈ bytes.data := by
  rw [← utf8Encode_of_decodeUtf8 h, returnByte_mem_utf8Encode_iff]

/-- A text is written with the byte of a carriage return exactly if it has this character. -/
theorem returnByte_mem_toUTF8_iff {text : String} :
    returnByte ∈ text.toUTF8.data ↔ '\r' ∈ text.toList := by
  rw [toUTF8_eq_utf8Encode, returnByte_mem_utf8Encode_iff]

/-! ### Line breaks -/

/-- No carriage return is left. -/
theorem return_notMem_normalizeBreaks (cs : List Char) : '\r' ∉ normalizeBreaks cs := by
  fun_induction normalizeBreaks cs with
  | case1 => simp
  | case2 cs ih => simpa using ih
  | case3 cs _ ih => simpa using ih
  | case4 c cs _ hc ih => simpa [eq_comm] using ⟨hc, ih⟩

/-- **The line breaks of a text without carriage returns stay.** -/
theorem normalizeBreaks_eq_self {cs : List Char} (h : '\r' ∉ cs) : normalizeBreaks cs = cs := by
  fun_induction normalizeBreaks cs with
  | case1 => rfl
  | case2 cs ih => simp at h
  | case3 cs _ ih => simp at h
  | case4 c cs _ _ ih => rw [ih fun hc => h (List.mem_cons_of_mem c hc)]

end BnfSuppression.Text
