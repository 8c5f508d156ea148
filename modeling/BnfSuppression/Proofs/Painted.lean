import BnfSuppression.Terminal.Style
import Mathlib.Data.List.Infix

/-!
# What Painting Adds

A text in some styles is the text with codes put into it. So it holds the same characters in the
same order, but for those that codes are made of.

## Main definitions

* `Terminal.isCodeChar`, `Terminal.content`: the characters of codes, and a text without them.

## Main results

* `Terminal.content_paint`: **painting adds characters of codes only**.
-/

namespace BnfSuppression.Terminal

variable {cs left right old new : List Char} {number : Nat}

/-- A character that codes are made of. -/
def isCodeChar (c : Char) : Bool := c == escape || c == '[' || c == 'm' || c.isDigit

/-- The characters of a text that codes are not made of. -/
def content (cs : List Char) : List Char := cs.filter fun c => !isCodeChar c

/-- The content of two texts together is that of the one, then that of the other. -/
@[simp]
theorem content_append (cs ds : List Char) : content (cs ++ ds) = content cs ++ content ds :=
  List.filter_append ..

/-- The content of a text is that of its first character, then that of the rest. -/
theorem content_cons (c : Char) (cs : List Char) :
    content (c :: cs) = content [c] ++ content cs := content_append [c] cs

/-- Codes have no content. -/
@[simp]
theorem content_code (number : Nat) : content (code number).toList = [] := by
  have hdigits : ∀ c ∈ (toString number).toList, isCodeChar c = true := fun c hc => by
    have hd : c.isDigit = true :=
      Nat.isDigit_of_mem_toDigits (by decide) (by decide) (Nat.toList_repr ▸ hc)
    simp [isCodeChar, hd]
  have hnumber : content (toString number).toList = [] := by simpa [content] using hdigits
  simp only [code, String.toList_append, String.toList_ofList, content_append, hnumber]
  rfl

/-- The code that turns a style on has no content. -/
@[simp]
theorem content_openCode (s : Style) : content s.openCode.toList = [] := content_code _

/-- The code that turns a style off has no content. -/
@[simp]
theorem content_closeCode (s : Style) : content s.closeCode.toList = [] := content_code _

/-- Texts without content have none one after the other. -/
theorem content_join_map {codeOf : Style → String} (h : ∀ s, content (codeOf s).toList = [])
    (styles : List Style) : content (String.join (styles.map codeOf)).toList = [] := by
  rw [String.toList_join]
  induction styles with
  | nil => rfl
  | cons s styles ih => rw [List.map_cons, List.flatMap_cons, content_append, h, ih]; rfl

/-! ### Mending the text -/

/-- Replacing one text by another keeps the content if neither has one. -/
theorem content_replaceAll (hold : content old = []) (hnew : content new = []) (cs : List Char) :
    content (replaceAll old new cs) = content cs := by
  fun_induction replaceAll old new cs with
  | case1 => rfl
  | case2 c rest h ih =>
      rw [content_append, hnew, ih]
      conv_rhs => rw [List.prefix_append_drop (List.isPrefixOf_iff_prefix.1 h.2), content_append,
        hold]
  | case3 c rest _ ih => rw [content_cons, ih, ← content_cons]

/-- What is found before a code and what is left are the whole text. -/
theorem append_of_upTo? {stop found rest : List Char} (h : upTo? stop cs = some (found, rest)) :
    cs = found ++ rest := by
  fun_induction upTo? stop cs generalizing found rest with
  | case1 => simp at h
  | case2 c cs hp =>
      obtain ⟨rfl, rfl⟩ := by simpa using h
      exact List.prefix_append_drop (List.isPrefixOf_iff_prefix.1 hp)
  | case3 => simp at h
  | case4 c cs _ _ ih =>
      obtain ⟨⟨f, r⟩, hu, he⟩ := Option.map_eq_some_iff.1 h
      obtain ⟨rfl, rfl⟩ := by simpa using he
      rw [ih hu, List.cons_append]

/-- A stretch between two resets and what is left are the whole text. -/
theorem append_of_resetStretch? {stretch rest : List Char}
    (h : resetStretch? cs = some (stretch, rest)) : cs = stretch ++ rest := by
  simp only [resetStretch?, bind, Option.bind_eq_some_iff] at h
  obtain ⟨inner, hd, ⟨found, rest'⟩, hu, he⟩ := h
  obtain ⟨rfl, rfl⟩ := by simpa using he
  unfold dropPrefix? at hd
  split at hd
  · next hp =>
      obtain rfl := by simpa using hd
      rw [List.prefix_append_drop (List.isPrefixOf_iff_prefix.1 hp), append_of_upTo? hu,
        List.append_assoc]
  · simp at hd

/-- Wrapping resets in texts without content leaves the content as it is. -/
theorem content_wrapResets (hl : content left = []) (hr : content right = []) (cs : List Char) :
    content (wrapResets left right cs) = content cs := by
  fun_induction wrapResets left right cs with
  | case1 => rfl
  | case2 c rest stretch after h ih => rw [append_of_resetStretch? h]; simp [hl, hr, ih]
  | case3 c rest h ih => rw [content_cons, ih, ← content_cons]

/-- Wrapping line breaks in texts without content leaves the content as it is. -/
theorem content_wrapLineBreaks (hl : content left = []) (hr : content right = [])
    (cs : List Char) : content (wrapLineBreaks left right cs) = content cs := by
  fun_induction wrapLineBreaks left right cs with
  | case1 => rfl
  | case2 cs ih =>
      rw [content_append, content_append, content_append, hl, hr, ih, List.nil_append,
        List.append_nil]
      exact (content_append ['\r', '\n'] cs).symm
  | case3 cs _ ih =>
      rw [content_append, content_append, content_append, hl, hr, ih, List.nil_append,
        List.append_nil, ← content_cons]
  | case4 c cs _ _ ih => rw [content_cons, ih, ← content_cons]

/-- **Painting adds characters of codes only.** -/
theorem content_paint (styles : List Style) (text : String) :
    content (paint styles text).toList = content text.toList := by
  have hreopened : content (styles.foldl (fun cs s =>
      replaceAll s.closeCode.toList (s.closeCode ++ s.openCode).toList cs) text.toList) =
        content text.toList := by
    generalize text.toList = cs
    induction styles generalizing cs with
    | nil => rfl
    | cons s styles ih =>
        rw [List.foldl_cons, ih, content_replaceAll (content_closeCode s)]
        rw [String.toList_append, content_append, content_closeCode, content_openCode]
        rfl
  have hopen := content_join_map content_openCode styles
  have hclose := content_join_map content_closeCode styles
  rw [paint]
  simp only [String.toList_append (s := _ ++ _), String.toList_append (s := String.join _),
    String.toList_ofList, content_append, hopen, hclose, content_wrapLineBreaks hclose hopen,
    content_wrapResets hclose hopen, hreopened, List.nil_append, List.append_nil]

end BnfSuppression.Terminal
