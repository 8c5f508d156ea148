/-!
# Capital letters

Level names are compared in capitals. Besides the ASCII letters there are a few letters and
ligatures whose capital form is written in ASCII letters; every other character has a capital form
outside ASCII or none, and stays as it is here.

## Main definitions

* `Text.capitals`: a text with all letters that have an ASCII capital form in that form.
-/

namespace BnfSuppression.Text

/-- The letters outside ASCII whose capital form is written in ASCII letters. -/
def foreignCapitals : List (Nat × List Char) :=
  [(0x00DF, ['S', 'S']), (0x0131, ['I']), (0x017F, ['S']), (0xFB00, ['F', 'F']),
    (0xFB01, ['F', 'I']), (0xFB02, ['F', 'L']), (0xFB03, ['F', 'F', 'I']),
    (0xFB04, ['F', 'F', 'L']), (0xFB05, ['S', 'T']), (0xFB06, ['S', 'T'])]

/-- The capital form of a character. -/
def capital (c : Char) : List Char := (foreignCapitals.lookup c.toNat).getD [c.toUpper]

/-- A text in capitals. -/
def capitals (cs : List Char) : List Char := cs.flatMap capital

end BnfSuppression.Text
