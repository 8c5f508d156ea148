import BnfSuppression.Text.Blank

/-!
# Directives

A directive is a comment that lists the ids of the checks it suppresses: a comment marker, a verb,
and ids separated by commas or blanks, such as `// noinspection Unused, BadName`. The whole comment
has to have this form.

## Main definitions

* `Directive`: a verb and ids.
* `Directive.parse?`: reading a comment as a directive with a given verb.
* `Directive.render`: writing a directive.
* `Directive.withId`, `Directive.mentions`: adding an id, and asking for one.

## Main results

* `Directive.withId_of_mem`, `Directive.mem_ids_withId`: adding an id that is listed changes
  nothing, and an added id is listed.
-/

namespace BnfSuppression

/-- What a directive comment says: a verb, and the ids of the checks in the order in which they are
listed. -/
structure Directive where
  verb : String
  ids : List String
  deriving DecidableEq, Repr

namespace Directive

/-- Whether the check is listed, or all checks are; for some questions there is no id for all
checks. -/
def mentions (d : Directive) (check : String) (allChecks : Option String) : Bool :=
  d.ids.contains check || allChecks.any d.ids.contains

/-- The directive with the check added at the end, unless it is listed already. -/
def withId (d : Directive) (check : String) : Directive :=
  if d.ids.contains check then d else { d with ids := d.ids ++ [check] }

/-- The comment that the directive is written as, whatever marker, verb and ids there are. -/
def render (d : Directive) (marker : String) : String :=
  marker ++ " " ++ d.verb ++ " " ++ ", ".intercalate d.ids

/-- Adding an id that the directive already lists changes nothing. -/
theorem withId_of_mem {d : Directive} {check : String} (h : check ∈ d.ids) :
    d.withId check = d := by
  simp [withId, h]

/-- After adding an id, the directive lists it, whether it did so before or not. -/
theorem mem_ids_withId (d : Directive) (check : String) : check ∈ (d.withId check).ids := by
  unfold withId
  split
  · next h => simpa using h
  · simp

/-! ### Reading -/

/-- The markers that a directive comment may start with. -/
def markers : List (List Char) := [['/', '/'], ['#'], ['-', '-'], [';']]

/-- A character of an id. -/
def isIdChar (c : Char) : Bool := c.isAlphanum || c == '_' || c == '.' || c == '-'

/-- A character that separates ids. -/
def isSeparator (c : Char) : Bool := c == ',' || Text.isBlank c

/-- Dropping a prefix never makes a list longer, which is why the splitting of ids ends. -/
theorem length_dropWhile_le {α : Type _} (p : α → Bool) (cs : List α) :
    (cs.dropWhile p).length ≤ cs.length :=
  (List.dropWhile_sublist p).length_le

/-- The words of a text: its longest pieces without separators. -/
def words (cs : List Char) : List (List Char) :=
  match cs with
  | [] => []
  | c :: cs =>
    if isSeparator c then words cs
    else (c :: cs.takeWhile (!isSeparator ·)) :: words (cs.dropWhile (!isSeparator ·))
termination_by cs.length
decreasing_by
  · exact Nat.lt_succ_self _
  · exact Nat.lt_succ_of_le (length_dropWhile_le _ _)

/-- The ids of a list, each once, in the order in which they first come. -/
def splitIds (text : String) : List String := ((words text.toList).map String.ofList).eraseDups

/-- Reads a list of ids that starts here and ends, but for blanks, with the text. Two ids are
separated by blanks or by one comma with or without blanks around it. -/
def idList? (cs : List Char) : Option (List (List Char)) :=
  match cs with
  | [] => none
  | c :: cs =>
    if isIdChar c then
      let id := c :: cs.takeWhile isIdChar
      match _h : Text.dropBlanks (cs.dropWhile isIdChar) with
      | [] => some [id]
      | d :: rest =>
        if d = ',' then (idList? (Text.dropBlanks rest)).map (id :: ·)
        else (idList? (d :: rest)).map (id :: ·)
    else none
termination_by cs.length
decreasing_by
  all_goals
    have h₁ := congrArg List.length _h
    have h₂ := length_dropWhile_le Text.isBlank (cs.dropWhile isIdChar)
    have h₃ := length_dropWhile_le isIdChar cs
    have h₄ := length_dropWhile_le Text.isBlank rest
    simp only [Text.dropBlanks, List.length_cons] at *
    omega

/-- Reads the ids after the verb: blanks come first, at least one of them. -/
def afterVerb? (cs : List Char) : Option (List (List Char)) :=
  match cs with
  | [] => none
  | c :: cs => if Text.isBlank c then idList? (Text.dropBlanks cs) else none

/-- Reads the verb and the ids, which blanks may precede. If the verb does not fit after some
blanks, it is tried again after more of them. -/
def body? (verb : List Char) (cs : List Char) : Option (List (List Char)) :=
  let here := if verb.isPrefixOf cs then afterVerb? (cs.drop verb.length) else none
  match here, cs with
  | some ids, _ => some ids
  | none, [] => none
  | none, c :: cs => if Text.isBlank c then body? verb cs else none

/-- The text after the comment marker. -/
def afterMarker? (cs : List Char) : Option (List Char) :=
  (markers.find? (·.isPrefixOf cs)).map fun marker => cs.drop marker.length

/-- Reads a comment as a directive with the given verb. Ids that come again are dropped. -/
def parse? (comment verb : String) : Option Directive := do
  let rest ← afterMarker? comment.toList
  let ids ← body? verb.toList rest
  return ⟨verb, (ids.map String.ofList).eraseDups⟩

end Directive

/-- Whether the comment is a directive with the given verb that lists the check, or lists all
checks. -/
def isMentioned (comment verb check : String) (allChecks : Option String) : Bool :=
  (Directive.parse? comment verb).any (·.mentions check allChecks)

end BnfSuppression
