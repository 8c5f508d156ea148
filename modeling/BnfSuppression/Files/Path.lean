/-!
# Paths

A path is a sequence of names, from the root of the file system or from the working directory. Empty
names and single dots are left out; a double dot stands for the directory around. A path that starts
with two slashes and no more keeps both, and leads to the same place as with one.

## Main definitions

* `Path`: paths; `Path.ofString` and `Path.toString` read and write them.
* `Path.name`: the last name of a path; `Path.join`: one path after another.
-/

namespace BnfSuppression.Files

/-- Where a path starts. -/
inductive Anchor
  /-- In the working directory. -/
  | here
  /-- At the root. -/
  | root
  /-- At the root, with two slashes. -/
  | doubleRoot
  deriving DecidableEq, Repr

/-- A path. -/
structure Path where
  anchor : Anchor
  names : List String
  deriving DecidableEq, Repr

/-- The pieces of a text between slashes. -/
def splitSlashes : List Char → List (List Char)
  | [] => [[]]
  | c :: cs =>
    if c = '/' then [] :: splitSlashes cs
    else match splitSlashes cs with
      | [] => [[c]]
      | piece :: rest => (c :: piece) :: rest

/-- Where the path of a text starts. -/
def Anchor.ofText : List Char → Anchor
  | ['/', '/'] => doubleRoot
  | '/' :: '/' :: c :: _ => if c = '/' then root else doubleRoot
  | '/' :: _ => root
  | _ => here

/-- The slashes in front of the first name. -/
def Anchor.slashes : Anchor → String
  | here => ""
  | root => "/"
  | doubleRoot => "//"

namespace Path

/-- The path that a text spells. -/
def ofString (s : String) : Path where
  anchor := .ofText s.toList
  names := ((splitSlashes s.toList).map String.ofList).filter fun name => name != "" && name != "."

/-- A path as a text. -/
def toString (p : Path) : String :=
  match p.anchor, p.names with
  | .here, [] => "."
  | anchor, names => anchor.slashes ++ "/".intercalate names

/-- The path starts at the root. -/
def isAbsolute (p : Path) : Bool := p.anchor != .here

/-- The last name of a path. -/
def name (p : Path) : String := p.names.getLastD ""

/-- A name has a null character, which no file system takes. -/
def hasNull (p : Path) : Bool := p.names.any fun name => name.toList.contains '\x00'

/-- A path seen from another. -/
def join (p q : Path) : Path := if q.isAbsolute then q else { p with names := p.names ++ q.names }

/-- The path of a place in the file system. -/
def ofPlace (names : List String) : Path := ⟨.root, names⟩

end Path

end BnfSuppression.Files
