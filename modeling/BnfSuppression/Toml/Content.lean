import BnfSuppression.Toml.Value

/-!
# Tables in parts

A configuration file gives what a table holds piece by piece, and may take up a table again further
down. The parts of a table are kept as they come: each has a key, and a key with several parts is
scattered.

Beside the parts, a table keeps what the parts of a scattered key held together as they came, and
how many of them have been joined. What is put into a part after that is not joined again.

## Main definitions

* `Toml.Node`, `Toml.Part`, `Toml.Content`: what has been read, part by part.
* `Toml.Part.ofPath`: the part that a dotted key with a value stands for.
* `Toml.latest?`, `Toml.gathered`: the latest part of a key, and all that its tables hold.
-/

namespace BnfSuppression.Toml

mutual

/-- Something that a key was given. -/
inductive Node
  | value (v : Value)
  /-- A table; it is implicit if it was made for what it holds. -/
  | table (implicit : Bool) (content : Content)
  /-- A list of tables, each with its own header. -/
  | tables (elements : List Content)

/-- What a table holds: its parts as they come and, for scattered keys, how many of their parts have
been joined and what these held together. -/
inductive Content
  | mk (parts : List Part) (joined : List (String × Nat × Content))

/-- A key, whether it is the front of a dotted key, and what it was given. -/
inductive Part
  | mk (key : String) (dotted : Bool) (node : Node)

end

namespace Part

/-- The key of a part. -/
def key : Part → String
  | mk key _ _ => key

/-- The part is the front of a dotted key. -/
def dotted : Part → Bool
  | mk _ dotted _ => dotted

/-- What the key of a part was given. -/
def node : Part → Node
  | mk _ _ node => node

/-- The part that a dotted key with a value stands for. -/
def ofPath (v : Value) : List String → Part
  | [] => mk "" false (.value v)
  | [key] => mk key false (.value v)
  | key :: path => mk key true (.table true (.mk [ofPath v path] []))

end Part

namespace Content

/-- Nothing. -/
def empty : Content := mk [] []

/-- The parts of a table. -/
def parts : Content → List Part
  | mk parts _ => parts

/-- How many parts of a key have been joined, and what they held together. -/
def joined : Content → String → Nat × Content
  | mk _ joined, key => (joined.lookup key).getD (0, empty)

/-- A table with one more part at its end. -/
def push : Content → Part → Content
  | mk parts joined, p => mk (parts ++ [p]) joined

/-- A table with another part in a place. -/
def set : Content → Nat → Part → Content
  | mk parts joined, place, p => mk (parts.set place p) joined

/-- A table with a record of what so many parts of a key held together. -/
def join : Content → String → Nat → Content → Content
  | mk parts joined, key, count, c => mk parts ((key, count, c) :: joined)

end Content

/-- The node is a table. -/
def Node.isTable : Node → Bool
  | table _ _ => true
  | value _ | tables _ => false

/-- The parts of a table. -/
def Node.parts : Node → List Part
  | table _ content => content.parts
  | value _ | tables _ => []

/-! ### The parts of a key -/

/-- The latest part of a key, and its place. -/
def latest? (parts : List Part) (key : String) : Option (Nat × Part) :=
  (parts.zipIdx.reverse.find? fun (p, _) => p.key == key).map fun (p, i) => (i, p)

/-- The key of the latest table among the parts. -/
def latestTable? (parts : List Part) : Option String :=
  (parts.reverse.find? fun p => p.node.isTable).map Part.key

/-- The parts of a key. -/
def partsOf (parts : List Part) (key : String) : List Part := parts.filter fun p => p.key == key

/-- The key has more than one part. -/
def isScattered (parts : List Part) (key : String) : Bool := 1 < (partsOf parts key).length

/-- All that the tables of a key hold. -/
def gathered (parts : List Part) (key : String) : List Part :=
  (partsOf parts key).flatMap fun p => p.node.parts

end BnfSuppression.Toml
