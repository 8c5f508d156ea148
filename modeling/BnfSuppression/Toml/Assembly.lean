import BnfSuppression.Toml.Content

/-!
# Putting tables together

A configuration file gives the entries of its tables piece by piece: a dotted key stands for tables
within tables, the header of a table for the tables around it, and a table may be taken up again
further down.

A key may be given twice only for tables and lists of tables. A table is explicit if it has a header
of its own, and implicit if it was made along the way, by headers or dotted keys. An implicit table
may be taken up again, and may get one header of its own unless a dotted key made it; an explicit
table may be taken up by headers below its own. A list of tables may get more tables, and a header
may reach into the last of them. A dotted key takes up no table that a header has made, neither an
explicit one nor one in a list.

A further part of a key is checked twice. If one of the two is explicit, what it holds has to agree
with what the part before it holds; and it is joined to what the parts before it held when they
came. What the parts of a key hold in the end is united only then.

## Main definitions

* `Toml.Failure`: why a file cannot be read.
* `Toml.append`, `Toml.extend`: adding a part to a table.
* `Toml.refresh`, `Toml.refreshAll`: joining what the parts of a key hold.
* `Toml.settle`: the table that parts stand for.
-/

namespace BnfSuppression.Toml

/-- Why a configuration file cannot be read. -/
inductive Failure
  /-- The file is not well-formed. -/
  | malformed
  /-- A key is given twice. -/
  | duplicateKey (key : String)
  /-- A table is given again in a way that does not take it up. -/
  | redefined
  deriving Repr, DecidableEq

/-! ### Taking up tables -/

/-- Checks that the parts of a table agree with those that an earlier part of the same table holds,
given a depth of tables within tables that is not exceeded. A table without a header may meet a
table; one with a header may meet only a table that other headers made along the way. A scattered
key agrees with nothing. -/
def checkAgreement : Nat → List Part → List Part → Except Failure Unit
  | 0, _, _ => .error .malformed
  | depth + 1, held, more => more.forM fun p =>
    if isScattered held p.key then .error (.duplicateKey p.key)
    else match latest? held p.key with
      | none => .ok ()
      | some (_, current) =>
        match current.node, p.node with
        | .table wasImplicit held, .table implicit more =>
          if !wasImplicit && p.dotted then .error .redefined
          else if !wasImplicit && !implicit then .error (.duplicateKey p.key)
          else if current.dotted && !implicit then .error .redefined
          else checkAgreement depth held.parts more.parts
        | .tables elements, .table implicit more =>
          if p.dotted then .error .redefined
          else match implicit, elements.getLast? with
            | true, some last => checkAgreement depth last.parts more.parts
            | _, _ => .error (.duplicateKey p.key)
        | .tables _, .tables _ => .ok ()
        | _, _ => .error (.duplicateKey p.key)

/-! ### Uniting the parts of a key -/

/-- Adds a part to others in order to unite them, given how to add a part to a table: what a table
holds is added to the table before it, and the tables of a list to the list before it. Anything else
after a table is lost. -/
def unitePart (add : Content → Part → Except Failure Content) (parts : List Part) (p : Part) :
    Except Failure (List Part) :=
  match latest? parts p.key with
  | none => .ok (parts ++ [p])
  | some (place, current) =>
    match current.node, p.node with
    | .table implicit held, .table _ more => do
      let held ← more.parts.foldlM add held
      return parts.set place (.mk current.key current.dotted (.table implicit held))
    | .table _ _, _ => .ok (parts ++ [p])
    | .tables held, .tables more =>
      .ok (parts.set place (.mk current.key current.dotted (.tables (held ++ more))))
    | _, _ => .error (.duplicateKey p.key)

/-- Unites what the tables of a key hold, given how to add a part to a table. -/
def unite (add : Content → Part → Except Failure Content) (parts : List Part) (key : String) :
    Except Failure (List Part) :=
  (gathered parts key).foldlM (unitePart add) []

/-- Brings the record of what the parts of a key held together up to date, given how to add a part
to a table. -/
def refreshWith (add : Content → Part → Except Failure Content) (c : Content) (key : String) :
    Except Failure Content :=
  if isScattered c.parts key then do
    let (count, held) := c.joined key
    let parts := partsOf c.parts key
    let held ← ((parts.drop count).flatMap fun p => p.node.parts).foldlM add held
    return c.join key parts.length held
  else .ok c

/-- Gives a key a further part, which is joined to those before it if asked for, given how to add a
part to a table. -/
def pushWith (add : Content → Part → Except Failure Content) (joins : Bool) (c : Content)
    (p : Part) : Except Failure Content :=
  if joins then refreshWith add (c.push p) p.key else .ok (c.push p)

/-! ### Adding parts -/

mutual

/-- Adds a part to a table, given a depth that is not exceeded: tables within tables count twice. If
asked to, a further part of a key is joined to those before it at once, and an implicit table reaches
into the last table of a list. -/
def append : Nat → (joins reaches : Bool) → Content → Part → Except Failure Content
  | 0, _, _, _, _ => .error .malformed
  | depth + 1, joins, reaches, c, p =>
    match latest? c.parts p.key with
    | none => .ok (c.push p)
    | some (place, current) =>
      match current.node, p.node with
      | .table true held, .table true more =>
        if p.dotted || current.dotted || latestTable? c.parts != some p.key then
          pushWith (append depth true true) joins c p
        else do
          let held ← more.parts.foldlM (extend depth true reaches) held
          return c.set place (.mk current.key current.dotted (.table true held))
      | .table wasImplicit held, .table implicit more =>
        if !wasImplicit && !implicit then .error (.duplicateKey p.key)
        else if current.dotted && !implicit then .error .redefined
        else do
          checkAgreement depth held.parts more.parts
          pushWith (append depth true true) joins c p
      | .tables elements, .table true more =>
        match reaches, elements.getLast? with
        | true, some last => do
          let last ← more.parts.foldlM (extend depth true true) last
          return c.set place
            (.mk current.key current.dotted (.tables (elements.dropLast ++ [last])))
        | _, _ => .error (.duplicateKey p.key)
      | .tables held, .tables more =>
        .ok (c.set place (.mk current.key current.dotted (.tables (held ++ more))))
      | _, _ => .error (.duplicateKey p.key)

/-- Adds a part to a table, as `append` does, and checks that what the parts of its key hold can be
united. -/
def extend : Nat → (joins reaches : Bool) → Content → Part → Except Failure Content
  | 0, _, _, _, _ => .error .malformed
  | depth + 1, joins, reaches, c, p => do
    let c ← append depth joins reaches c p
    if isScattered c.parts p.key then
      let _ ← unite (extend depth true false) c.parts p.key
    return c

end

/-- Brings the records of what the parts of scattered keys held together up to date. -/
def refreshAll (depth : Nat) (c : Content) : Except Failure Content :=
  (c.parts.map Part.key).eraseDups.foldlM (refreshWith (append depth true true)) c

/-! ### The result -/

mutual

/-- The table that parts stand for, given a depth that is not exceeded: tables within tables count
twice. -/
def settle : Nat → List Part → Except Failure Table
  | 0, _ => .ok []
  | depth + 1, parts =>
    parts.foldlM (fun (t : Table) p => do
      if t.any (·.1 == p.key) then return t
      let v ←
        if isScattered parts p.key then
          Value.table <$> (unite (extend depth true false) parts p.key >>= settle depth)
        else settleNode depth p.node
      return t ++ [(p.key, v)]) []

/-- The value that a node stands for. -/
def settleNode : Nat → Node → Except Failure Value
  | 0, _ => .ok .absent
  | depth + 1, node =>
    match node with
    | .value v => .ok v
    | .table _ content => Value.table <$> settle depth content.parts
    | .tables elements =>
      Value.array <$> elements.mapM fun e => Value.table <$> settle depth e.parts

end

end BnfSuppression.Toml
