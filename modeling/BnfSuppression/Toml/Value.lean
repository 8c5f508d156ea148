/-!
# Values of configuration files

Configuration files hold tables: keys with values, in an order. A value is a text, a number, a
truth value, a date or time, a list, or a table. An absent value has no written form.

## Main definitions

* `Toml.Value`: values; `Toml.Table`: the entries of a table.
* `Toml.Value.typeName`: how messages name the type of a value.
* `Toml.Value.counts`: whether a value counts as true.
-/

namespace BnfSuppression.Toml

/-- A floating-point number as it is written. -/
inductive Floating
  /-- A coefficient times a power of ten. -/
  | finite (coefficient : Int) (exponent : Int)
  | infinite (negative : Bool)
  | notANumber
  deriving DecidableEq, Repr

/-- A value of a configuration file. Dates and times are kept as they are written. -/
inductive Value
  | text (s : String)
  | integer (n : Int)
  | floating (x : Floating)
  | boolean (b : Bool)
  | date (s : String)
  | time (s : String)
  | dateTime (s : String)
  | array (vs : List Value)
  | table (entries : List (String × Value))
  | absent
  deriving Repr, Inhabited

/-- The entries of a table in their order. -/
abbrev Table := List (String × Value)

/-- The value of a key. -/
def Table.get? (t : Table) (key : String) : Option Value := t.lookup key

/-- The table with a value for a key: in the place of its former value, or at the end. -/
def Table.put (t : Table) (key : String) (v : Value) : Table :=
  if t.any (·.1 == key) then t.map fun e => if e.1 == key then (key, v) else e else t ++ [(key, v)]

/-- The absolute value is so small that the nearest double-precision number is zero: at most
`2 ^ (-1075)`. The number of digits settles all but the closest cases. -/
def Floating.roundsToZero : Floating → Bool
  | finite coefficient exponent =>
    let magnitude := exponent + (toString coefficient.natAbs).length
    coefficient = 0 || magnitude < -400 ||
      (magnitude < -300 && coefficient.natAbs <<< 1075 ≤ Nat.pow 10 (-exponent).toNat)
  | infinite _ | notANumber => false

namespace Value

/-- How messages name the type of a value. -/
def typeName : Value → String
  | text _ => "str"
  | integer _ => "int"
  | floating _ => "float"
  | boolean _ => "bool"
  | date _ => "date"
  | time _ => "time"
  | dateTime _ => "datetime"
  | array _ => "list"
  | table _ => "dict"
  | absent => "NoneType"

/-- Whether a value counts as true: zero and what is empty do not. -/
def counts : Value → Bool
  | text s => s != ""
  | integer n => n != 0
  | floating x => !x.roundsToZero
  | boolean b => b
  | date _ | time _ | dateTime _ => true
  | array vs => !vs.isEmpty
  | table entries => !entries.isEmpty
  | absent => false

/-- The entries of a table. -/
def table? : Value → Option Table
  | table entries => some entries
  | _ => none

/-- The text of a value that is one. -/
def text? : Value → Option String
  | text s => some s
  | _ => none

end Value

end BnfSuppression.Toml
