import BnfSuppression.Text.Quoted
import BnfSuppression.Toml.Value

/-!
# Writing configuration files

A table is written as its entries that are neither tables nor lists of tables, and then those that
are, each with a header that spells the keys of all tables around it. In a table of a list, lists of
tables come before tables. A table that holds nothing but tables and lists of tables needs no
header. A blank line sets a table off from what is written before it in the table around it, and a
list of tables if one of the entries before it sets it off: only their order in the table counts, not
the order in which they are written. Lists that are not lists of tables, and tables in them, are
written on one line. Absent values are left out.

## Main definitions

* `Toml.inline`: a value on one line.
* `Toml.block`: a table or a list of tables with its headers; `Toml.write`: a table as a file.
-/

namespace BnfSuppression.Toml

/-! ### Keys and texts -/

/-- The letters of escapes, by the character they stand for. -/
def escapeLetters : List (Char × Char) :=
  [('\x08', 'b'), ('\t', 't'), ('\n', 'n'), ('\x0c', 'f'), ('\r', 'r'), ('"', '"'), ('\\', '\\')]

/-- A character as it is written in quotes. -/
def escapeChar (c : Char) : List Char :=
  match escapeLetters.lookup c with
  | some letter => ['\\', letter]
  | none => if c.toNat < 0x20 || c.toNat = 0x7F then '\\' :: 'u' :: Text.hex 4 c.toNat else [c]

/-- A text in double quotes. -/
def inQuotes (s : String) : String :=
  "\"" ++ String.ofList (s.toList.flatMap escapeChar) ++ "\""

/-- A key: bare if it can be, and in quotes otherwise. -/
def writeKey (key : String) : String :=
  if !key.isEmpty && key.toList.all fun c => c.isAlphanum || c == '-' || c == '_' then key
  else inQuotes key

/-- The keys of a header. -/
def writePath (path : List String) : String := ".".intercalate (path.map writeKey)

/-! ### What is written how -/

/-- The value is a table. -/
def Value.isTable : Value → Bool
  | table _ => true
  | _ => false

/-- The value is a list that can be written with a header for each element. -/
def Value.isTableList : Value → Bool
  | array vs => !vs.isEmpty && vs.all isTable
  | _ => false

mutual

/-- A value without the absent values in it. -/
def Value.present : Value → Value
  | .array vs => .array (presentList vs)
  | .table entries => .table (presentEntries entries)
  | v => v

/-- Values without the absent ones. -/
def presentList : List Value → List Value
  | [] => []
  | .absent :: vs => presentList vs
  | v :: vs => v.present :: presentList vs

/-- Entries without those that have no value. -/
def presentEntries : List (String × Value) → List (String × Value)
  | [] => []
  | (_, .absent) :: es => presentEntries es
  | (key, v) :: es => (key, v.present) :: presentEntries es

end

/-! ### Values on one line -/

/-- A floating-point number. -/
def writeFloating : Floating → String
  | .finite coefficient exponent => toString coefficient ++ "e" ++ toString exponent
  | .infinite negative => if negative then "-inf" else "inf"
  | .notANumber => "nan"

mutual

/-- A value on one line. The entries of a table that is an element of a list are separated by a
comma and a space, those of any other table by a comma alone. -/
def inline (inList : Bool) : Value → String
  | .text s => inQuotes s
  | .integer n => toString n
  | .floating x => writeFloating x
  | .boolean b => if b then "true" else "false"
  | .date s | .time s | .dateTime s => s
  | .array vs => "[" ++ ", ".intercalate (inlineList vs) ++ "]"
  | .table entries =>
    "\x7b" ++ (if inList then ", " else ",").intercalate (inlineEntries entries) ++ "\x7d"
  | .absent => ""

/-- The elements of a list. -/
def inlineList : List Value → List String
  | [] => []
  | v :: vs => inline true v :: inlineList vs

/-- The entries of a table. -/
def inlineEntries : List (String × Value) → List String
  | [] => []
  | (key, v) :: es => (writeKey key ++ " = " ++ inline false v) :: inlineEntries es

end

/-! ### Tables -/

/-- A blank line, if asked for. -/
def blankLine (wanted : Bool) : String := if wanted then "\n" else ""

/-- What is written with headers: tables and lists of tables. -/
def Value.hasHeader (v : Value) : Bool := v.isTable || v.isTableList

/-- Whether a table needs no header: it holds what has headers of its own, and nothing else. -/
def isImplicit (entries : Table) : Bool :=
  !entries.isEmpty && entries.all fun (_, v) => v.hasHeader

/-- The table holds something that is no table. -/
def hasLists (entries : Table) : Bool := entries.any fun (_, v) => !v.isTable

/-- The table holds something that is written on one line. -/
def hasLines (entries : Table) : Bool := entries.any fun (_, v) => !v.hasHeader

/-- Which entries of a table are written. -/
inductive Choice
  /-- Tables and lists of tables. -/
  | all
  /-- Lists of tables. -/
  | lists
  /-- Tables. -/
  | tables
  deriving DecidableEq

/-- The entry is chosen. -/
def Choice.takes : Choice → Value → Bool
  | all, v => v.hasHeader
  | lists, v => v.isTableList
  | tables, v => v.isTable

mutual

/-- A table or a list of tables with its headers, given the path to it and whether a blank line sets
it off. -/
def block (path : List String) (apart : Bool) : Value → String
  | .table entries =>
    blankLine apart ++ (if isImplicit entries then "" else "[" ++ writePath path ++ "]\n") ++
      lines entries ++ blocks path .all (hasLines entries) false entries
  | .array vs => elements path apart vs
  | _ => ""

/-- The elements of a list of tables. An element is set off if one that is not empty comes right
before it. -/
def elements (path : List String) (apart : Bool) : List Value → String
  | [] => ""
  | .table entries :: vs =>
    blankLine apart ++ "[[" ++ writePath path ++ "]]\n" ++ lines entries ++
      blocks path .lists false false entries ++
      blocks path .tables (hasLists entries) false entries ++
      elements path (!entries.isEmpty) vs
  | _ :: vs => elements path apart vs

/-- The entries of a table that are written on one line. -/
def lines : List (String × Value) → String
  | [] => ""
  | (key, v) :: es =>
    (if v.hasHeader then "" else writeKey key ++ " = " ++ inline false v ++ "\n") ++ lines es

/-- The chosen entries of a table with their headers, given whether something is written before them
and whether one of the entries before them sets off what follows. A chosen entry does so, and so does
any that is no table. -/
def blocks (path : List String) (choice : Choice) (below apart : Bool) :
    List (String × Value) → String
  | [] => ""
  | (key, v) :: es =>
    if choice.takes v then
      block (path ++ [key]) (apart || (below && v.isTable)) v ++ blocks path choice below true es
    else blocks path choice below (apart || !v.isTable) es

end

/-- A table as a file. -/
def write (entries : Table) : String :=
  let entries := presentEntries entries
  lines entries ++ blocks [] .all (hasLines entries) false entries

end BnfSuppression.Toml
