import BnfSuppression.Files.Disk
import BnfSuppression.Settings.Layer
import BnfSuppression.Toml.Format

/-!
# Sources of settings

Settings come from configuration files. Such a file is a table with a section of settings; in a
project file, which other tools share, that table lies deeper. Files are found on the way up from a
directory, until one of them says that it is at the root; files nearer to the start count more, and
within a directory the file of the project less.

A file on the way up that cannot be used is passed over. Whether it is there has to be known,
though: the search fails at a path that cannot be looked up.

## Main definitions

* `Layer.ofTable`: the layer that a table gives.
* `LoadFailure`: why a file gives no layer.
* `Layer.load`: the layer of a file.
* `discover`: the files on the way up.
* `loadMerged`: the standard layer with those of all files over it.
-/

namespace BnfSuppression

open Files (Host Path Place)
open Toml (Table)

/-! ### Tables -/

/-- The layer with one entry of the section of settings. An unknown key, or a value that is no text,
is noted and otherwise ignored. -/
def Layer.addEntry (l : Layer) (entry : String × Toml.Value) : Layer :=
  match Key.ofName? entry.1, entry.2.text? with
  | none, _ => l.note (.unknownKey entry.1)
  | some _, none => l.note (.notText entry.1 entry.2.typeName)
  | some key, some value => l.set key (some value)

/-- The layer that a table gives: that of the entries of its section, which may be missing; a
section that is no table is noted. -/
def Layer.ofTable (t : Table) : Layer :=
  match (t.get? sectionName).getD (.table []) with
  | .table entries => entries.foldl Layer.addEntry .empty
  | _ => Layer.empty.note .notATable

/-- The entries that settings are written as. -/
def Settings.toTable (s : Settings) : Table :=
  [(sectionName, .table (Key.all.map fun key => (key.name, .text (s.get key))))]

/-- The settings as a configuration file. -/
def Settings.toToml (toml : Toml.Format) (s : Settings) : String := toml.write s.toTable

/-! ### Files -/

/-- The name of the configuration files of projects. -/
def projectFileName : String := "pyproject.toml"

/-- The name of the program's own configuration files. -/
def ownFileName : String := "quietmark.toml"

/-- Why a configuration file gives no layer. -/
inductive LoadFailure
  | unreadable (path : String) (trouble : Files.Trouble)
  /-- The file is not well-formed. -/
  | invalid (path : String)
  /-- The bytes of the file spell no text. -/
  | undecodable (e : Text.DecodeError)
  /-- A key is given twice in a section. -/
  | duplicateKey (key : String)
  /-- A table made by a dotted key is given again in a section. -/
  | redefined
  /-- It cannot be told whether the file is there, or its path is none. -/
  | lookup (trouble : Files.Trouble)

namespace LoadFailure

/-- The message of a failure. -/
def message : LoadFailure → String
  | unreadable path trouble => "Cannot read config file " ++ path ++ ": " ++ trouble.message
  | invalid path => "Invalid TOML in " ++ path
  | undecodable e => e.message
  | duplicateKey key => "Key \"" ++ key ++ "\" already exists."
  | redefined => "Redefinition of an existing table"
  | lookup trouble => trouble.message

/-- The program reports this failure; any other one ends it. -/
def isReported : LoadFailure → Bool
  | unreadable _ _ | invalid _ => true
  | undecodable _ | duplicateKey _ | redefined | lookup _ => false

end LoadFailure

variable (toml : Toml.Format)

/-- The table that a configuration file stands for. Only files that cannot be read and texts that
are not well-formed are failures of the kind that is reported. -/
def loadTable (h : Host) (p : Path) : Except LoadFailure Table :=
  match h.readText p with
  | .error (.trouble .nullCharacter) => .error (.lookup .nullCharacter)
  | .error (.trouble t) => .error (.unreadable p.toString t)
  | .error (.encoding e) => .error (.undecodable e)
  | .ok text => match toml.read text with
    | .ok t => .ok t
    | .error (.duplicateKey key) => .error (.duplicateKey key)
    | .error .redefined => .error .redefined
    | .error .malformed => .error (.invalid p.toString)

/-- The table of the program in that of a file: all of it, or a table of the program's own in the
file of a project. -/
def programTable? (p : Path) (t : Table) : Option Table :=
  if p.name = projectFileName then do
    let tools ← (← t.get? "tool").table?
    (← Table.get? tools "quietmark").table?
  else some t

/-- The layer of a configuration file, with the file as its source; the file of a project may have
none. -/
def Layer.load (h : Host) (p : Path) : Except LoadFailure (Option Layer) := do
  let t ← loadTable toml h p
  return (programTable? p t).map fun t => { Layer.ofTable t with sources := [p.toString] }

/-! ### Finding files -/

/-- What the files of one directory say: those that count, and whether the way up ends here. -/
structure Found where
  paths : List Path
  atRoot : Bool

/-- Looks at a configuration file on the way up. One that is not there, cannot be read, or is not
well-formed, is passed over. -/
def examine (h : Host) (place : Place) : Except LoadFailure Found := do
  let p := Path.ofPlace place
  if !(← (h.isFile p).mapError .lookup) then return ⟨[], false⟩
  match loadTable toml h p with
  | .error e => if e.isReported then return ⟨[], false⟩ else throw e
  | .ok t => match programTable? p t with
    | none => return ⟨[], false⟩
    | some t => return ⟨[p], (t.get? "root").any Toml.Value.counts⟩

/-- Looks at the configuration files in a directory, first that of the project and then the
program's own; either may end the way up. -/
def examineDirectory (h : Host) (place : Place) : Except LoadFailure Found := do
  let project ← examine toml h (place ++ [projectFileName])
  let own ← examine toml h (place ++ [ownFileName])
  return ⟨project.paths ++ own.paths, project.atRoot || own.atRoot⟩

/-- The configuration files on the way up from a directory, given by its names from the last one on;
the outermost first. -/
def discoverFrom (h : Host) : List String → Except LoadFailure (List Path)
  | [] => Found.paths <$> examineDirectory toml h []
  | name :: outer => do
    let found ← examineDirectory toml h (name :: outer).reverse
    if found.atRoot then return found.paths
    return (← discoverFrom h outer) ++ found.paths

/-- The directory that the way up starts in: that of a path, or that around a file. -/
def startDirectory (h : Host) (start : Path) : Except LoadFailure Place := do
  let place ← (h.resolve start).mapError .lookup
  let isFile ← (h.isFile (.ofPlace place)).mapError .lookup
  return if isFile then place.dropLast else place

/-- The configuration files on the way up from a path, or from the directory of a file; the
outermost first. -/
def discover (h : Host) (start : Path) : Except LoadFailure (List Path) := do
  discoverFrom toml h (← startDirectory h start).reverse

/-! ### All layers -/

/-- Lays the layers of files over a layer, up to the first file that gives a failure. -/
def mergeFiles (h : Host) (l : Layer) : List Path → Layer × Option LoadFailure
  | [] => (l, none)
  | p :: ps =>
    match Layer.load toml h p with
    | .error e => (l, some e)
    | .ok none => mergeFiles h l ps
    | .ok (some upper) => mergeFiles h (l.merge upper) ps

/-- The standard layer with those of the files on the way up from a start over it, and those of
further files over these; up to the first failure. -/
def loadMerged (h : Host) (start? : Option Path) (further : List Path) :
    Layer × Option LoadFailure :=
  match start?.elim (.ok []) (discover toml h) with
  | .error e => (.standard, some e)
  | .ok found => mergeFiles toml h .standard (found ++ further)

end BnfSuppression
