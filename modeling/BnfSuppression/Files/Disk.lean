import BnfSuppression.Files.Path
import BnfSuppression.Text.Lines
import BnfSuppression.Text.Quoted
import BnfSuppression.Text.Utf8

/-!
# Files

A disk holds files in directories. A program works in a directory of it, may be kept from searching
some directories and from writing some paths, and may meet with failures of the device at others.

Nothing at a path is no failure when a program asks whether there is a file. But a path that cannot
be followed, because a directory on the way may not be searched or a name is too long, is one.

## Main definitions

* `Disk`: files and directories by their places.
* `Host`: a disk as a program sees it.
* `Host.find`: the place that a path leads to.
* `Host.isFile`, `Host.hasEntry`: whether there is something at a path, if that can be told.
* `Host.readText`, `Host.writeText`: the text of a file.
-/

namespace BnfSuppression.Files

/-- Where something is on a disk: the names of the directories around it, and its own. -/
abbrev Place := List String

/-- Files and directories. -/
structure Disk where
  directories : List Place
  files : List (Place × ByteArray)

namespace Disk

/-- The directories around a place, the place itself included. -/
def upTo : Place → List Place
  | [] => [[]]
  | name :: place => [] :: (upTo place).map (name :: ·)

/-- The disk that holds files, and a directory. -/
def ofFiles (directory : Place) (files : List (Place × ByteArray)) : Disk :=
  ⟨upTo directory ++ files.flatMap fun f => upTo f.1.dropLast, files⟩

/-- The file at a place. -/
def file? (d : Disk) (place : Place) : Option ByteArray := d.files.lookup place

/-- There is a file at the place. -/
def isFile (d : Disk) (place : Place) : Bool := (d.file? place).isSome

/-- There is a directory at the place. -/
def isDirectory (d : Disk) (place : Place) : Bool := d.directories.contains place

/-- The disk with other bytes in the file at a place. -/
def write (d : Disk) (place : Place) (bytes : ByteArray) : Disk :=
  if d.isFile place then
    { d with files := d.files.map fun f => if f.1 == place then (place, bytes) else f }
  else { d with files := d.files ++ [(place, bytes)] }

end Disk

/-- What a program wants of a path. -/
inductive Access
  | look
  | read
  | write
  deriving DecidableEq, Repr

/-- A failure of the device: of an access to a path, with a message. -/
structure Breakdown where
  access : Access
  path : String
  message : String

/-- A disk as a program sees it. -/
structure Host where
  disk : Disk
  /-- The working directory. -/
  here : Place
  /-- The directories that may not be searched. -/
  sealed : List Place
  /-- The paths that may not be written. -/
  locked : List String
  breakdowns : List Breakdown

/-- Why a path cannot be used. -/
inductive Trouble
  | missing (path : String)
  | isDirectory (path : String)
  | notADirectory (path : String)
  /-- A directory on the way may not be searched. -/
  | denied (path : String)
  /-- A name on the way, or the whole path, is longer than file systems take it. -/
  | tooLong (path : String)
  /-- A name has a null character, so it is none for a file system. -/
  | nullCharacter
  | device (message : String)
  deriving DecidableEq, Repr

namespace Trouble

/-- The message of a failure. -/
def message : Trouble → String
  | missing path => "[Errno 2] No such file or directory: " ++ Text.quote path
  | isDirectory path => "[Errno 21] Is a directory: " ++ Text.quote path
  | notADirectory path => "[Errno 20] Not a directory: " ++ Text.quote path
  | denied path => "[Errno 13] Permission denied: " ++ Text.quote path
  | tooLong path => "[Errno 36] File name too long: " ++ Text.quote path
  | nullCharacter => "embedded null byte"
  | device message => message

/-- The failure says that there is nothing at the path. -/
def isAbsence : Trouble → Bool
  | missing _ | notADirectory _ | nullCharacter => true
  | isDirectory _ | denied _ | tooLong _ | device _ => false

end Trouble

/-- Why a text cannot be read: the file cannot, or its bytes spell no text. -/
inductive TextTrouble
  | trouble (t : Trouble)
  | encoding (e : Text.DecodeError)

namespace Host

/-- The failure that the device has in an access to a path. -/
def breakdownAt (h : Host) (access : Access) (p : Path) : Except Trouble Unit :=
  match h.breakdowns.find? fun b => b.access = access && b.path == p.toString with
  | some b => .error (.device b.message)
  | none => .ok ()

/-- The most bytes that a file system takes for a name. -/
def nameLimit : Nat := 255

/-- The most bytes that a file system takes for a path. -/
def pathLimit : Nat := 4095

/-- The place that names lead to from a directory. On the way there have to be directories that may
be searched. -/
def follow (h : Host) (path : String) (place : Place) : List String → Except Trouble Place
  | [] => .ok place
  | name :: names =>
    if h.disk.isDirectory place then
      if h.sealed.contains place then .error (.denied path)
      else if nameLimit < name.utf8ByteSize then .error (.tooLong path)
      else follow h path (if name = ".." then place.dropLast else place ++ [name]) names
    else if h.disk.isFile place then .error (.notADirectory path)
    else .error (.missing path)

/-- The place that a path leads to; there may be nothing at it. -/
def find (h : Host) (p : Path) : Except Trouble Place :=
  if p.hasNull then .error .nullCharacter
  else if pathLimit < p.toString.utf8ByteSize then .error (.tooLong p.toString)
  else h.follow p.toString (if p.isAbsolute then [] else h.here) p.names

/-- The place that a path leads to, if it leads to one. A failure remains if it does not say that
there is nothing at the path. -/
def lookUp (h : Host) (p : Path) : Except Trouble (Option Place) := do
  h.breakdownAt .look p
  match h.find p with
  | .ok place => return some place
  | .error t => if t.isAbsence then return none else throw t

/-- There is a file at the path. -/
def isFile (h : Host) (p : Path) : Except Trouble Bool :=
  return (← h.lookUp p).any h.disk.isFile

/-- There is a file or a directory at the path. -/
def hasEntry (h : Host) (p : Path) : Except Trouble Bool :=
  return (← h.lookUp p).any fun place => h.disk.isFile place || h.disk.isDirectory place

/-- There is a directory at the path. -/
def isDirectory (h : Host) (p : Path) : Bool :=
  match h.find p with
  | .ok place => h.disk.isDirectory place
  | .error _ => false

/-- The place of a path by its names alone. -/
def placeOf (h : Host) (p : Path) : Place :=
  p.names.foldl (fun place name => if name = ".." then place.dropLast else place ++ [name])
    (if p.isAbsolute then [] else h.here)

/-- The place of a path that file systems take. -/
def resolve (h : Host) (p : Path) : Except Trouble Place :=
  if p.hasNull then .error .nullCharacter else .ok (h.placeOf p)

/-- The path may be written. -/
def isWritable (h : Host) (p : Path) : Bool :=
  !h.locked.any fun path => (Path.ofString path).toString == p.toString

/-- The bytes of a file. -/
def readBytes (h : Host) (p : Path) : Except Trouble ByteArray := do
  h.breakdownAt .read p
  let place ← h.find p
  if h.disk.isDirectory place then throw (.isDirectory p.toString)
  match h.disk.file? place with
  | some bytes => return bytes
  | none => throw (.missing p.toString)

/-- The text of a file: its bytes spell characters, and its line breaks are line feeds. -/
def readText (h : Host) (p : Path) : Except TextTrouble String := do
  let bytes ← (h.readBytes p).mapError .trouble
  let cs ← (Text.decodeUtf8 bytes).mapError .encoding
  return String.ofList (Text.normalizeBreaks cs)

/-- Writes the text of a file. -/
def writeText (h : Host) (p : Path) (text : String) : Except Trouble Host := do
  h.breakdownAt .write p
  let place ← h.find p
  if h.disk.isDirectory place then throw (.isDirectory p.toString)
  return { h with disk := h.disk.write place text.toUTF8 }

end Host

end BnfSuppression.Files
