import BnfSuppression.CommandLine.Run

/-!
# The program

The program looks at the files that its arguments may name and at the configuration files around its
working directory, makes the run on what it saw, writes the files that the run changed, and prints
what the run printed. A file that cannot be written makes it take the run back and make it anew with
that failure.

## Main definitions

* `Program.observe`: the files that the program sees.
* `Program.perform`: a run together with its effects.
-/

namespace BnfSuppression.Program

open CommandLine (Environment Outcome)
open Files (Access Disk Host Path Place Trouble)

/-! ### Looking at files -/

/-- What is at a path. -/
inductive Sight
  | nothing
  | directory
  | file (bytes : ByteArray) (writable : Bool)
  /-- A file that may not be read. -/
  | unreadable
  /-- Something in a directory that may not be searched. -/
  | hidden

/-- The file can be opened for writing. -/
def isWritable (path : String) : IO Bool := do
  try
    IO.FS.withFile path .readWrite fun _ => pure ()
    return true
  catch _ => return false

/-- The path leads somewhere. -/
def leads (path : String) : IO Bool := do
  try
    discard (IO.FS.realPath path)
    return true
  catch _ => return false

/-- Looks at a path. -/
def look (path : String) : IO Sight := do
  try
    return .file (← IO.FS.readBinFile path) (← isWritable path)
  catch
    | .inappropriateType _ code _ => return if code = 21 then .directory else .nothing
    | .permissionDenied _ _ _ => return if ← leads path then .unreadable else .hidden
    | _ => return .nothing

/-- The paths that arguments may name: the arguments themselves, and the values in them. -/
def namedPaths (args : List String) : List Path :=
  args.flatMap fun arg =>
    Path.ofString arg :: ((CommandLine.splitOption arg).2.map Path.ofString).toList

/-- The configuration files that may be in a directory and around it. -/
def configurationPaths (here : Place) : List Path :=
  (Disk.upTo here).flatMap fun place =>
    [Path.ofPlace (place ++ [projectFileName]), Path.ofPlace (place ++ [ownFileName])]

/-- The directories that a path leads through. -/
def passed (h : Host) (p : Path) : List Place :=
  (List.range p.names.length).map fun n => h.placeOf { p with names := p.names.take n }

/-- What a program sees that is denied access to a path. -/
def deny (h : Host) (access : Access) (path : String) : Host :=
  { h with breakdowns := ⟨access, path, (Trouble.denied path).message⟩ :: h.breakdowns }

/-- What a program sees once it has looked at a path. -/
def record (h : Host) (p : Path) : Sight → Host
  | .nothing => h
  | .directory =>
    { h with disk.directories := h.placeOf p :: passed h p ++ h.disk.directories }
  | .file bytes writable =>
    { h with
      disk := ⟨passed h p ++ h.disk.directories, (h.placeOf p, bytes) :: h.disk.files⟩
      locked := if writable then h.locked else p.toString :: h.locked }
  | .unreadable =>
    deny { h with
      disk := ⟨passed h p ++ h.disk.directories, (h.placeOf p, .empty) :: h.disk.files⟩ }
      .read p.toString
  | .hidden =>
    { h with
      disk.directories := passed h p ++ h.disk.directories
      sealed := (h.placeOf p).dropLast :: h.sealed }

/-- The files that the program sees from a working directory. -/
def observe (here : Place) (args : List String) : IO Host := do
  let start : Host := ⟨.ofFiles here [], here, [], [], []⟩
  (configurationPaths here ++ namedPaths args).foldlM (fun h p => do
    return record h p (← look p.toString)) start

/-! ### Effects -/

/-- Writes the files of one disk that differ from those of another. The failure of the first that
cannot be written, with its place. -/
def store (before after : Disk) : IO (Option Place) := do
  for (place, bytes) in after.files do
    if before.file? place != some bytes then
      try
        IO.FS.writeBinFile (Path.ofPlace place).toString bytes
      catch _ => return some place
  return none

/-- Makes a run and writes the files that it changed. -/
def perform (h : Host) (env : Environment) (args : List String) : IO Outcome := do
  let o := CommandLine.run .standard h env args
  match ← store h.disk o.host.disk with
  | none => return o
  | some place =>
    let path := (((namedPaths args).find? fun p => h.placeOf p == place).getD
      (Path.ofPlace place)).toString
    return CommandLine.run .standard (deny h .write path) env args

/-- The environment of the program. -/
def environment : IO Environment := do
  return ⟨← IO.getEnv "QUIETMARK_LOG_LEVEL", ← IO.getEnv "FORCE_COLOR", ← IO.getEnv "NO_COLOR",
    ← (← IO.getStdout).isTty⟩

/-- What is printed about the way in which a run ended. -/
def lastWords : CommandLine.Ending → String
  | .misuse => CommandLine.usageText
  | .collapse cause => cause.message ++ "\n"
  | .exit _ | .report _ _ => ""

end BnfSuppression.Program

open BnfSuppression in
/-- The program. -/
def main (args : List String) : IO UInt32 := do
  let here := (Files.Path.ofString (toString (← IO.currentDir))).names
  let o ← Program.perform (← Program.observe here args) (← Program.environment) args
  IO.print o.out
  IO.eprint (o.err ++ Program.lastWords o.ending)
  return UInt32.ofNat o.ending.number
