import DuplicateBlocks.Discovery.Search

namespace DuplicateBlocks.Discovery

structure Ending where
  -- The exit status; none if a signal ended it.
  status : Option Nat
  output : List UInt8
  errors : List UInt8

inductive ProgramFile where
  -- A script with permission bits, and how it ends when it runs.
  | script (mode : Nat) (ending : Ending)
  | link
  | directory
  | missing

-- A program named in the environment in place of the usual one.
structure CustomProgram where
  path : String
  file : ProgramFile

namespace CustomProgram

def anyoneExecutes : Nat := 0o111

def othersWrite : Nat := 0o002

def ownerExecutes : Nat := 0o100

def ownerReads : Nat := 0o400

-- Whether a program may stand in for the usual one: an executable file under an absolute path, which not
-- just anyone may write to.
def isAcceptable (p : CustomProgram) : Bool :=
  match p.file with
  | .script mode _ => Path.isAbsolute p.path && mode &&& anyoneExecutes != 0 && mode &&& othersWrite == 0
  | _ => false

-- Starts a program as its owner. A script has to be read by the shell as well.
def start (p : CustomProgram) : Except Tree.Fault Ending :=
  match p.file with
  | .script mode ending =>
    if mode &&& ownerExecutes == 0 then .error .permissionDenied
    else if mode &&& ownerReads == 0 then
      .ok {
        status := some 2
        output := []
        errors := Text.Utf8.encode ("/bin/sh: 0: cannot open " ++ p.path ++ ": Permission denied\n").toList }
    else .ok ending
  | _ => .error .notFound

end CustomProgram

-- The programs at hand to list staged files.
structure Toolbox where
  -- How the usual program ends; none if there is none.
  usual : Option Ending := none
  -- The permission to use another program, as written in the environment.
  permission : Option String := none
  custom : Option CustomProgram := none

namespace Toolbox

def chosen? (t : Toolbox) : Option CustomProgram :=
  if t.permission == some "1" then t.custom.filter (·.isAcceptable) else none

def run (t : Toolbox) : Except Tree.Fault Ending :=
  match t.chosen? with
  | some p => p.start
  | none => match t.usual with
    | some ending => .ok ending
    | none => .error .notFound

end Toolbox

inductive ListingFault where
  | notStarted (fault : Tree.Fault)
  | failed (root : String) (status : Option Nat) (errors : List Char)
  deriving DecidableEq, Repr

def statusText : Option Nat → String
  | some n => "Some(" ++ Nat.repr n ++ ")"
  | none => "None"

def ListingFault.message : ListingFault → String
  | notStarted f => "failed to run git: " ++ f.message
  | failed root status errors =>
    "git diff --cached failed in " ++ root ++ " (status=" ++ statusText status ++ "): " ++ String.ofList errors

-- The paths in a listing, which ends each of them with a zero byte. What is no text is left out.
def listedPaths (output : List UInt8) : List String :=
  let names := (Text.pieces (· == 0) output).filter fun name => !name.isEmpty
  (names.filterMap Text.Utf8.decode?).map String.ofList

def Toolbox.stagedPaths (t : Toolbox) (root : String) : Except ListingFault (List String) := do
  let ending ← t.run.mapError .notStarted
  if ending.status == some 0 then return listedPaths ending.output
  else throw (.failed root ending.status (Text.trim (Text.Utf8.decodeLossy ending.errors)))

def stagedEvent (top : Tree.Node) (root path : String) : Event :=
  if Path.isSafeRelative path then .file path path none (.at top (Path.join root path)) else .outside

def searchStaged (top : Tree.Node) (t : Toolbox) (o : Options) (root : String) : Except ListingFault Haul := do
  return Haul.ofEvents o {} ((← t.stagedPaths root).map (stagedEvent top root))

end DuplicateBlocks.Discovery
