import DuplicateBlocks.Command.Arguments
import DuplicateBlocks.Discovery.Staged
import DuplicateBlocks.Json.Printer
import DuplicateBlocks.Options.File
import DuplicateBlocks.Report.Text

namespace DuplicateBlocks.Command

-- What a run can see of the world.
structure World where
  top : Tree.Node
  -- The working directory, as a path free of links.
  directory : String
  tools : Discovery.Toolbox := {}
  -- The file with the user's own ignore rules, if there is one.
  globalIgnoreFile : Option String := none

structure Result where
  exit : Nat := 0
  output : String := ""
  errors : String := ""
  -- What is noted in the log along the way.
  log : List Options.Warning := []
  deriving DecidableEq, Repr

inductive Failure where
  | options (f : Options.FileFault)
  | root (f : Discovery.RootFault)
  | listing (f : Discovery.ListingFault)
  deriving DecidableEq, Repr

def Failure.message : Failure → String
  | options f => f.message
  | root f => f.message
  | listing f => f.message

structure Findings where
  scan : Scan := {}
  ledger : Discovery.Ledger := {}

namespace World

-- A path given by hand, taken from the working directory and freed of links as far as it exists.
def resolve (w : World) (path : String) : String :=
  Tree.resolved w.top (Path.join w.directory path)

-- What lies at a path given by hand, seen as a file to be read.
def finding (w : World) (path : String) : Discovery.Finding :=
  if path == "" then .missing .notFound else .at w.top (Path.join w.directory path)

end World

namespace Invocation

-- The options of a run: those given as arguments go before those in a file.
def rawOptions (i : Invocation) (w : World) : Except Failure Options.Raw :=
  match i.config with
  | none => .ok i.options
  | some path => match Options.load w.top (w.resolve path) with
    | .error e => .error (.options e)
    | .ok file => .ok (file.overlay i.options)

def scanHaul (i : Invocation) (s : Settings) (haul : Discovery.Haul) : Findings where
  scan := if i.perFile then Scan.each s haul.files else Scan.pooled s haul.files
  ledger := haul.ledger

def scanFile (i : Invocation) (w : World) (s : Settings) (file : String) : Findings :=
  let (text, ledger) := Discovery.Ledger.read {} (i.discovery s) (w.finding file)
  match text with
  | none => { ledger }
  | some text => { ledger, scan := Scan.first s { id := Path.ruleId file w.directory, text } }

def findings (i : Invocation) (w : World) (s : Settings) : Except Failure Findings :=
  match i.mode with
  | .rule file => .ok (i.scanFile w s file)
  | .staged => match Discovery.searchStaged w.top w.tools (i.discovery s) w.directory with
    | .error e => .error (.listing e)
    | .ok haul => .ok (i.scanHaul s haul)
  | .roots =>
    let o := { i.discovery s with globalIgnoreFile := w.globalIgnoreFile }
    match Discovery.search w.top w.directory o (i.roots.map w.resolve) with
    | .error e => .error (.root e)
    | .ok haul => .ok (i.scanHaul s haul)

-- What is printed about the findings, and the exit code that tells whether there were groups.
def report (i : Invocation) (f : Findings) : Result :=
  let entries := f.scan.groups.map Report.Entry.ofGroup
  let exit := if entries.isEmpty || i.warnOnly then 0 else 1
  if i.json then
    let json :=
      if i.stats then Report.fullJson entries (some f.ledger) f.scan.counters else Report.entriesJson entries
    { exit, output := json.render ++ "\n" }
  else
    { exit
      output := Report.entriesText entries
      errors := if i.stats then Report.statsText (some f.ledger) f.scan.counters else "" }

def run (i : Invocation) (w : World) : Except Failure Result := do
  let (s, warnings) := (← i.rawOptions w).resolve
  let result := i.report (← i.findings w s)
  return { result with log := if i.verbosity == .quiet then [] else warnings }

end Invocation

def run (w : World) (args : List String) : Result :=
  match Request.ofArguments args with
  | .error e => { exit := 2, output := helpText, errors := "Error: " ++ e.message ++ "\n\n" }
  | .ok .help => { output := helpText }
  | .ok .version => { output := programName ++ " " ++ version ++ "\n" }
  | .ok (.run i) => match i.run w with
    | .ok result => result
    | .error e => { exit := 1, errors := "Error: " ++ e.message ++ "\n" }

end DuplicateBlocks.Command
