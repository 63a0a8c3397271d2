import DuplicateBlocks.Command.Usage
import DuplicateBlocks.Discovery.Options
import DuplicateBlocks.Number.Decimal
import DuplicateBlocks.Options.Resolution

namespace DuplicateBlocks.Command

inductive ValueOption where
  | rule
  | config
  | minLines
  | threshold
  | exclude
  | maxBlocks
  | maxComparisons
  | extension
  | ignoreDirectory
  | maxFileSize
  | maxFiles
  | maxTotalBytes
  deriving DecidableEq, Repr

inductive Switch where
  | staged
  | perFile
  | noIgnoreFiles
  | json
  | stats
  | warnOnly
  | verbose
  | quiet
  deriving DecidableEq, Repr

namespace ValueOption

def all : List ValueOption :=
  [rule, config, minLines, threshold, exclude, maxBlocks, maxComparisons, extension, ignoreDirectory, maxFileSize,
    maxFiles, maxTotalBytes]

def name : ValueOption → String
  | rule => "--rule"
  | config => "--config"
  | minLines => "--min-lines"
  | threshold => "--threshold"
  | exclude => "--exclude"
  | maxBlocks => "--max-blocks"
  | maxComparisons => "--max-comparisons"
  | extension => "--ext"
  | ignoreDirectory => "--ignore-dir"
  | maxFileSize => "--max-file-size"
  | maxFiles => "--max-files"
  | maxTotalBytes => "--max-total-bytes"

def ofName? (s : String) : Option ValueOption :=
  all.find? (·.name == s)

end ValueOption

namespace Switch

def all : List Switch :=
  [staged, perFile, noIgnoreFiles, json, stats, warnOnly, verbose, quiet]

def names : Switch → List String
  | staged => ["--staged"]
  | perFile => ["--per-file"]
  | noIgnoreFiles => ["--no-gitignore"]
  | json => ["--json"]
  | stats => ["--stats"]
  | warnOnly => ["--warn-only"]
  | verbose => ["-v", "--verbose"]
  | quiet => ["-q", "--quiet"]

def ofName? (s : String) : Option Switch :=
  all.find? (·.names.contains s)

end Switch

-- What the arguments read so far ask for.
structure Draft where
  roots : List String := []
  rule : Option String := none
  config : Option String := none
  minLines : Option Nat := none
  threshold : Option Binary64 := none
  excludes : List String := []
  maxBlocks : Option Nat := none
  maxComparisons : Option Nat := none
  extensions : List String := []
  ignoredDirectories : List String := []
  maxFileSize : Option Nat := none
  maxFiles : Option Nat := none
  maxTotalBytes : Option Nat := none
  switches : List Switch := []

-- The natural number below 2^64 that a text spells, with or without a plus sign.
def natural? (s : String) : Option Nat :=
  let digits := match s.toList with
    | '+' :: ds => ds
    | ds => ds
  if digits.isEmpty || !digits.all Char.isDigit then none
  else
    let n := Decimal.cappedValue 0x10000000000000000 digits
    if n < 0x10000000000000000 then some n else none

def readNatural (option value : String) : Except UsageError Nat :=
  match natural? value with
  | some n => .ok n
  | none => .error (.notAnInteger option)

def readPositive (option value : String) : Except UsageError Nat := do
  let n ← readNatural option value
  if n = 0 then .error (.belowOne option) else return n

def readMinLines (option value : String) : Except UsageError Nat := do
  let n ← readPositive option value
  if Options.maxMinLines < n then .error (.aboveMost option Options.maxMinLines) else return n

def readPercentage (option value : String) : Except UsageError Binary64 :=
  match Decimal.readBinary64? value.toList with
  | none => .error (.notANumber option)
  | some x => if Binary64.zero.le x && x.le .hundred then .ok x else .error (.notAPercentage option)

def readExtension (option value : String) : Except UsageError String :=
  let e := (Text.trim value.toList).dropWhile (· == '.')
  if e.isEmpty then .error (.emptyValue option) else .ok (String.ofList e)

namespace Draft

-- Takes up an option with its value. Of single values the latest counts; lists grow.
def set (d : Draft) (o : ValueOption) (value : String) : Except UsageError Draft := do
  match o with
  | .rule => return { d with rule := some value }
  | .config => return { d with config := some value }
  | .minLines => return { d with minLines := some (← readMinLines o.name value) }
  | .threshold => return { d with threshold := some (← readPercentage o.name value) }
  | .exclude => return { d with excludes := d.excludes ++ [value] }
  | .maxBlocks => return { d with maxBlocks := some (← readPositive o.name value) }
  | .maxComparisons => return { d with maxComparisons := some (← readPositive o.name value) }
  | .extension => return { d with extensions := d.extensions ++ [← readExtension o.name value] }
  | .ignoreDirectory => return { d with ignoredDirectories := d.ignoredDirectories ++ [value] }
  | .maxFileSize => return { d with maxFileSize := some (← readNatural o.name value) }
  | .maxFiles => return { d with maxFiles := some (← readNatural o.name value) }
  | .maxTotalBytes => return { d with maxTotalBytes := some (← readNatural o.name value) }

def turnOn (d : Draft) (s : Switch) : Draft :=
  if d.switches.contains s then d else { d with switches := s :: d.switches }

def isOn (d : Draft) (s : Switch) : Bool :=
  d.switches.contains s

def addRoots (d : Draft) (roots : List String) : Draft :=
  { d with roots := d.roots ++ roots }

end Draft

inductive Mode where
  | rule (file : String)
  | staged
  | roots
  deriving DecidableEq, Repr

inductive Verbosity where
  | quiet
  | normal
  | verbose
  deriving DecidableEq, Repr

structure Invocation where
  mode : Mode
  roots : List String
  perFile : Bool
  config : Option String
  options : Options.Raw
  extensions : List String
  ignoredDirectories : List String
  respectIgnoreFiles : Bool
  maxFileSize : Option Nat
  maxFiles : Option Nat
  maxTotalBytes : Option Nat
  json : Bool
  stats : Bool
  warnOnly : Bool
  verbosity : Verbosity

inductive Request where
  | run (i : Invocation)
  | help
  | version

namespace Draft

-- The option values of a draft, as a host would hand them over.
def options (d : Draft) : Options.Raw where
  minLines := d.minLines.map .nat
  threshold := d.threshold.map fun x => .number (.real x)
  excludePatterns := if d.excludes.isEmpty then none else some (.array (d.excludes.map .string))
  maxBlocks := d.maxBlocks.map .nat
  maxComparisons := d.maxComparisons.map .nat

def mode (d : Draft) : Mode :=
  match d.rule with
  | some file => .rule file
  | none => if d.isOn .staged then .staged else .roots

def conflict? (d : Draft) : Option UsageError :=
  if d.isOn .verbose && d.isOn .quiet then some .verboseAndQuiet
  else if d.rule.isSome && d.isOn .staged then some .ruleAndStaged
  else if (d.rule.isSome || d.isOn .staged) && !d.roots.isEmpty then some .rootsBesideMode
  else if d.rule.isSome && d.isOn .perFile then some .perFileWithRule
  else none

-- The invocation of a finished draft. Without a root the current directory is one.
def invocation (d : Draft) : Invocation where
  mode := d.mode
  roots := if d.mode == .roots && d.roots.isEmpty then ["."] else d.roots
  perFile := d.isOn .perFile
  config := d.config
  options := d.options
  extensions := d.extensions
  ignoredDirectories := d.ignoredDirectories
  respectIgnoreFiles := !d.isOn .noIgnoreFiles
  maxFileSize := d.maxFileSize
  maxFiles := d.maxFiles
  maxTotalBytes := d.maxTotalBytes
  json := d.isOn .json
  stats := d.isOn .stats
  warnOnly := d.isOn .warnOnly
  verbosity := if d.isOn .verbose then .verbose else if d.isOn .quiet then .quiet else .normal

end Draft

-- An argument of the form `--name=value` as name and value.
def splitInline (arg : String) : String × Option String :=
  let cs := arg.toList
  if ['-', '-'].isPrefixOf cs && cs.contains '=' then
    (String.ofList (cs.takeWhile (· != '=')), some (String.ofList ((cs.dropWhile (· != '=')).drop 1)))
  else (arg, none)

def isDashed (arg : String) : Bool :=
  match arg.toList with
  | '-' :: _ :: _ => true
  | _ => false

def Draft.finish (d : Draft) : Except UsageError Request :=
  match d.conflict? with
  | some e => .error e
  | none => .ok (.run d.invocation)

inductive Item where
  | value (option : ValueOption) (value : String)
  | switch (switch : Switch)
  | root (path : String)
  deriving DecidableEq, Repr

def Draft.take (d : Draft) : Item → Except UsageError Draft
  | .value o value => d.set o value
  | .switch s => .ok (d.turnOn s)
  | .root path => .ok (d.addRoots [path])

-- What an argument says on its own.
inductive Argument where
  | item (i : Item)
  -- An option that is given its value by the next argument.
  | opening (o : ValueOption)
  -- All arguments after it are roots.
  | dashes
  | help
  | version
  | fault (e : UsageError)
  deriving DecidableEq, Repr

def Argument.ofText (arg : String) : Argument :=
  if arg == "--" then .dashes
  else
    let (name, inline) := splitInline arg
    if name == "-h" || name == "--help" then .help
    else if name == "-V" || name == "--version" then .version
    else match ValueOption.ofName? name, inline with
      | some o, some value => .item (.value o value)
      | some o, none => .opening o
      | none, some _ => .fault (.takesNoValue name)
      | none, none => match Switch.ofName? name with
        | some s => .item (.switch s)
        | none => if isDashed name then .fault (.unknownOption name) else .item (.root name)

-- Reads arguments into a draft, the first of them as the value of an option that waits for one. Help and version cut
-- everything short.
def readArguments (d : Draft) : Option ValueOption → List String → Except UsageError Request
  | none, [] => d.finish
  | some o, [] => .error (.requiresValue o.name)
  | some o, arg :: rest => do readArguments (← d.take (.value o arg)) none rest
  | none, arg :: rest => match Argument.ofText arg with
    | .item i => do readArguments (← d.take i) none rest
    | .opening o => readArguments d (some o) rest
    | .dashes => (d.addRoots rest).finish
    | .help => .ok .help
    | .version => .ok .version
    | .fault e => .error e

def Request.ofArguments (args : List String) : Except UsageError Request :=
  readArguments {} none args

namespace Invocation

def discovery (i : Invocation) (s : Settings) : Discovery.Options where
  extensions := if i.extensions.isEmpty then Discovery.defaultExtensions else i.extensions
  ignoredDirectories := Discovery.defaultIgnoredDirectories ++ i.ignoredDirectories
  respectIgnoreFiles := i.respectIgnoreFiles
  maxFileSize := i.maxFileSize <|> some Discovery.defaultMaxFileSize
  maxFiles := i.maxFiles
  maxTotalBytes := i.maxTotalBytes
  excluded := s.excluded

end Invocation
end DuplicateBlocks.Command
