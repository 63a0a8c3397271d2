import DuplicateBlocks.Glob.Expression
import DuplicateBlocks.Glob.Kind
import DuplicateBlocks.Glob.Parser
import DuplicateBlocks.Text.Blank

namespace DuplicateBlocks.Ignore

structure Rule where
  -- The rule takes back what earlier ones say.
  isException : Bool
  onlyDirectories : Bool
  glob : List Glob.Token
  deriving Repr

-- A line that is no rule.
structure LineFault where
  line : String
  fault : Glob.Fault
  deriving DecidableEq, Repr

def LineFault.message (f : LineFault) : String :=
  "error parsing glob '" ++ f.line ++ "': " ++ f.fault.message

-- The part of a line that counts: without the blanks at its end, unless the last one is escaped.
def significant (line : List Char) : List Char :=
  if ['\\', ' '].isSuffixOf line then line else Text.trimEnd line

-- A line taken apart: exception or not, tied to the top or not, and the rest.
def unmark : List Char → Bool × Bool × List Char
  | '\\' :: '!' :: cs => (false, false, '!' :: cs)
  | '\\' :: '#' :: cs => (false, false, '#' :: cs)
  | '!' :: '/' :: cs => (true, true, cs)
  | '!' :: cs => (true, false, cs)
  | '/' :: cs => (false, true, cs)
  | cs => (false, false, cs)

-- The rest of a line without a slash at its end, and whether there was one. An escape before it goes too.
def dropSlash (cs : List Char) : Bool × List Char :=
  match cs.reverse with
  | '/' :: '\\' :: back => (true, back.reverse)
  | '/' :: back => (true, back.reverse)
  | _ => (false, cs)

-- The glob of a line: one without a slash matches at any depth, and one that ends in `/**` matches what is
-- inside a directory only.
def globText (anchored : Bool) (cs : List Char) : List Char :=
  let anywhere := ['*', '*', '/']
  let deep :=
    if anchored || cs.contains '/' || cs == ['*', '*'] || anywhere.isPrefixOf cs then cs else anywhere ++ cs
  if ['/', '*', '*'].isSuffixOf deep then deep ++ ['/', '*'] else deep

-- The rule on a line. Comments and blank lines have none.
def Rule.ofLine (line : List Char) : Except LineFault (Option Rule) :=
  if line.head? == some '#' then .ok none
  else
    let kept := significant line
    if kept.isEmpty then .ok none
    else
      let (isException, anchored, rest) := unmark kept
      let (onlyDirectories, rest) := dropSlash rest
      match Glob.parse (globText anchored rest) with
      | .error e => .error ⟨String.ofList kept, e⟩
      | .ok glob => .ok (some { isException, onlyDirectories, glob })

namespace Rule

def covers (r : Rule) (isDirectory : Bool) (path : List UInt8) : Bool :=
  (isDirectory || !r.onlyDirectories) && Glob.covers r.glob path

end Rule

-- Why rules cannot be used together: one of them nests too deep.
inductive SetFault where
  -- The rule at a position among those that only an expression can tell.
  | tooDeep (position : Nat)
  -- A rule with an extension at its end, by its expression.
  | tooDeepBeforeExtension (expression : String)
  deriving DecidableEq, Repr

def SetFault.message : SetFault → String
  | tooDeep position => "error parsing pattern " ++ Nat.repr position
  | tooDeepBeforeExtension expression => "error parsing glob '" ++ expression ++ "': error parsing pattern 0"

-- What keeps rules from being used together. Those with an extension at their end are looked at first. Names
-- and texts take no expression, and cannot nest too deep.
def setFault? (rules : List Rule) : Option SetFault :=
  let expressions (fixesExtension : Bool) : List (List Glob.Token) :=
    (rules.map Rule.glob).filter fun glob => Glob.kind glob == .expression fixesExtension
  match (expressions true).find? Glob.isTooDeep with
  | some glob => some (.tooDeepBeforeExtension (Glob.expressionText glob))
  | none => ((expressions false).findIdx? Glob.isTooDeep).map .tooDeep

inductive Verdict where
  | ignored
  | kept
  deriving DecidableEq, Repr

-- What a list of rules says of a path.
def verdict? (rules : List Rule) (isDirectory : Bool) (path : String) : Option Verdict :=
  let bytes := Text.Utf8.encode path.toList
  (rules.reverse.find? (·.covers isDirectory bytes)).map fun r => if r.isException then .kept else .ignored

end DuplicateBlocks.Ignore
