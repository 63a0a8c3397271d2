import DuplicateBlocks.Ignore.Rule
import DuplicateBlocks.Path.Basic

namespace DuplicateBlocks

inductive Rejection where
  | notAString (index : Nat)
  | blank (index : Nat)
  | tooLong (index length : Nat)
  | absolute (pattern : String)
  | climbing (pattern : String)
  | notAGlob (pattern : String) (fault : Ignore.LineFault)
  | tooMany (dropped : Nat)
  | unusable (patterns : List String) (fault : Ignore.SetFault)
  deriving DecidableEq, Repr

structure Exclusion where
  patterns : List String := []
  rules : List Ignore.Rule := []

namespace Exclusion

def maxPatterns : Nat := 100

-- Patterns longer than so many characters are rejected.
def maxLength : Nat := 4096

end Exclusion

def Rejection.message : Rejection → String
  | notAString i => "entry #" ++ Nat.repr i ++ " is not a string"
  | blank i => "entry #" ++ Nat.repr i ++ " is empty"
  | tooLong i n =>
    "entry #" ++ Nat.repr i ++ " is " ++ Nat.repr n ++ " characters long (max " ++ Nat.repr Exclusion.maxLength ++ ")"
  | absolute p => "absolute pattern rejected: " ++ p
  | climbing p => "pattern with a parent-directory segment rejected: " ++ p
  | notAGlob p f => "invalid pattern " ++ p ++ ": " ++ f.message
  | unusable ps f => "invalid pattern " ++ String.intercalate ", " ps ++ ": " ++ f.message
  | tooMany n => Nat.repr n ++ " entries beyond the first " ++ Nat.repr Exclusion.maxPatterns ++ " were dropped"

namespace Exclusion

def hasDrive : List Char → Bool
  | c :: ':' :: _ => c.isAlpha
  | _ => false

-- Whether a pattern names a place outside the roots.
def isAbsolute (cs : List Char) : Bool :=
  cs.head? == some '/' || cs.head? == some '\\' || hasDrive cs

def isClimbing (cs : List Char) : Bool :=
  (Text.pieces (fun c => c == '/' || c == '\\') cs).contains ['.', '.']

-- Why the pattern at a position is unsuitable, before it is read as a glob.
def defect? (index : Nat) (pattern : String) : Option Rejection :=
  let cs := pattern.toList
  if cs.all Text.isBlank then some (.blank index)
  else if maxLength < cs.length then some (.tooLong index cs.length)
  else if isAbsolute cs then some (.absolute pattern)
  else if isClimbing cs then some (.climbing pattern)
  else none

-- One more suitable pattern: it comes into force unless its glob is faulty.
def add (e : Exclusion) (pattern : String) : Exclusion × Option Rejection :=
  match Ignore.Rule.ofLine pattern.toList with
  | .error f => (e, some (.notAGlob pattern f))
  | .ok rule => ({ patterns := e.patterns ++ [pattern], rules := e.rules ++ rule.toList }, none)

def addAll (e : Exclusion) : List String → Exclusion × List Rejection
  | [] => (e, [])
  | p :: ps =>
    let (e, rejected) := e.add p
    let (e, more) := e.addAll ps
    (e, rejected.toList ++ more)

-- What remains in force: everything, or nothing at all if the rules cannot be used together.
def settle (e : Exclusion) : Exclusion × Option Rejection :=
  match Ignore.setFault? e.rules with
  | some f => ({}, some (.unusable e.patterns f))
  | none => (e, none)

-- The exclusion by a list of patterns, and what was rejected: first the unsuitable ones, then the surplus,
-- then the faulty globs, and at last all others if they cannot be used together.
def ofPatterns (patterns : List String) : Exclusion × List Rejection :=
  let judged := (patterns.take maxPatterns).zipIdx.map fun (p, i) => (p, defect? i p)
  let surplus := patterns.length - maxPatterns
  let (e, faulty) := addAll {} ((judged.filter (·.2.isNone)).map Prod.fst)
  let (e, unusable) := e.settle
  let tooMany : List Rejection := if surplus = 0 then [] else [.tooMany surplus]
  (e, judged.filterMap Prod.snd ++ tooMany ++ faulty ++ unusable.toList)

-- A text without `./` and slashes in front.
def dropLead : List Char → List Char
  | '.' :: '/' :: cs => dropLead cs
  | '/' :: cs => dropLead cs
  | cs => cs

-- The path of an id that patterns are matched against: with slashes, and relative.
def matchPath (id : String) : String :=
  let cs := id.toList.map fun c => if c == '\\' then '/' else c
  String.ofList (dropLead (if hasDrive cs then cs.drop 2 else cs))

-- Whether an id is excluded: as a file, or by a directory it lies in.
def excludes (e : Exclusion) (id : String) : Bool :=
  let path := matchPath id
  path != "" &&
    (Ignore.verdict? e.rules false path == some .ignored ||
      (Path.ancestors path).any fun dir => dir != "" && Ignore.verdict? e.rules true dir == some .ignored)

end Exclusion
end DuplicateBlocks
