import DuplicateBlocks.Glob.Basic

namespace DuplicateBlocks.Glob

inductive Fault where
  | invalidRange (first last : Char)
  | unopenedGroup
  | unclosedGroup
  | danglingEscape
  deriving DecidableEq, Repr

def Fault.message : Fault → String
  | invalidRange first last => "invalid range; '" ++ first.toString ++ "' > '" ++ last.toString ++ "'"
  | unopenedGroup => "unopened alternate group; missing '\x7b' (maybe escape '\x7d' with '[\x7d]'?)"
  | unclosedGroup => "unclosed alternate group; missing '\x7d' (maybe escape '\x7b' with '[\x7b]'?)"
  | danglingEscape => "dangling '\\'"

-- A class under way: its ranges, the latest first, and whether a `-` waits for its end.
structure ClassState where
  ranges : List (Char × Char) := []
  waiting : Bool := false

-- One more character that is no bracket. It ends the latest range if one waits.
def ClassState.add (s : ClassState) (c : Char) : Except Fault ClassState :=
  match s.waiting, s.ranges with
  | true, (first, _) :: rs =>
    if c < first then .error (.invalidRange first c) else .ok { ranges := (first, c) :: rs }
  | _, rs => .ok { ranges := (c, c) :: rs }

-- The ranges of a class, once it is closed. A `-` at its end stands for itself.
def ClassState.close (s : ClassState) : List (Char × Char) :=
  (if s.waiting then ('-', '-') :: s.ranges else s.ranges).reverse

-- Reads the inside of a class, of which `read` characters are read. Gives the ranges and the number of
-- characters up to the closing bracket, or nothing if there is none.
def readClass (s : ClassState) (read : Nat) : List Char → Except Fault (Option (List (Char × Char) × Nat))
  | [] => .ok none
  | c :: cs =>
    let first := s.ranges.isEmpty
    if c == ']' && !first then .ok (some (s.close, read + 1))
    else if c == '-' && !first && !s.waiting then readClass { s with waiting := true } (read + 1) cs
    else match s.add c with
      | .error e => .error e
      | .ok s => readClass s (read + 1) cs

def isVoid (tokens : List Token) : Bool :=
  tokens.all fun
    | .choice [] => true
    | _ => false

-- A group under way: the tokens before it and its finished branches, both with the latest first.
structure Frame where
  outer : List Token
  done : List (List Token) := []

structure State where
  -- The tokens of the present branch, the latest first.
  tokens : List Token := []
  groups : List Frame := []
  -- The character before.
  previous : Option Char := none
  -- A class was left open, so brackets are ordinary.
  plainBrackets : Bool := false

namespace State

def push (s : State) (t : Token) : State :=
  { s with tokens := t :: s.tokens }

def after (s : State) (c : Char) : State :=
  { s with previous := some c }

def twoStars (s : State) : State :=
  ((s.push .star).push .star).after '*'

def inGroup (s : State) : Bool :=
  !s.groups.isEmpty

def openGroup (s : State) : State :=
  { s with tokens := [], groups := { outer := s.tokens } :: s.groups }

def nextBranch (s : State) : State :=
  match s.groups with
  | f :: fs => { s with tokens := [], groups := { f with done := s.tokens.reverse :: f.done } :: fs }
  | [] => s.push (.literal ',')

-- The end of a group. A branch that stands for nothing is no branch.
def closeGroup (s : State) : Except Fault State :=
  match s.groups with
  | f :: fs =>
    let branches := (s.tokens.reverse :: f.done).reverse.filter fun b => !isVoid b
    .ok { s with tokens := .choice branches :: f.outer, groups := fs }
  | [] => .error .unopenedGroup

-- Puts a token that crosses directories in the place of the latest one, unless that crosses them already
-- on one side.
def replaceLatest (s : State) (t : Token) : State :=
  match s.tokens with
  | .leading :: _ | .trailing :: _ => s
  | _ :: ts => { s with tokens := t :: ts }
  | [] => s.push t

-- Takes up two stars in a row, with what follows them. Gives whether a slash after them belongs to them.
def doubleStar (s : State) (next : Option Char) : State × Bool :=
  let before := s.previous
  let plain := (s.twoStars, false)
  if s.tokens.isEmpty then
    match next with
    | none => ((s.push .leading).after '*', false)
    | some c => if c == '/' then ((s.push .leading).after '/', true) else plain
  else if before != some '/' && (!s.inGroup || (before != some ',' && before != some '\x7b')) then plain
  else match next with
    | none => ((s.replaceLatest .trailing).after '*', false)
    | some c =>
      if c == '/' then ((s.replaceLatest .between).after '/', true)
      else if s.inGroup && (c == ',' || c == '\x7d') then ((s.replaceLatest .trailing).after '*', false)
      else plain

end State

def readTokens (s : State) : List Char → Except Fault (List Token)
  | [] => if s.inGroup then .error .unclosedGroup else .ok s.tokens.reverse
  | '*' :: '*' :: cs =>
    let (s, slashTaken) := s.doubleStar cs.head?
    readTokens s (cs.drop slashTaken.toNat)
  | '\\' :: [] => .error .danglingEscape
  | '\\' :: c :: cs => readTokens ((s.push (.literal c)).after c) cs
  | c :: cs =>
    let s' := s.after c
    if c == '?' then readTokens (s'.push .any) cs
    else if c == '*' then readTokens (s'.push .star) cs
    else if c == '\x7b' then readTokens s'.openGroup cs
    else if c == '\x7d' then
      match s'.closeGroup with
      | .error e => .error e
      | .ok s' => readTokens s' cs
    else if c == ',' then readTokens s'.nextBranch cs
    else if c == '[' && !s.plainBrackets then
      let negated := cs.head? == some '!' || cs.head? == some '^'
      let skipped := negated.toNat
      match readClass {} skipped (cs.drop skipped) with
      | .error e => .error e
      | .ok (some (ranges, n)) => readTokens ((s.push (.oneOf negated ranges)).after ']') (cs.drop n)
      | .ok none => readTokens { s'.push (.literal '[') with plainBrackets := true } cs
    else readTokens (s'.push (.literal c)) cs
termination_by cs => cs.length
decreasing_by all_goals simp only [List.length_cons, List.length_drop]; omega

def parse (cs : List Char) : Except Fault (List Token) :=
  readTokens {} cs

end DuplicateBlocks.Glob
