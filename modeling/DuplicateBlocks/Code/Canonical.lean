import DuplicateBlocks.Code.Token
import Std.Data.HashMap

namespace DuplicateBlocks.Code

structure Limits where
  contentBytes : Nat
  names : Nat
  nameLength : Nat
  deriving DecidableEq, Repr

-- The number of each known name, from zero in order of appearance.
structure Roster where
  numbers : Std.HashMap String Nat := {}

namespace Roster

def number? (r : Roster) (name : List Char) : Option Nat :=
  r.numbers[String.ofList name]?

def knows (r : Roster) (name : List Char) : Bool :=
  (r.number? name).isSome

-- Takes up a name unless it is known or `room` names are.
def enroll (room : Nat) (r : Roster) (name : List Char) : Roster :=
  if r.knows name || room ≤ r.numbers.size then r
  else { numbers := r.numbers.insert (String.ofList name) r.numbers.size }

def ofNames (room : Nat) (names : List (List Char)) : Roster :=
  names.foldl (enroll room) {}

end Roster

def placeholder (k : Nat) : List Char :=
  "__VAR".toList ++ Nat.toDigits 10 k ++ "__".toList

namespace Limits

def admits (l : Limits) (name : List Char) : Bool :=
  name.length ≤ l.nameLength

def roster (l : Limits) (ts : List Token) : Roster :=
  Roster.ofNames l.names ((ts.filterMap Token.name?).filter l.admits)

end Limits

-- A token with its name replaced if it has a known one.
def Token.canonical (r : Roster) (t : Token) : List Char :=
  match t.name?.bind r.number? with
  | some k => placeholder k
  | none => t.text

@[ext]
structure Canonical where
  text : List Char
  untracked : Nat
  tooLong : Nat
  deriving DecidableEq, Repr

namespace Canonical

-- The canonical text of a list of tokens. The names that are replaced are known before the first one is.
def ofTokens (l : Limits) (ts : List Token) : Canonical :=
  let names := ts.filterMap Token.name?
  let r := l.roster ts
  { text := ts.flatMap (Token.canonical r)
    untracked := names.countP fun n => l.admits n && !r.knows n
    tooLong := names.countP fun n => !l.admits n }

end Canonical

-- A text that is read once, with its names replaced on the way. Of all texts the latest character comes first.
structure Pass where
  roster : Roster := {}
  -- The canonical text up to the last name that was replaced.
  written : List Char := []
  -- What was read since then and stays as it is.
  pending : List Char := []
  -- The word under way.
  word : List Char := []
  untracked : Nat := 0
  tooLong : Nat := 0

namespace Pass

def keep (p : Pass) : Pass :=
  { p with pending := p.word ++ p.pending, word := [] }

def replace (k : Nat) (p : Pass) : Pass :=
  { p with written := (placeholder k).reverse ++ (p.pending ++ p.written), pending := [], word := [] }

-- Ends the word under way. A name that is short enough gets a number at its first occurrence, if there is one left.
def close (l : Limits) (p : Pass) : Pass :=
  let name := p.word.reverse
  if !isName name then p.keep
  else if !l.admits name then { p.keep with tooLong := p.tooLong + 1 }
  else
    let q := { p with roster := p.roster.enroll l.names name }
    match q.roster.number? name with
    | some k => q.replace k
    | none => { q.keep with untracked := q.untracked + 1 }

def read (l : Limits) (p : Pass) (c : Char) : Pass :=
  if isWordChar c then { p with word := c :: p.word }
  else
    let q := p.close l
    { q with pending := c :: q.pending }

def result (p : Pass) : Canonical :=
  { text := (p.pending ++ p.written).reverse, untracked := p.untracked, tooLong := p.tooLong }

end Pass

def canonicalize (l : Limits) (cs : List Char) : Canonical :=
  ((cs.foldl (Pass.read l) {}).close l).result

end DuplicateBlocks.Code
