import DuplicateBlocks.Block
import DuplicateBlocks.Text.Slice

namespace DuplicateBlocks.Code.Bytes

open Text Utf8

-- Where the comment of a line starts, from byte `i` on.
def commentStart? (text : List UInt8) (i : Nat) : Option Nat :=
  if h : i + 1 < text.length then
    if text[i] == '/'.toUInt8 && (text[i + 1] == '/'.toUInt8 || text[i + 1] == '*'.toUInt8) then some i
    else commentStart? text (i + 1)
  else none
termination_by text.length - i

def beforeComment? (line : List UInt8) : Option (List UInt8) :=
  match commentStart? line 0 with
  | some i => slice? line 0 i
  | none => some line

def addLine? (s : Stripping) (line : List Char) : Option Stripping := do
  let code ← beforeComment? (encode line)
  let chars ← decode? code
  return (words chars).foldl Stripping.addWord { s with first := true }

def strip? (text : List Char) : Option (List UInt8) := do
  let s ← (lines text).foldlM addLine? {}
  return encode s.written.reverse

def isLetter (b : UInt8) : Bool :=
  ('a'.toUInt8 ≤ b && b ≤ 'z'.toUInt8) || ('A'.toUInt8 ≤ b && b ≤ 'Z'.toUInt8)

def isDigit (b : UInt8) : Bool :=
  '0'.toUInt8 ≤ b && b ≤ '9'.toUInt8

def startsName (b : UInt8) : Bool :=
  isLetter b || b == '_'.toUInt8 || b == '$'.toUInt8

def continuesName (b : UInt8) : Bool :=
  isLetter b || isDigit b || b == '_'.toUInt8 || b == '$'.toUInt8

-- The end of the word that goes on at byte `i`.
def wordEnd (text : List UInt8) (i : Nat) : Nat :=
  if h : i < text.length then if continuesName text[i] then wordEnd text (i + 1) else i
  else i
termination_by text.length - i

theorem le_wordEnd (text : List UInt8) (i : Nat) : i ≤ wordEnd text i := by
  fun_induction wordEnd text i <;> omega

def isReserved (name : List UInt8) : Bool :=
  reserved.any fun w => encode w == name

-- A canonical text while it is written.
structure Copy where
  -- The number of each known name.
  numbers : Std.HashMap (List UInt8) Nat := {}
  written : List UInt8 := []
  -- The position up to which the text is written.
  copied : Nat := 0
  untracked : Nat := 0
  tooLong : Nat := 0

namespace Copy

-- The copy after the word from `start` up to `stop`, which starts with no digit.
def addWord? (l : Limits) (text : List UInt8) (start stop : Nat) (c : Copy) : Option Copy := do
  let name ← slice? text start stop
  if isReserved name then return c
  if l.nameLength < name.length then return { c with tooLong := c.tooLong + 1 }
  if !c.numbers.contains name && l.names ≤ c.numbers.size then return { c with untracked := c.untracked + 1 }
  let numbers := if c.numbers.contains name then c.numbers else c.numbers.insert name c.numbers.size
  match numbers[name]? with
  | none => return { c with numbers }
  | some k =>
    let between ← slice? text c.copied start
    return { c with numbers, written := c.written ++ between ++ encode (placeholder k), copied := stop }

end Copy

def copy? (l : Limits) (text : List UInt8) (i : Nat) (c : Copy) : Option Copy :=
  if h : i < text.length then
    have := le_wordEnd text (i + 1)
    if isDigit text[i] then copy? l text (wordEnd text (i + 1)) c
    else if startsName text[i] then do
      let c ← c.addWord? l text i (wordEnd text (i + 1))
      copy? l text (wordEnd text (i + 1)) c
    else copy? l text (i + 1) c
  else some c
termination_by text.length - i

structure Transcript where
  text : List UInt8
  untracked : Nat
  tooLong : Nat

def canonicalize? (l : Limits) (text : List UInt8) : Option Transcript := do
  let c ← copy? l text 0 {}
  let rest ← slice? text c.copied text.length
  return { text := c.written ++ rest, untracked := c.untracked, tooLong := c.tooLong }

-- The fingerprint of a block, cut off where the first character behind it starts.
def fingerprint? (b : Block) : Option (List UInt8) :=
  match (charIndices 0 b.normal)[Block.fingerprintLength]? with
  | some (stop, _) => slice? (encode b.normal) 0 stop
  | none => some (encode b.normal)

end DuplicateBlocks.Code.Bytes
