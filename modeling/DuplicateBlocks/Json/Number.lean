import DuplicateBlocks.Json.Value
import DuplicateBlocks.Number.Decimal

namespace DuplicateBlocks.Json

inductive Fault where
  -- It is no JSON, or beyond a limit.
  | malformed
  -- It ends too early.
  | cutShort
  -- It is JSON of the wrong kind.
  | mismatch
  deriving DecidableEq, Repr

-- How closely a text is looked at: values that nobody asked for are only checked for their form.
inductive Care where
  | strict
  | loose
  deriving DecidableEq, Repr

-- The fault of a number that lacks digits before `rest`.
def Care.missingDigits (care : Care) (rest : List Char) : Fault :=
  if care == .strict && rest.isEmpty then .cutShort else .malformed

-- Appends digits to a significand while it fits 64 bits. Gives the number of digits taken.
def takeDigits (significand taken : Nat) : List Char → Nat × Nat
  | [] => (significand, taken)
  | c :: cs =>
    let next := significand * 10 + (c.toNat - '0'.toNat)
    if next < 0x10000000000000000 then takeDigits next (taken + 1) cs else (significand, taken)

def tenPower (k : Nat) : Binary64 :=
  .ofNat (Nat.pow 10 k)

-- A number scaled by a power of ten, unless the result is infinite.
def scale (x : Binary64) (exponent : Int) : Option Binary64 :=
  if exponent.natAbs ≤ 308 then
    if 0 ≤ exponent then
      let y := x.mul (tenPower exponent.natAbs)
      if y.isFinite then some y else none
    else some (x.div (tenPower exponent.natAbs))
  else if x == .zero then some x
  else if 0 ≤ exponent then none
  else scale (x.div (tenPower 308)) (exponent + 308)
termination_by (-exponent).toNat
decreasing_by omega

structure Exponent where
  sign : Option Char
  digits : List Char

def Exponent.negative (e : Exponent) : Bool :=
  e.sign == some '-'

-- The value of an exponent, unless it is too large for 31 bits.
def Exponent.value? (e : Exponent) : Option Int :=
  let n := Decimal.cappedValue 0x80000000 e.digits
  if n < 0x80000000 then some (if e.negative then -(n : Int) else n) else none

def realOf (negative : Bool) (significand : Nat) (exponent : Int) : Except Fault Number :=
  match scale (.ofNat significand) exponent with
  | some (.finite _ u) => .ok (.real (.finite negative u))
  | _ => .error .malformed

-- The number of an integer part, a fraction and an exponent.
def numberOf (negative : Bool) (whole : List Char) (fraction : Option (List Char)) (exponent : Option Exponent) :
    Except Fault Number :=
  let (significand, taken) := takeDigits 0 0 whole
  let surplus : Int := whole.length - taken
  match fraction, exponent with
  | none, none =>
    if surplus ≠ 0 then realOf negative significand surplus
    else if !negative then .ok (.natural significand)
    else if 1 ≤ significand ∧ significand ≤ 0x8000000000000000 then .ok (.negative (significand - 1))
    else .ok (.real (.ofRatio true significand 1))
  | _, _ =>
    let (significand, places) := takeDigits significand 0 (fraction.getD [])
    let base : Int := surplus - places
    match exponent with
    | none => realOf negative significand base
    | some e => match e.value? with
      | some k => realOf negative significand (base + k)
      | none =>
        if significand ≠ 0 ∧ !e.negative then .error .malformed else .ok (.real (.finite negative 0))

structure Numeral where
  whole : List Char
  fraction : Option (List Char)
  exponent : Option Exponent

def Numeral.size (n : Numeral) : Nat :=
  n.whole.length + (n.fraction.map (·.length + 1)).getD 0 +
    (n.exponent.map fun e => e.digits.length + e.sign.toList.length + 1).getD 0

-- The digits that a text starts with, of which there must be some.
def readDigits (care : Care) (cs : List Char) : Except Fault (List Char × List Char) :=
  let digits := cs.takeWhile Char.isDigit
  let rest := cs.dropWhile Char.isDigit
  if digits.isEmpty then .error (care.missingDigits rest) else .ok (digits, rest)

def readExponent (care : Care) (cs : List Char) : Except Fault (Option Exponent) := do
  match cs with
  | [] => return none
  | c :: rest =>
    if c == 'e' || c == 'E' then
      let sign := rest.head?.filter fun s => s == '+' || s == '-'
      let (digits, _) ← readDigits care (rest.drop sign.toList.length)
      return some ⟨sign, digits⟩
    else return none

-- Reads the fraction of a number, if there is one, and the text after it.
def readFraction (care : Care) (cs : List Char) : Except Fault (Option (List Char) × List Char) := do
  match cs with
  | '.' :: rest =>
    let (digits, rest) ← readDigits care rest
    return (some digits, rest)
  | _ => return (none, cs)

-- Reads a numeral. A zero in front of other digits is not allowed.
def readNumeral (care : Care) (cs : List Char) : Except Fault Numeral := do
  let (whole, rest) ← readDigits care cs
  if whole.head? == some '0' && 1 < whole.length then .error .malformed
  let (fraction, rest) ← readFraction care rest
  return { whole, fraction, exponent := ← readExponent care rest }

-- Reads a number after its sign. Gives how many characters it took.
def readNumber (care : Care) (negative : Bool) (cs : List Char) : Except Fault (Number × Nat) := do
  let n ← readNumeral care cs
  let number ← match care with
    | .strict => numberOf negative n.whole n.fraction n.exponent
    | .loose => .ok (.natural 0)
  return (number, n.size)

end DuplicateBlocks.Json
