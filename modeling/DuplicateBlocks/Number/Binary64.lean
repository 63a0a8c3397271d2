namespace DuplicateBlocks

-- A binary64 number. A finite one is a sign and a magnitude counted in units of 2^-1074, the
-- smallest positive value.
inductive Binary64 where
  | finite (negative : Bool) (units : Nat)
  | infinite (negative : Bool)
  | nan
  deriving DecidableEq, Repr

namespace Binary64

def unit : Nat := Nat.pow 2 1074

-- Magnitudes from here on are infinite.
def bound : Nat := Nat.pow 2 2098

-- The integer nearest to `num / den`; of two equally near ones, the even one.
def roundDiv (num den : Nat) : Nat :=
  let q := num / den
  let r := num % den
  if 2 * r < den ∨ (2 * r = den ∧ q % 2 = 0) then q else q + 1

-- The distance of neighbouring numbers around a magnitude: one unit below 2^53 units, then twice as
-- much in each binade.
def spacing (units : Nat) : Nat :=
  Nat.pow 2 (units.log2 - 52)

-- The magnitude nearest to `num / den` units.
def roundUnits (num den : Nat) : Nat :=
  let s := spacing (num / den)
  roundDiv num (den * s) * s

-- The number nearest to `num / den` units, with a sign.
def ofUnits (negative : Bool) (num den : Nat) : Binary64 :=
  let u := roundUnits num den
  if u < bound then finite negative u else infinite negative

-- The number nearest to the fraction `num / den`.
def ofRatio (negative : Bool) (num den : Nat) : Binary64 :=
  ofUnits negative (num * unit) den

def ofNat (n : Nat) : Binary64 :=
  ofRatio false n 1

def zero : Binary64 := finite false 0

def hundred : Binary64 := finite false (100 * unit)

def mul : Binary64 → Binary64 → Binary64
  | finite s a, finite t b => ofUnits (s != t) (a * b) unit
  | infinite s, finite t b => if b = 0 then nan else infinite (s != t)
  | finite s a, infinite t => if a = 0 then nan else infinite (s != t)
  | infinite s, infinite t => infinite (s != t)
  | _, _ => nan

def div : Binary64 → Binary64 → Binary64
  | finite s a, finite t b =>
    if b = 0 then (if a = 0 then nan else infinite (s != t)) else ofUnits (s != t) (a * unit) b
  | infinite s, finite t _ => infinite (s != t)
  | finite s _, infinite t => finite (s != t) 0
  | _, _ => nan

def signed (negative : Bool) (units : Nat) : Int :=
  if negative then -(units : Int) else units

-- The order of values: both zeros are equal, and nothing compares with `nan`.
def le : Binary64 → Binary64 → Bool
  | nan, _ | _, nan => false
  | infinite true, _ | _, infinite false => true
  | infinite false, _ | _, infinite true => false
  | finite s a, finite t b => signed s a ≤ signed t b

def lt (x y : Binary64) : Bool :=
  le x y && !le y x

-- The smaller of two numbers; `nan` only if both are.
def min (x y : Binary64) : Binary64 :=
  if x = nan then y else if lt y x then y else x

-- A number moved into `lo`..`hi`; one already there keeps the sign of its zero.
def clamp (x lo hi : Binary64) : Binary64 :=
  if lt x lo then lo else if lt hi x then hi else x

def isFinite : Binary64 → Bool
  | finite .. => true
  | _ => false

def floor : Binary64 → Binary64
  | finite false u => finite false (u / unit * unit)
  | finite true u => finite true ((u + (unit - 1)) / unit * unit)
  | x => x

def wholePart : Binary64 → Nat
  | finite _ u => u / unit
  | _ => 0

-- The number with the given interchange encoding.
def ofBits (bits : UInt64) : Binary64 :=
  let n := bits.toNat
  let negative := Nat.pow 2 63 ≤ n
  let exponent := n / Nat.pow 2 52 % Nat.pow 2 11
  let fraction := n % Nat.pow 2 52
  if exponent = 0 then finite negative fraction
  else if exponent = 2047 then (if fraction = 0 then infinite negative else nan)
  else finite negative ((Nat.pow 2 52 + fraction) * Nat.pow 2 (exponent - 1))

-- The interchange encoding of a magnitude.
def unitsBits (units : Nat) : Nat :=
  if units < Nat.pow 2 52 then units
  else
    let e := units.log2 - 52
    (e + 1) * Nat.pow 2 52 + (units / Nat.pow 2 e - Nat.pow 2 52)

def toBits : Binary64 → UInt64
  | finite s u => (unitsBits u + if s then Nat.pow 2 63 else 0).toUInt64
  | infinite s => (0x7ff0000000000000 + if s then Nat.pow 2 63 else 0).toUInt64
  | nan => 0x7ff8000000000000

theorem roundDiv_mul_self {den : Nat} (h : 0 < den) (k : Nat) : roundDiv (k * den) den = k := by
  simp [roundDiv, Nat.mul_div_cancel _ h, h]

theorem not_le_nan (x : Binary64) : le x nan = false := by
  cases x <;> rfl

end Binary64
end DuplicateBlocks
