import DuplicateBlocks.Number.Binary64

namespace DuplicateBlocks

-- The value `digits · 10 ^ exponent`.
structure Decimal where
  digits : Nat
  exponent : Int
  deriving DecidableEq, Repr

namespace Decimal

def digitChars (n : Nat) : List Char :=
  Nat.toDigits 10 n

def digitCount (n : Nat) : Nat :=
  (digitChars n).length

-- What becomes of a number halfway between two candidates with the fewest digits.
inductive Tie where
  | up
  | even
  deriving DecidableEq, Repr

-- The reals that round to a magnitude, in quarters of a unit.
structure Span where
  low : Nat
  high : Nat
  closed : Bool

-- The span of a magnitude: half way to its neighbours, with the ends if its significand is even.
def Span.of (units : Nat) : Span :=
  let s := Binary64.spacing units
  let below := if Nat.pow 2 53 ≤ units ∧ units = Nat.pow 2 units.log2 then s / 2 else s
  { low := 4 * units - 2 * below, high := 4 * units + 2 * s, closed := units / s % 2 == 0 }

def Span.holds (s : Span) (num den : Nat) : Bool :=
  let x := 4 * num
  if s.closed then s.low * den ≤ x && x ≤ s.high * den else s.low * den < x && x < s.high * den

-- The greatest power of ten not above a magnitude, as an exponent.
def magnitude (units : Nat) : Int :=
  if Binary64.unit ≤ units then (digitCount (units / Binary64.unit) : Int) - 1
  else
    -- A positive value below one is at least 10^-324.
    match (List.range 325).find? fun k => Binary64.unit ≤ units * Nat.pow 10 k with
    | some k => -(k : Int)
    | none => -324

-- The multiple of `10 ^ place` that lies in the span of a magnitude nearest to it, if there is one.
def onGrid (tie : Tie) (units : Nat) (place : Int) : Option Nat :=
  let up := Nat.pow 10 place.toNat
  let down := Nat.pow 10 (-place).toNat
  let den := Binary64.unit * up
  let num := units * down
  let span := Span.of units
  let low := num / den
  let held (k : Nat) : Bool := span.holds (k * den) down
  let rest := num % den
  let preferHigh := den < 2 * rest || (den == 2 * rest && (tie == .up || low % 2 == 1))
  match held low, held (low + 1) with
  | true, true => some (if preferHigh then low + 1 else low)
  | true, false => some low
  | false, true => some (low + 1)
  | false, false => none

def stripZeros : Nat → Decimal → Decimal
  | 0, d => d
  | fuel + 1, d =>
    if d.digits ≠ 0 ∧ d.digits % 10 = 0 then stripZeros fuel ⟨d.digits / 10, d.exponent + 1⟩ else d

-- The shortest decimal that reads back as a magnitude. Seventeen digits always suffice.
def shortest (tie : Tie) (units : Nat) : Decimal :=
  let top := magnitude units
  let found := (List.range 17).findSome? fun (n : Nat) =>
    let place := top - n
    (onGrid tie units place).map (⟨·, place⟩)
  stripZeros 20 (found.getD ⟨0, 0⟩)

structure Layout where
  tie : Tie
  -- Positions of the point, counted from before the first digit, at which no exponent is written.
  positional : Int → Bool
  -- Whether a whole number ends in `.0`.
  pointZero : Bool
  -- What stands before an exponent that is not negative.
  exponentSign : List Char := []

def zeros (n : Nat) : List Char :=
  List.replicate n '0'

def placePoint (pointZero : Bool) (ds : List Char) (point : Int) : List Char :=
  if point ≤ 0 then '0' :: '.' :: zeros (-point).toNat ++ ds
  else
    let k := point.toNat
    if ds.length ≤ k then ds ++ zeros (k - ds.length) ++ (if pointZero then ['.', '0'] else [])
    else ds.take k ++ '.' :: ds.drop k

def scientific (sign : List Char) (ds : List Char) (point : Int) : List Char :=
  let e := point - 1
  let mark := 'e' :: (if e < 0 then ['-'] else sign) ++ digitChars e.natAbs
  match ds with
  | [d] => d :: mark
  | d :: rest => d :: '.' :: rest ++ mark
  | [] => mark

def Layout.render (layout : Layout) (negative : Bool) (units : Nat) : List Char :=
  let body :=
    if units = 0 then (if layout.pointZero then ['0', '.', '0'] else ['0'])
    else
      let d := shortest layout.tie units
      let ds := digitChars d.digits
      let point := ds.length + d.exponent
      if layout.positional point then placePoint layout.pointZero ds point else scientific layout.exponentSign ds point
  if negative then '-' :: body else body

def Layout.write (layout : Layout) : Binary64 → List Char
  | .finite s u => layout.render s u
  | .infinite s => (if s then ['-'] else []) ++ "inf".toList
  | .nan => "NaN".toList

-- A number rounded to an integer, a half going to the even neighbour.
def wholeText : Binary64 → List Char
  | .finite s u => (if s then ['-'] else []) ++ digitChars (Binary64.roundDiv u Binary64.unit)
  | .infinite s => (if s then ['-'] else []) ++ "inf".toList
  | .nan => "NaN".toList

def toBinary64 (negative : Bool) (d : Decimal) : Binary64 :=
  let size := digitCount d.digits + d.exponent
  if d.digits = 0 ∨ size < -330 then .finite negative 0
  else if 310 < size then .infinite negative
  else .ofRatio negative (d.digits * Nat.pow 10 d.exponent.toNat) (Nat.pow 10 (-d.exponent).toNat)

def digitsValue (ds : List Char) : Nat :=
  ds.foldl (fun n c => n * 10 + (c.toNat - '0'.toNat)) 0

-- The value of digits, of which those after it has reached `cap` no longer count.
def cappedValue (cap : Nat) (ds : List Char) : Nat :=
  ds.foldl (fun n c => if n < cap then n * 10 + (c.toNat - '0'.toNat) else n) 0

def exponentValue (ds : List Char) : Nat :=
  cappedValue 0x10000 ds

def splitSign : List Char → Bool × List Char
  | '-' :: cs => (true, cs)
  | '+' :: cs => (false, cs)
  | cs => (false, cs)

-- The exponent that a text consists of; none at all counts as zero.
def readExponent? : List Char → Option Int
  | [] => some 0
  | c :: cs =>
    if c == 'e' || c == 'E' then
      let (negative, ds) := splitSign cs
      if ds.isEmpty || !ds.all Char.isDigit then none
      else some (if negative then -(exponentValue ds : Int) else exponentValue ds)
    else none

def read? (cs : List Char) : Option Decimal :=
  let whole := cs.takeWhile Char.isDigit
  let rest := cs.dropWhile Char.isDigit
  let (fraction, rest) := match rest with
    | '.' :: more => (more.takeWhile Char.isDigit, more.dropWhile Char.isDigit)
    | _ => ([], rest)
  if whole.isEmpty && fraction.isEmpty then none
  else (readExponent? rest).map fun e => ⟨digitsValue (whole ++ fraction), e - fraction.length⟩

-- The number that a text spells: an optional sign, then a decimal, `inf`, `infinity` or `nan` in any case.
def readBinary64? (cs : List Char) : Option Binary64 :=
  let (negative, body) := splitSign cs
  let lower := String.ofList (body.map Char.toLower)
  if lower == "inf" || lower == "infinity" then some (.infinite negative)
  else if lower == "nan" then some .nan
  else (read? body).map (toBinary64 negative)

end Decimal
end DuplicateBlocks
