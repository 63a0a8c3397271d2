import DuplicateBlocks.Text.Utf8

namespace DuplicateBlocks.Glob

inductive Token where
  | literal (c : Char)
  -- One byte but a slash.
  | any
  -- Bytes but slashes.
  | star
  -- Nothing, or directories and the slash after them.
  | leading
  -- A slash and all that follows.
  | trailing
  -- A slash, or a slash, directories and the slash after them.
  | between
  -- One byte of a set, or one not of it.
  | oneOf (negated : Bool) (ranges : List (Char × Char))
  -- One of several globs, or nothing at all if there are none.
  | choice (branches : List (List Token))
  deriving Repr

def slash : UInt8 := 47

-- The ranges of bytes that a range of characters stands for. The bytes of a character count one by one, and
-- the range runs from the last byte of its first character to the first byte of its last.
def byteRanges (range : Char × Char) : List (UInt8 × UInt8) :=
  let single (b : UInt8) : UInt8 × UInt8 := (b, b)
  let low := String.utf8EncodeChar range.1
  let high := String.utf8EncodeChar range.2
  if range.1 == range.2 then low.map single
  else match low.getLast?, high with
    | some first, last :: rest => low.dropLast.map single ++ (first, last) :: rest.map single
    | _, _ => []

def inClass (negated : Bool) (ranges : List (UInt8 × UInt8)) (b : UInt8) : Bool :=
  ranges.any (fun (first, last) => first ≤ b && b ≤ last) != negated

-- For each place in a path, whether what comes later matches from there. A path of `n` bytes has
-- `n + 1` places.
abbrev Marks := List Bool

namespace Marks

-- The places from which the end is reached at once.
def atEnd (path : List UInt8) : Marks :=
  path.foldr (fun _ ms => false :: ms) [true]

-- The places from which one suitable byte leads to a marked one.
def byte (ok : UInt8 → Bool) : List UInt8 → Marks → Marks
  | b :: bs, _ :: ms => (ok b && ms.headD false) :: byte ok bs ms
  | _, _ => [false]

def star : List UInt8 → Marks → Marks
  | b :: bs, m :: ms =>
    let later := star bs ms
    (m || (b != slash && later.headD false)) :: later
  | _, ms => ms

def anything : Marks → Marks
  | [] => []
  | m :: ms =>
    let later := anything ms
    (m || later.headD false) :: later

-- The places from which any bytes and a slash lead to a marked one.
def pastSlash : List UInt8 → Marks → Marks
  | b :: bs, _ :: ms =>
    let later := pastSlash bs ms
    ((b == slash && ms.headD false) || later.headD false) :: later
  | _, _ => [false]

def or (a b : Marks) : Marks :=
  a.zipWith (· || ·) b

def leading (path : List UInt8) (ms : Marks) : Marks :=
  or ms (pastSlash path ms)

end Marks

mutual

-- The places from which a token leads to a marked one.
def Token.before (path : List UInt8) : Token → Marks → Marks
  | .literal c, ms => (String.utf8EncodeChar c).foldr (fun b ms => Marks.byte (· == b) path ms) ms
  | .any, ms => Marks.byte (· != slash) path ms
  | .star, ms => Marks.star path ms
  | .leading, ms => Marks.leading path ms
  | .trailing, ms => Marks.byte (· == slash) path (Marks.anything ms)
  | .between, ms => Marks.byte (· == slash) path (Marks.leading path ms)
  | .oneOf negated ranges, ms => Marks.byte (inClass negated (ranges.flatMap byteRanges)) path ms
  | .choice branches, ms => if branches.isEmpty then ms else beforeAny path branches ms

def before (path : List UInt8) : List Token → Marks → Marks
  | [], ms => ms
  | t :: ts, ms => t.before path (before path ts ms)

def beforeAny (path : List UInt8) : List (List Token) → Marks → Marks
  | [], ms => ms.map fun _ => false
  | b :: bs, ms => Marks.or (before path b ms) (beforeAny path bs ms)

end

-- Whether a glob matches the whole of a path. Directories alone match every path.
def accepts (glob : List Token) (path : List UInt8) : Bool :=
  match glob with
  | [.leading] => true
  | _ => (before path glob (Marks.atEnd path)).headD false

end DuplicateBlocks.Glob
