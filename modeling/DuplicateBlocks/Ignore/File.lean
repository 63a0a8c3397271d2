import DuplicateBlocks.Ignore.Rule
import DuplicateBlocks.Text.Line

namespace DuplicateBlocks.Ignore

def lineFeed : UInt8 := 0x0A

-- A mark of byte order, which some editors put in front of a text.
def orderMark : Char := Char.ofNat 0xFEFF

-- The lines of a file before the first one that is no text.
def readableLines (bytes : List UInt8) : List (List Char) :=
  let decoded := (Text.pieces (· == lineFeed) bytes).map Text.Utf8.decode?
  let readable := (decoded.takeWhile Option.isSome).filterMap id
  if readable.length == decoded.length then Text.lines (Text.unlines readable) else readable.map Text.dropReturn

-- Lines without order marks at the very front.
def dropMarks : List (List Char) → List (List Char)
  | [] => []
  | line :: rest => line.dropWhile (· == orderMark) :: rest

def readRules (bytes : List UInt8) : List (Except LineFault (Option Rule)) :=
  (dropMarks (readableLines bytes)).map Rule.ofLine

def lineRules (bytes : List UInt8) : List Rule :=
  (readRules bytes).filterMap fun
    | .ok rule => rule
    | .error _ => none

-- The rules of a file. There are none if they cannot be used together.
def rulesOf (bytes : List UInt8) : List Rule :=
  let rules := lineRules bytes
  if (setFault? rules).isSome then [] else rules

-- Whether a file has a line that ought to be a rule and is none, or rules that cannot be used together.
def isFaulty (bytes : List UInt8) : Bool :=
  (setFault? (lineRules bytes)).isSome || (readRules bytes).any fun
    | .ok _ => false
    | .error _ => true

end DuplicateBlocks.Ignore
