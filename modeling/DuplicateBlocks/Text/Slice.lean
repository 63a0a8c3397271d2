import DuplicateBlocks.Text.Utf8

namespace DuplicateBlocks.Text.Utf8

-- Whether a byte goes on with a character that began before it.
def isContinuation (b : UInt8) : Bool :=
  0x80 ≤ b && b < 0xC0

-- Whether a position is the start of a character, or the end of the text.
def isBoundary (bytes : List UInt8) (i : Nat) : Bool :=
  i == 0 ||
    match bytes[i]? with
    | some b => !isContinuation b
    | none => i == bytes.length

-- The bytes from `start` up to `stop`. There are none if the positions are no boundaries or in the wrong order.
def slice? (bytes : List UInt8) (start stop : Nat) : Option (List UInt8) :=
  if start ≤ stop && isBoundary bytes start && isBoundary bytes stop then some ((bytes.take stop).drop start)
  else none

-- The characters of a text, each with the position at which it starts, counted from `i` on.
def charIndices (i : Nat) : List Char → List (Nat × Char)
  | [] => []
  | c :: cs => (i, c) :: charIndices (i + c.utf8Size) cs

end DuplicateBlocks.Text.Utf8
