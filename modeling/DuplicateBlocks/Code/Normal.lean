import DuplicateBlocks.Code.Comment
import DuplicateBlocks.Code.Canonical
import DuplicateBlocks.Text.Utf8

namespace DuplicateBlocks.Code

structure Normal where
  text : List Char
  -- The text was too large to be looked at.
  skipped : Bool := false
  untracked : Nat := 0
  tooLong : Nat := 0
  deriving DecidableEq, Repr

def normalize (l : Limits) (raw : List Char) : Normal :=
  if l.contentBytes < Text.Utf8.byteCount raw then { text := raw, skipped := true }
  else
    let c := canonicalize l (strip raw)
    { text := c.text, untracked := c.untracked, tooLong := c.tooLong }

end DuplicateBlocks.Code
