import DuplicateBlocks.Number.Binary64
import DuplicateBlocks.Text.Line

namespace DuplicateBlocks.Similarity

open Text

-- The positions at which two texts have the same line.
def matching (a b : List Char) : Nat :=
  ((comparedLines a).zip (comparedLines b)).countP fun (x, y) => x == y

def longest (a b : List Char) : Nat :=
  max (comparedLines a).length (comparedLines b).length

-- The similarity in percent. Equal texts score 100 unless they are empty.
def score (a b : List Char) : Binary64 :=
  if a.isEmpty && b.isEmpty then .zero
  else if a == b then .hundred
  else ((Binary64.ofNat (matching a b)).div (.ofNat (longest a b))).mul .hundred

end DuplicateBlocks.Similarity
