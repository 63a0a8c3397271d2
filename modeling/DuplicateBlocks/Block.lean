import DuplicateBlocks.Code.Normal

namespace DuplicateBlocks

-- Lines `first` to `last` of a source, counted from one. Line numbers are 32-bit words.
structure Block where
  source : String
  first : UInt32
  last : UInt32
  raw : List Char
  normal : List Char
  deriving DecidableEq

namespace Block

-- How many lines a block spans; a number too great for a word stands at the greatest one.
def lineCount (b : Block) : Nat :=
  min (b.last.toNat - b.first.toNat + 1) 0xFFFFFFFF

def distance (m n : UInt32) : Nat :=
  (m.toNat - n.toNat) + (n.toNat - m.toNat)

-- Whether two blocks of one source start less than `reach` lines apart.
def overlaps (reach : Nat) (a b : Block) : Bool :=
  distance a.first b.first < reach && a.source == b.source

def fingerprintLength : Nat := 50

-- The start of the normal form. Blocks whose fingerprints differ are never compared.
def fingerprint (b : Block) : List Char :=
  b.normal.take fingerprintLength

end Block
end DuplicateBlocks
