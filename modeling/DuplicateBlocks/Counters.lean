import DuplicateBlocks.Code.Normal
import DuplicateBlocks.Tally

namespace DuplicateBlocks

@[ext]
structure Counters where
  units : Tally := 0
  excludedUnits : Tally := 0
  lines : Tally := 0
  windows : Tally := 0
  sparseWindows : Tally := 0
  blocks : Tally := 0
  blocksTruncated : Bool := false
  buckets : Tally := 0
  comparisons : Tally := 0
  comparisonsTruncated : Bool := false
  overlappingPairs : Tally := 0
  oversized : Tally := 0
  untracked : Tally := 0
  tooLong : Tally := 0
  deriving DecidableEq

namespace Counters

-- Whether a ceiling cut the scan short.
def isPartial (c : Counters) : Bool :=
  c.blocksTruncated || c.comparisonsTruncated

-- Asks for one more block.
def admitBlock (limit : Nat) (c : Counters) : Bool × Counters :=
  if limit ≤ c.blocks.toNat then (false, { c with blocksTruncated := true })
  else (true, { c with blocks := c.blocks.succ })

def admitComparison (limit : Nat) (c : Counters) : Bool × Counters :=
  if limit ≤ c.comparisons.toNat then (false, { c with comparisonsTruncated := true })
  else (true, { c with comparisons := c.comparisons.succ })

def record (oversized untracked tooLong : Nat) (c : Counters) : Counters :=
  { c with
    oversized := c.oversized + .ofNat oversized
    untracked := c.untracked + .ofNat untracked
    tooLong := c.tooLong + .ofNat tooLong }

def recordNormal (n : Code.Normal) (c : Counters) : Counters :=
  c.record n.skipped.toNat n.untracked n.tooLong

-- The counters of two scans taken together.
def merge (a b : Counters) : Counters where
  units := a.units + b.units
  excludedUnits := a.excludedUnits + b.excludedUnits
  lines := a.lines + b.lines
  windows := a.windows + b.windows
  sparseWindows := a.sparseWindows + b.sparseWindows
  blocks := a.blocks + b.blocks
  blocksTruncated := a.blocksTruncated || b.blocksTruncated
  buckets := a.buckets + b.buckets
  comparisons := a.comparisons + b.comparisons
  comparisonsTruncated := a.comparisonsTruncated || b.comparisonsTruncated
  overlappingPairs := a.overlappingPairs + b.overlappingPairs
  oversized := a.oversized + b.oversized
  untracked := a.untracked + b.untracked
  tooLong := a.tooLong + b.tooLong

theorem merge_comm (a b : Counters) : a.merge b = b.merge a := by
  simp only [merge, Tally.add_comm, Bool.or_comm]

theorem merge_assoc (a b c : Counters) : (a.merge b).merge c = a.merge (b.merge c) := by
  simp only [merge, Tally.add_assoc, Bool.or_assoc]

theorem merge_empty (a : Counters) : a.merge {} = a := by
  simp [merge, Tally.add_zero]

end Counters
end DuplicateBlocks
