import DuplicateBlocks.Bucket
import DuplicateBlocks.Counters
import DuplicateBlocks.Similarity
import DuplicateBlocks.Text.Digest

namespace DuplicateBlocks

-- A block and the later ones found similar to it, with the lowest of their scores.
structure Group where
  root : Block
  others : List Block
  lowest : Binary64
  deriving DecidableEq

namespace Group

def members (g : Group) : List Block :=
  g.root :: g.others

def fileCount (g : Group) : Nat :=
  (g.members.map Block.source).eraseDups.length

def isSameFile (g : Group) : Bool :=
  g.fileCount == 1

def digest (g : Group) : UInt64 :=
  Text.Digest.ofText g.root.normal

end Group

-- What decides whether one item joins another's group.
structure Grouping (α : Type) where
  clash : α → α → Bool
  score : α → α → Binary64
  threshold : Binary64
  maxComparisons : Nat

namespace Grouping

variable {α : Type}

-- One root's way through the items after it. Items are listed with the latest first.
structure Sweep (α : Type) where
  counters : Counters
  taken : List α := []
  left : List α := []
  lowest : Binary64 := .hundred
  -- A comparison was refused.
  stopped : Bool := false

def sweep (g : Grouping α) (root : α) : List α → Sweep α → Sweep α
  | [], s => s
  | x :: xs, s =>
    if g.clash root x || s.taken.any (g.clash · x) then
      g.sweep root xs
        { s with counters := { s.counters with overlappingPairs := s.counters.overlappingPairs.succ }
                 left := x :: s.left }
    else
      let (admitted, counters) := s.counters.admitComparison g.maxComparisons
      if !admitted then { s with counters, stopped := true }
      else
        let score := g.score root x
        if g.threshold.le score then
          g.sweep root xs { s with counters, taken := x :: s.taken, lowest := s.lowest.min score }
        else g.sweep root xs { s with counters, left := x :: s.left }

theorem length_left_sweep_le (g : Grouping α) (root : α) (xs : List α) (s : Sweep α) :
    (g.sweep root xs s).left.length ≤ s.left.length + xs.length := by
  induction xs generalizing s with
  | nil => simp [sweep]
  | cons x xs ih =>
    have hleft := ih { s with counters := { s.counters with overlappingPairs := s.counters.overlappingPairs.succ }
                              left := x :: s.left }
    have htaken := ih { s with counters := (s.counters.admitComparison g.maxComparisons).2, taken := x :: s.taken
                               lowest := s.lowest.min (g.score root x) }
    have hpassed := ih { s with counters := (s.counters.admitComparison g.maxComparisons).2, left := x :: s.left }
    simp only [List.length_cons] at hleft htaken hpassed
    simp only [sweep, List.length_cons]
    split
    · omega
    · split
      · simp
      · split <;> omega

structure Cluster (α : Type) where
  root : α
  others : List α
  lowest : Binary64

structure Progress (α : Type) where
  counters : Counters
  found : List (Cluster α) := []
  stopped : Bool := false

def run (g : Grouping α) : List α → Progress α → Progress α
  | [], p => p
  | root :: rest, p =>
    let s := g.sweep root rest { counters := p.counters }
    let found := if s.taken.isEmpty then p.found else ⟨root, s.taken.reverse, s.lowest⟩ :: p.found
    if s.stopped then { counters := s.counters, found, stopped := true }
    else g.run s.left.reverse { p with counters := s.counters, found }
termination_by xs => xs.length
decreasing_by
  have := length_left_sweep_le g root rest { counters := p.counters }
  simp_all only [List.length_reverse, List.length_cons, List.length_nil]
  omega

-- Clusters several lists of items one after the other, until a comparison is refused.
def runAll (g : Grouping α) : List (List α) → Progress α → Progress α
  | [], p => p
  | xs :: rest, p =>
    let q := g.run xs p
    if q.stopped then q else g.runAll rest q

end Grouping

namespace Bucket

-- How blocks are grouped: windows of one source that overlap are one occurrence.
def grouping (w : Nat) (threshold : Binary64) (maxComparisons : Nat) : Grouping Block where
  clash := Block.overlaps w
  score a b := Similarity.score a.normal b.normal
  threshold := threshold
  maxComparisons := maxComparisons

def groups (g : Grouping Block) (bs : List Bucket) (c : Counters) : List Group × Counters :=
  let p := g.runAll (bs.map Bucket.blocks) { counters := c }
  (p.found.reverse.map fun k => ⟨k.root, k.others, k.lowest⟩, p.counters)

end Bucket
end DuplicateBlocks
