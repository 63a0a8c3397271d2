import DuplicateBlocks.Group
import DuplicateBlocks.Harvest

namespace DuplicateBlocks

structure Scan where
  groups : List Group := []
  counters : Counters := {}

namespace Scan

def grouping (s : Settings) : Grouping Block :=
  Bucket.grouping s.window s.threshold s.maxComparisons

def pooled (s : Settings) (sources : List Source) : Scan :=
  let h := Harvest.ofSources s sources
  let buckets := Bucket.ofBlocks h.blocks.reverse
  let (groups, counters) :=
    Bucket.groups (grouping s) buckets { h.counters with buckets := .ofNat buckets.length }
  { groups, counters }

-- The first group in one source.
def first (s : Settings) (source : Source) : Scan :=
  let scan := pooled s [source]
  { scan with groups := scan.groups.take 1 }

def append (a b : Scan) : Scan where
  groups := a.groups ++ b.groups
  counters := a.counters.merge b.counters

def each (s : Settings) (sources : List Source) : Scan :=
  sources.foldl (fun scan src => scan.append (pooled s [src])) {}

theorem append_assoc (a b c : Scan) : (a.append b).append c = a.append (b.append c) := by
  simp only [append, List.append_assoc, Counters.merge_assoc]

theorem append_empty (a : Scan) : a.append {} = a := by
  simp only [append, List.append_nil, Counters.merge_empty]

theorem empty_append (a : Scan) : append {} a = a := by
  simp only [append, List.nil_append, Counters.merge_comm {}, Counters.merge_empty]

theorem foldl_append (s : Settings) (us : List Source) (a : Scan) :
    us.foldl (fun scan u => scan.append (pooled s [u])) a = a.append (each s us) := by
  induction us generalizing a
  case nil => exact (append_empty a).symm
  case cons u us hi => rw [each, List.foldl_cons, List.foldl_cons, hi, hi, empty_append, append_assoc]

theorem each_cons (s : Settings) (u : Source) (us : List Source) :
    each s (u :: us) = (pooled s [u]).append (each s us) := by
  rw [each, List.foldl_cons, foldl_append, empty_append]

end Scan
end DuplicateBlocks
