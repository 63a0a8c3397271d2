import DuplicateBlocks.Proofs.Grouping.Clusters
import DuplicateBlocks.Scan

namespace DuplicateBlocks.Scan

open Grouping

def progress (s : Settings) (h : Harvest) : Progress Block :=
  (grouping s).runAll ((Bucket.ofBlocks h.blocks.reverse).map Bucket.blocks)
    { counters := { h.counters with buckets := .ofNat (Bucket.ofBlocks h.blocks.reverse).length } }

theorem pooled_counters (s : Settings) (us : List Source) :
    (pooled s us).counters = (progress s (Harvest.ofSources s us)).counters := rfl

theorem pooled_groups_found (s : Settings) (us : List Source) :
    (pooled s us).groups = (progress s (Harvest.ofSources s us)).found.reverse.map Cluster.group := rfl

theorem ungrouped_progress (s : Settings) (h : Harvest) :
    ungrouped (progress s h).counters =
      ungrouped { h.counters with buckets := .ofNat (Bucket.ofBlocks h.blocks.reverse).length } :=
  ungrouped_runAll (grouping s) _ _

-- What is counted in gathering is not touched in grouping.
structure Kept (h : Harvest) (c : Counters) : Prop where
  units           : c.units = h.counters.units
  excludedUnits   : c.excludedUnits = h.counters.excludedUnits
  windows         : c.windows = h.counters.windows
  sparseWindows   : c.sparseWindows = h.counters.sparseWindows
  blocks          : c.blocks = h.counters.blocks
  blocksTruncated : c.blocksTruncated = h.counters.blocksTruncated
  buckets         : c.buckets = .ofNat (Bucket.ofBlocks h.blocks.reverse).length

theorem kept_progress (s : Settings) (h : Harvest) : Kept h (progress s h).counters := by
  have hu := ungrouped_progress s h
  constructor
  case units           => exact (congrArg Counters.units hu :)
  case excludedUnits   => exact (congrArg Counters.excludedUnits hu :)
  case windows         => exact (congrArg Counters.windows hu :)
  case sparseWindows   => exact (congrArg Counters.sparseWindows hu :)
  case blocks          => exact (congrArg Counters.blocks hu :)
  case blocksTruncated => exact (congrArg Counters.blocksTruncated hu :)
  case buckets         => exact (congrArg Counters.buckets hu :)

end DuplicateBlocks.Scan
