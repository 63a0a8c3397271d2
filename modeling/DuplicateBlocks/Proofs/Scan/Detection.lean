import DuplicateBlocks.Proofs.Bucket
import DuplicateBlocks.Proofs.Grouping.Clusters
import DuplicateBlocks.Proofs.Harvest
import DuplicateBlocks.Proofs.Similarity
import DuplicateBlocks.Scan
import Mathlib.Tactic.MkIffOfInductiveProp

namespace DuplicateBlocks

namespace Grouping

variable {α : Type} {g : Grouping α} {root : α} {xs : List α}

def Alike (g : Grouping α) (a b : α) : Prop :=
  g.clash a b = false ∧ g.isSimilar a b = true

theorem joins_nil_iff {x : α} : g.joins root [] x = true ↔ g.Alike root x := by
  simp [joins, isApart, Alike]

theorem gathered_eq_nil_iff : g.gathered root [] xs = [] ↔ ∀ x ∈ xs, ¬g.Alike root x := by
  induction xs
  case nil => simp [gathered]
  case cons x xs hi =>
    rw [gathered]
    split
    case isTrue h  => simp [joins_nil_iff.mp h]
    case isFalse h => simp [hi, mt joins_nil_iff.mpr h]

theorem passed_of_not_alike (h : ∀ x ∈ xs, ¬g.Alike root x) : g.passed root [] xs = xs := by
  induction xs
  case nil => rfl
  case cons x xs hi =>
    have hx : ¬g.joins root [] x := mt joins_nil_iff.mp (h x List.mem_cons_self)
    rw [passed, if_neg hx, hi fun y hy => h y (List.mem_cons_of_mem x hy)]

-- Nothing is found only if there is nothing to find: a root that takes nothing leaves everything to the
-- roots after it.
theorem clusters_eq_nil_iff : g.clusters xs = [] ↔ xs.Pairwise fun a b => ¬g.Alike a b := by
  induction xs
  case nil => simp [clusters]
  case cons root xs hi =>
    have hc : (g.cluster? root (g.gathered root [] xs)).toList = [] ↔ g.gathered root [] xs = [] := by
      cases g.gathered root [] xs <;> simp [cluster?]
    rw [clusters, List.append_eq_nil_iff, List.pairwise_cons, hc, gathered_eq_nil_iff]
    refine and_congr_right fun h => ?_
    rw [passed_of_not_alike h, hi]

end Grouping

namespace Bucket

variable {g : Grouping Block}

-- A bucket of one block would hold no cluster, so it does no harm to look into all of them.
theorem flatMap_clusters_ofBlocks (g : Grouping Block) (bs : List Block) :
    ((ofBlocks bs).map blocks).flatMap g.clusters = (sortedBy Block.fingerprint bs).flatMap g.clusters := by
  have hs : ∀ xs : List Block, ¬2 ≤ xs.length → g.clusters xs = [] := by
    intro xs hx
    rw [Grouping.clusters_eq_nil_iff]
    match xs with
    | [] | [_] => simp
    | _ :: _ :: _ => simp at hx
  rw [map_blocks_ofBlocks]
  induction sortedBy Block.fingerprint bs
  case nil => rfl
  case cons xs xss hi =>
    by_cases hx : 2 ≤ xs.length
    case pos => simp_all
    case neg => simp_all [hs xs hx]

end Bucket

namespace Scan

variable {s : Settings} {us : List Source}

def sortedClusters (s : Settings) (bs : List Block) : List (Grouping.Cluster Block) :=
  (sortedBy Block.fingerprint bs).flatMap (grouping s).clusters

theorem pooled_groups (h : (pooled s us).counters.comparisonsTruncated = false) :
    (pooled s us).groups =
      (sortedClusters s (Harvest.ofSources s us).blocks.reverse).map Grouping.Cluster.group := by
  rw [sortedClusters, ← Bucket.flatMap_clusters_ofBlocks]
  exact Bucket.groups_of_not_truncated (Harvest.ofSources_comparisonsTruncated s us) h

theorem pooled_blocksTruncated (s : Settings) (us : List Source) :
    (pooled s us).counters.blocksTruncated = (Harvest.ofSources s us).counters.blocksTruncated := by
  have h := Grouping.ungrouped_runAll (grouping s)
  exact (congrArg Counters.blocksTruncated (h _ _) :)

theorem pooled_groups_available (h : (pooled s us).counters.isPartial = false) :
    (pooled s us).groups = (sortedClusters s (Harvest.available s us)).map Grouping.Cluster.group := by
  have ⟨hb, hc⟩ := Bool.or_eq_false_iff.mp h
  rw [pooled_groups hc, Harvest.blocks_of_not_truncated (pooled_blocksTruncated s us ▸ hb)]

end Scan

-- Two blocks that a scan has to report: they have one fingerprint, do not overlap and are similar enough.
@[mk_iff]
structure Duplicates (s : Settings) (a b : Block) : Prop where
  fingerprint : a.fingerprint = b.fingerprint
  apart       : ¬(a.source = b.source ∧ Block.distance a.first b.first < max 1 s.minLines)
  similar     : s.threshold.le (Similarity.score a.normal b.normal) = true

namespace Duplicates

variable {s : Settings} {a b : Block}

theorem symm (d : Duplicates s a b) : Duplicates s b a where
  fingerprint := d.fingerprint.symm
  apart       := by simpa [Block.distance, Nat.add_comm, eq_comm] using d.apart
  similar     := Similarity.score_comm .. ▸ d.similar

theorem iff_alike : Duplicates s a b ↔ a.fingerprint = b.fingerprint ∧ (Scan.grouping s).Alike a b := by
  have hc : (Scan.grouping s).clash a b = false ↔
      ¬(a.source = b.source ∧ Block.distance a.first b.first < max 1 s.minLines) := by
    rw [← Bool.not_eq_true]
    simp [Scan.grouping, Bucket.grouping, Block.overlaps, Settings.window, and_comm]
  rw [duplicates_iff, Grouping.Alike, hc]
  rfl

end Duplicates

namespace Scan

variable {s : Settings} {us : List Source} {bs : List Block}

theorem sortedClusters_eq_nil_iff :
    sortedClusters s bs = [] ↔ bs.Pairwise fun a b => ¬Duplicates s a b := by
  simp only [sortedClusters, List.flatMap_eq_nil_iff, Grouping.clusters_eq_nil_iff, pairwise_sortedBy,
    Duplicates.iff_alike, not_and]

theorem pooled_groups_eq_nil_iff (h : (pooled s us).counters.isPartial = false) :
    (pooled s us).groups = [] ↔ (Harvest.available s us).Pairwise fun a b => ¬Duplicates s a b := by
  rw [pooled_groups_available h, List.map_eq_nil_iff, sortedClusters_eq_nil_iff]

-- A scan that is not cut short reports a group exactly if, among the blocks of the sources that are not excluded,
-- two at different places are duplicates of each other.
theorem pooled_groups_ne_nil_iff (h : (pooled s us).counters.isPartial = false) :
    (pooled s us).groups ≠ [] ↔
      ∃ (i j : Nat) (a b : Block), i ≠ j ∧ (Harvest.available s us)[i]? = some a ∧
        (Harvest.available s us)[j]? = some b ∧ Duplicates s a b := by
  rw [ne_eq, pooled_groups_eq_nil_iff h, List.pairwise_iff_getElem]
  constructor
  case mp =>
    intro hd
    push Not at hd
    have ⟨i, j, hi, hj, hij, hd⟩ := hd
    exact ⟨i, j, _, _, Nat.ne_of_lt hij, List.getElem?_eq_getElem hi, List.getElem?_eq_getElem hj, hd⟩
  case mpr =>
    intro ⟨i, j, a, b, hij, hi, hj, hd⟩ hp
    have ⟨hil, hi⟩ := List.getElem?_eq_some_iff.mp hi
    have ⟨hjl, hj⟩ := List.getElem?_eq_some_iff.mp hj
    subst hi hj
    -- The root of a cluster is the earlier block, whichever of the two is named first.
    cases Nat.lt_or_gt_of_ne hij
    case inl hlt => exact hp i j hil hjl hlt hd
    case inr hgt => exact hp j i hjl hil hgt hd.symm

def twins : List Source :=
  [⟨"a", ['2', ';']⟩, ⟨"b", ['1', ';']⟩, ⟨"c", ['1', ';']⟩]

theorem pooled_twins_ne_nil :
    (pooled { minLines := 1 } twins).counters.isPartial = false ∧ (pooled { minLines := 1 } twins).groups ≠ [] := by
  have hp : (pooled { minLines := 1 } twins).counters.isPartial = false := by
    rw [pooled, Bucket.ofBlocks_eq]
    decide +kernel
  have hd : Duplicates { minLines := 1 } ⟨"b", 1, 1, ['1', ';'], ['1', ';']⟩ ⟨"c", 1, 1, ['1', ';'], ['1', ';']⟩ :=
    ⟨rfl, by decide, by decide +kernel⟩
  exact ⟨hp, (pooled_groups_ne_nil_iff hp).mpr ⟨1, 2, _, _, by decide, by decide +kernel, by decide +kernel, hd⟩⟩

end Scan
end DuplicateBlocks
