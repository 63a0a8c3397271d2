import DuplicateBlocks.Proofs.Bucket
import DuplicateBlocks.Proofs.Grouping.Accounts
import DuplicateBlocks.Proofs.Grouping.Ceiling
import DuplicateBlocks.Proofs.Harvest
import DuplicateBlocks.Proofs.Scan.Progress
import DuplicateBlocks.Proofs.Window

namespace DuplicateBlocks

theorem Window.length_all_le {w : Nat} (hw : 0 < w) (lines : Array (List Char)) :
    (all w lines).length ≤ lines.size := by
  have hd := Nat.div_le_self (lines.size - w) (stride w)
  rw [length_all, count]
  split <;> omega

def Source.lineTotal (us : List Source) : Nat :=
  (us.map fun u => u.lineArray.size).sum

namespace Harvest

variable {s : Settings} {id : String} {win : Window} {wins : List Window} {h q r : Harvest} {us : List Source}
  {m n : Nat}

-- Every window that was looked at was rejected, became a block, or asked for the block that was refused.
def Sorted (h : Harvest) : Prop :=
  h.counters.windows.toNat =
    h.counters.sparseWindows.toNat + h.counters.blocks.toNat + h.counters.blocksTruncated.toNat

-- What looking at up to `n` windows makes of a harvest.
structure Looked (n : Nat) (h r : Harvest) : Prop where
  sorted  : h.Sorted → r.Sorted
  windows : r.counters.windows.toNat ≤ h.counters.windows.toNat + n

namespace Looked

theorem refl (h : Harvest) : Looked 0 h h :=
  ⟨id, Nat.le_refl _⟩

theorem trans (a : Looked m h q) (b : Looked n q r) : Looked (m + n) h r where
  sorted  := b.sorted ∘ a.sorted
  windows := by have := a.windows; have := b.windows; omega

theorem mono (hn : m ≤ n) (a : Looked m h r) : Looked n h r where
  sorted  := a.sorted
  windows := by have := a.windows; omega

theorem refuse (c : Code.Normal) (ht : h.counters.blocksTruncated = false)
    (hl : h.counters.windows.toNat < Tally.cap) : Looked 1 h (h.refuse c) where
  sorted  := by
    intro hs
    simp only [Sorted, Harvest.refuse, Counters.recordNormal, Counters.record, Tally.toNat_succ, ht,
      Bool.toNat_false, Bool.toNat_true] at hs ⊢
    omega
  windows := by
    simp only [Harvest.refuse, Counters.recordNormal, Counters.record, Tally.toNat_succ]
    omega

theorem reject (hl : h.counters.windows.toNat < Tally.cap) : Looked 1 h h.reject where
  sorted  := by simp only [Sorted, Harvest.reject, Tally.toNat_succ]; omega
  windows := by simp only [Harvest.reject, Tally.toNat_succ]; omega

theorem accept (c : Code.Normal) (b : Block) (hl : h.counters.windows.toNat < Tally.cap) :
    Looked 1 h (h.accept c b) where
  sorted  := by
    simp only [Sorted, Harvest.accept, Counters.recordNormal, Counters.record, Tally.toNat_succ]
    omega
  windows := by
    simp only [Harvest.accept, Counters.recordNormal, Counters.record, Tally.toNat_succ]
    omega

theorem next (s : Settings) (id : String) (win : Window) (hl : h.counters.windows.toNat < Tally.cap) :
    Looked 1 h (h.next s id win) := by
  unfold Harvest.next
  split
  case isTrue  => exact .accept _ _ hl
  case isFalse => exact .reject hl

end Looked

theorem looked_gather (s : Settings) (id : String) (wins : List Window)
    (ht : h.counters.blocksTruncated = false) (hl : h.counters.windows.toNat + wins.length ≤ Tally.cap) :
    Looked wins.length h (gather s id wins h).2 := by
  induction wins generalizing h
  case nil => exact .refl h
  case cons win wins hi =>
    rw [List.length_cons] at hl
    rw [gather_cons, List.length_cons, Nat.add_comm]
    split
    case isTrue  => exact (Looked.refuse _ ht (by omega)).mono (Nat.le_add_right ..)
    case isFalse =>
      have hn := Looked.next s id win (h := h) (by omega)
      have hw := hn.windows
      refine hn.trans (hi ?_ (by omega))
      rw [next_blocksTruncated, ht]

theorem looked_addSource (s : Settings) (u : Source)
    (hl : h.counters.windows.toNat + u.lineArray.size ≤ Tally.cap) :
    Looked u.lineArray.size h (addSource s u h).2 := by
  unfold addSource
  split
  case isTrue     => exact (Looked.refl h).mono (Nat.zero_le _)
  case isFalse ht =>
    have hw : (Window.all s.window u.lineArray).length ≤ u.lineArray.size :=
      Window.length_all_le (Nat.le_max_left ..) _
    have hg := looked_gather s u.id (Window.all s.window u.lineArray)
      (h := { h with counters := { h.counters with lines := h.counters.lines + .ofNat u.lineArray.size } })
      (by simpa using ht) (by simp only; omega)
    exact (⟨hg.sorted, hg.windows⟩ : Looked _ h _).mono hw

theorem looked_addSources (s : Settings) (us : List Source)
    (hl : h.counters.windows.toNat + Source.lineTotal us ≤ Tally.cap) :
    Looked (Source.lineTotal us) h (addSources s us h) := by
  induction us generalizing h
  case nil => exact .refl h
  case cons u us hi =>
    have hc : Source.lineTotal (u :: us) = u.lineArray.size + Source.lineTotal us := rfl
    have hu := looked_addSource (h := h) s u (by omega)
    have hw := hu.windows
    rw [addSources_cons, hc]
    split <;> try split
    case isTrue =>
      have he := hi (h := h.exclude) (by simp only [exclude]; omega)
      exact (⟨he.sorted, he.windows⟩ : Looked _ h _).mono (Nat.le_add_left ..)
    case isFalse.isTrue  => exact hu.trans (hi (by omega))
    case isFalse.isFalse => exact hu.mono (Nat.le_add_right ..)

theorem gather_excludedUnits (s : Settings) (id : String) (wins : List Window) (h : Harvest) :
    (gather s id wins h).2.counters.excludedUnits = h.counters.excludedUnits := by
  induction wins generalizing h
  case nil => rfl
  case cons win wins hi =>
    have hn : (h.next s id win).counters.excludedUnits = h.counters.excludedUnits := by
      unfold next
      split <;> rfl
    rw [gather_cons]
    split
    case isTrue  => rfl
    case isFalse => rw [hi, hn]

theorem addSource_excludedUnits (s : Settings) (u : Source) (h : Harvest) :
    (addSource s u h).2.counters.excludedUnits = h.counters.excludedUnits := by
  unfold addSource
  split
  case isTrue  => rfl
  case isFalse => exact gather_excludedUnits s u.id _ _

theorem addSources_excludedUnits_le (s : Settings) (us : List Source) (h : Harvest) :
    (addSources s us h).counters.excludedUnits.toNat ≤ h.counters.excludedUnits.toNat + us.length := by
  induction us generalizing h
  case nil => exact Nat.le_refl _
  case cons u us hi =>
    have hu := congrArg Tally.toNat (addSource_excludedUnits s u h)
    rw [addSources_cons, List.length_cons]
    split <;> try split
    case isTrue =>
      have he : h.exclude.counters.excludedUnits.toNat ≤ h.counters.excludedUnits.toNat + 1 := Nat.min_le_left ..
      have := hi h.exclude
      omega
    case isFalse.isTrue =>
      have := hi (addSource s u h).2
      omega
    case isFalse.isFalse => omega

theorem sorted_ofSources (hl : Source.lineTotal us ≤ Tally.cap) : (ofSources s us).Sorted := by
  refine (looked_addSources s us ?_).sorted rfl
  simpa using hl

theorem ofSources_excludedUnits_le (s : Settings) (us : List Source) :
    (ofSources s us).counters.excludedUnits.toNat ≤ us.length := by
  have h := addSources_excludedUnits_le s us { counters := { units := .ofNat us.length } }
  rwa [Tally.toNat_zero, Nat.zero_add] at h

-- The counter of blocks tells how many there are: as many as the ceiling says once one was refused.
structure Counted (limit : Nat) (h : Harvest) : Prop where
  count : h.counters.blocks.toNat = h.blocks.length
  le    : h.counters.blocks.toNat ≤ limit
  eq    : h.counters.blocksTruncated = true → h.counters.blocks.toNat = limit

theorem counted_ofSources (hs : s.maxBlocks ≤ Tally.cap) (us : List Source) :
    Counted s.maxBlocks (ofSources s us) := by
  have ho := offered_ofSources hs us
  have hb := congrArg List.length ho.blocks
  have hc := ho.count
  simp only [List.length_append, List.length_reverse, List.length_take, List.length_nil, Tally.toNat_zero] at hb hc
  constructor
  case count => omega
  case le    => exact ho.count_le
  case eq    =>
    intro ht
    have ha := (blocksTruncated_iff hs us).mp ht
    omega

end Harvest

namespace Scan

open Grouping

variable {s : Settings} {us : List Source}

theorem asked_progress (hc : s.maxComparisons ≤ Tally.cap) {h : Harvest} (h0 : h.counters.comparisons = 0)
    (ht : h.counters.comparisonsTruncated = false) :
    ∃ n, Asked s.maxComparisons n h.counters (progress s h).counters
      (progress s h).counters.comparisonsTruncated := by
  have ha := asked_runAll (g := grouping s) hc ((Bucket.ofBlocks h.blocks.reverse).map Bucket.blocks)
    (p := { counters := { h.counters with buckets := .ofNat (Bucket.ofBlocks h.blocks.reverse).length } }) rfl
    (by simp [h0])
  rw [stopped_runAll rfl ht] at ha
  exact ⟨_, ha.comparisons, ha.stopped_iff⟩

theorem paid_progress (hc : s.maxComparisons ≤ Tally.cap) (h : Harvest) :
    Progress.Paid h.blocks.length { counters := h.counters } (progress s h) := by
  have hl := Bucket.length_flatten_ofBlocks_le h.blocks.reverse
  rw [List.length_reverse] at hl
  have hp := (paid_runAll (g := grouping s) hc ((Bucket.ofBlocks h.blocks.reverse).map Bucket.blocks)
    { counters := { h.counters with buckets := .ofNat (Bucket.ofBlocks h.blocks.reverse).length } }).mono hl
  exact ⟨hp.pairs, hp.members, hp.joined⟩

theorem sum_members (ks : List (Cluster Block)) :
    ((ks.reverse.map Cluster.group).map (·.members.length)).sum = memberCount ks := by
  rw [List.map_map, List.map_reverse, List.sum_reverse]
  rfl

-- How the counters of a scan of `us` hang together, and how the groups depend on them.
structure Balanced (s : Settings) (us : List Source) (scan : Scan) : Prop where
  units          : scan.counters.units.toNat = us.length
  excluded       : scan.counters.excludedUnits.toNat ≤ scan.counters.units.toNat
  windows        : scan.counters.windows.toNat =
    scan.counters.sparseWindows.toNat + scan.counters.blocks.toNat + scan.counters.blocksTruncated.toNat
  blocks_le      : scan.counters.blocks.toNat ≤ s.maxBlocks
  blocks_eq      : scan.counters.blocksTruncated = true → scan.counters.blocks.toNat = s.maxBlocks
  buckets        : 2 * scan.counters.buckets.toNat ≤ scan.counters.blocks.toNat
  comparisons_le : scan.counters.comparisons.toNat ≤ s.maxComparisons
  comparisons_eq : scan.counters.comparisonsTruncated = true → scan.counters.comparisons.toNat = s.maxComparisons
  pairs          : scan.counters.comparisons.toNat + scan.counters.overlappingPairs.toNat ≤
    scan.counters.blocks.toNat * (scan.counters.blocks.toNat - 1) / 2
  members        : (scan.groups.map (·.members.length)).sum ≤ scan.counters.blocks.toNat
  joined         : (scan.groups.map (·.members.length)).sum - scan.groups.length ≤ scan.counters.comparisons.toNat

-- Whatever a scan counts adds up, and the counters stay below the ceilings; a ceiling that was asked for more is met.
-- (Ceilings and the lengths of lists are 64-bit words, and so are the counters: the lines must not be more than they
-- can count.)
theorem balanced_pooled (hb : s.maxBlocks ≤ Tally.cap) (hc : s.maxComparisons ≤ Tally.cap)
    (hu : us.length ≤ Tally.cap) (hl : Source.lineTotal us ≤ Tally.cap) : (pooled s us).Balanced s us := by
  -- Gathering compares nothing, and grouping leaves alone what was gathered.
  have hn := Harvest.ungathered_ofSources s us
  have h0 : (Harvest.ofSources s us).counters.comparisons = 0 := congrArg Counters.comparisons hn
  have h1 : (Harvest.ofSources s us).counters.overlappingPairs = 0 := congrArg Counters.overlappingPairs hn
  have hk : Kept (Harvest.ofSources s us) (pooled s us).counters := kept_progress s _
  have hx : (Harvest.ofSources s us).counters.units = .ofNat us.length := congrArg Counters.units hn
  have hunits : (pooled s us).counters.units.toNat = us.length := by
    rw [hk.units, hx, Tally.toNat_ofNat, Nat.min_eq_left hu]
  have hcount := Harvest.counted_ofSources hb us
  have ⟨n, hasked⟩ := asked_progress hc h0 (congrArg Counters.comparisonsTruncated hn)
  have hpaid := paid_progress hc (Harvest.ofSources s us)
  constructor
  case units    => exact hunits
  case excluded => exact hunits ▸ hk.excludedUnits ▸ Harvest.ofSources_excludedUnits_le s us
  case windows =>
    rw [hk.windows, hk.sparseWindows, hk.blocks, hk.blocksTruncated]
    exact Harvest.sorted_ofSources hl
  case blocks_le => exact hk.blocks ▸ hcount.le
  case blocks_eq => exact hk.blocks ▸ hk.blocksTruncated ▸ hcount.eq
  case buckets =>
    have h2 := Bucket.two_mul_length_ofBlocks_le (Harvest.ofSources s us).blocks.reverse
    rw [List.length_reverse] at h2
    rw [hk.buckets, hk.blocks, hcount.count, Tally.toNat_ofNat]
    omega
  case comparisons_le => exact hasked.comparisons_le
  case comparisons_eq =>
    intro ht
    have hlt := hasked.stopped_iff.mp ht
    exact hasked.comparisons.trans (Nat.min_eq_left (Nat.le_of_lt hlt))
  case pairs =>
    have hp := hpaid.pairs
    simp only [Counters.pairs, h0, h1, Tally.toNat_zero, Nat.zero_add] at hp
    rwa [hk.blocks, hcount.count, ← Nat.choose_two_right]
  case members =>
    have hp := hpaid.members
    rw [pooled_groups_found, sum_members, hk.blocks, hcount.count]
    simpa [memberCount] using hp
  case joined =>
    have hp := hpaid.joined
    simp only [h0, Tally.toNat_zero, Nat.add_zero] at hp
    rw [pooled_groups_found, sum_members, memberCount_eq, List.length_map, List.length_reverse, Nat.add_sub_cancel,
      pooled_counters]
    simpa [joinedCount] using hp

-- A scan that both ceilings cut short: four equal lines, three blocks, one comparison.
def curbed : Settings :=
  { minLines := 1, maxBlocks := 3, maxComparisons := 1 }

def fourfold : List Source :=
  [⟨"a", "1;\n1;\n1;\n1;".toList⟩]

theorem balanced_curbed_fourfold :
    (pooled curbed fourfold).counters.blocksTruncated = true ∧
      (pooled curbed fourfold).counters.comparisonsTruncated = true ∧
      (pooled curbed fourfold).Balanced curbed fourfold := by
  have ht : (pooled curbed fourfold).counters.blocksTruncated = true ∧
      (pooled curbed fourfold).counters.comparisonsTruncated = true := by
    rw [pooled, Bucket.ofBlocks_eq]
    decide +kernel
  exact ⟨ht.1, ht.2, balanced_pooled (by decide) (by decide) (by decide) (by decide +kernel)⟩

end Scan
end DuplicateBlocks
