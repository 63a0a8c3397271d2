import DuplicateBlocks.Proofs.Scan.Accounts

namespace DuplicateBlocks

open Text

namespace Source

variable {s : Settings} {u : Source} {k : Nat}

def stretch (u : Source) (w k : Nat) : List (List Char) :=
  ((sourceLines u.text).drop (k * Window.stride w)).take w

-- There is room for `w` lines after `k` strides, and at least seven tenths of them are substantive.
structure Yields (u : Source) (w k : Nat) : Prop where
  room  : k * Window.stride w + w ≤ (sourceLines u.text).length
  dense : 7 * w ≤ 10 * (u.stretch w k).countP Window.isSubstantive

-- The block of the lines that `k` strides lead to.
structure Shows (s : Settings) (u : Source) (k : Nat) (b : Block) : Prop where
  source : b.source = u.id
  first  : b.first.toNat = k * Window.stride s.window + 1
  last   : b.last.toNat = k * Window.stride s.window + s.window
  raw    : b.raw = unlines (u.stretch s.window k)
  normal : b.normal = (Code.normalize s.code b.raw).text

theorem lines_after (u : Source) (w k : Nat) : (Window.after w u.lineArray k).lines = u.stretch w k :=
  Window.lines_after w (sourceLines u.text) k

theorem size_lineArray (u : Source) : u.lineArray.size = (sourceLines u.text).length :=
  List.size_toArray

def yielding (u : Source) (w : Nat) : List Nat :=
  (List.range (Window.count w u.lineArray.size)).filter fun k => (Window.after w u.lineArray k).isDense w

theorem pairwise_yielding (u : Source) (w : Nat) : (u.yielding w).Pairwise (· < ·) :=
  List.pairwise_lt_range.filter _

theorem mem_yielding_iff {w : Nat} : k ∈ u.yielding w ↔ u.Yields w k := by
  rw [yielding, List.mem_filter, List.mem_range, Window.lt_count_iff, Window.isDense, decide_eq_true_eq, lines_after,
    size_lineArray]
  exact ⟨fun h => ⟨h.left, h.right⟩, fun h => ⟨h.room, h.dense⟩⟩

theorem blocks_eq_map_yielding (limits : Code.Limits) (w : Nat) (u : Source) :
    u.blocks limits w = (u.yielding w).map fun k =>
      (Window.after w u.lineArray k).block u.id w (Code.normalize limits (Window.after w u.lineArray k).raw).text := by
  rw [blocks, Window.all_eq, List.filter_map, List.map_map]
  rfl

theorem shows_block (hn : (sourceLines u.text).length < Nat.pow 2 32) (h : u.Yields s.window k) :
    Shows s u k ((Window.after s.window u.lineArray k).block u.id s.window
      (Code.normalize s.code (Window.after s.window u.lineArray k).raw).text) := by
  have hw : 0 < s.window := Nat.le_max_left ..
  have hr := h.room
  have hn : (sourceLines u.text).length < UInt32.size := hn
  have hf : k * Window.stride s.window + 1 < UInt32.size := by omega
  have hl : k * Window.stride s.window + s.window < UInt32.size := by omega
  constructor
  case source => rfl
  case first  => exact UInt32.toNat_ofNat_of_lt' hf
  case last   => exact UInt32.toNat_ofNat_of_lt' hl
  case raw    => exact congrArg unlines (lines_after u s.window k)
  case normal => rfl

-- What sliding over the lines of a source comes to.
structure Windowed (s : Settings) (u : Source) : Prop where
  blocks     : ∃ ks : List Nat, ks.Pairwise (· < ·) ∧ (∀ k, k ∈ ks ↔ u.Yields s.window k) ∧
    List.Forall₂ (Shows s u) ks (u.blocks s.code s.window)
  considered : (Window.all s.window u.lineArray).length =
    if (sourceLines u.text).length < s.window then 0
    else ((sourceLines u.text).length - s.window) / Window.stride s.window + 1
  counted    : ∀ h : Harvest, (Harvest.addSource s u h).1 = true →
    (Harvest.addSource s u h).2.counters.windows =
      h.counters.windows + .ofNat (Window.all s.window u.lineArray).length
  -- Only the lines behind the last window are not looked at.
  covered    : s.window ≤ (sourceLines u.text).length →
    ∃ tail < Window.stride s.window, ∀ i, i + tail < (sourceLines u.text).length →
      ∃ win ∈ Window.all s.window u.lineArray, win.offset ≤ i ∧ i < win.offset + s.window
  -- Whether there is room is told by sums that do not run over a 64-bit word, however long a window is to be.
  fits       : s.window ≤ Tally.cap → ∀ k ≤ (Window.all s.window u.lineArray).length,
    k * Window.stride s.window + s.window ≤ Tally.cap

-- (Line numbers are 32-bit words.)
theorem windowed (s : Settings) (u : Source) (hn : (sourceLines u.text).length < Nat.pow 2 32) : Windowed s u := by
  have hw : 0 < s.window := Nat.le_max_left ..
  constructor
  case blocks =>
    refine ⟨u.yielding s.window, pairwise_yielding u s.window, fun k => mem_yielding_iff, ?_⟩
    rw [blocks_eq_map_yielding, List.forall₂_map_right_iff, List.forall₂_same]
    exact fun k hk => shows_block hn (mem_yielding_iff.mp hk)
  case considered => rw [Window.length_all, size_lineArray, Window.count]
  case counted    => exact fun h ha => Harvest.addSource_windows ha
  case covered    => exact size_lineArray u ▸ Window.exists_tail hw
  case fits =>
    intro hc k hk
    have hm := Window.add_le_of_le_count hw (Window.length_all s.window u.lineArray ▸ hk)
    rw [size_lineArray] at hm
    simp only [Nat.pow_eq, Tally.cap] at hn hc ⊢
    omega

def gapped : Source :=
  ⟨"a", "a;\nb;\n\n\ne;\nf;\ng;\nh;\ni;\nj;\n".toList⟩

-- Of the three windows of five lines the first two have too many blank lines, and none reaches the last line.
theorem windowed_gapped :
    (sourceLines gapped.text).length < Nat.pow 2 32 ∧
    (gapped.blocks ({} : Settings).code 5).map (fun b => (b.first, b.last, String.ofList b.raw)) =
      [(5, 9, "e;\nf;\ng;\nh;\ni;")] ∧
    (Window.all 5 gapped.lineArray).map Window.offset = [0, 2, 4] ∧
    Windowed { minLines := 5 } gapped :=
  ⟨by decide +kernel, by decide +kernel, by decide +kernel, windowed { minLines := 5 } gapped (by decide +kernel)⟩

end Source

namespace Scan

open Harvest

variable {s : Settings}

def ofBlocks (s : Settings) (bs : List Block) (c : Counters) : Scan :=
  let buckets := Bucket.ofBlocks bs
  let (groups, counters) := Bucket.groups (grouping s) buckets { c with buckets := .ofNat buckets.length }
  { groups, counters }

-- A scan works on the first blocks that its sources have, one source after the other and the excluded ones left out,
-- up to the ceiling. It counts them, and tells whether there were more. (The ceiling is a 64-bit word.)
theorem pooled_take_available (hs : s.maxBlocks ≤ Tally.cap) (us : List Source) :
    (ofSources s us).blocks.reverse = (available s us).take s.maxBlocks ∧
    pooled s us = ofBlocks s ((available s us).take s.maxBlocks) (ofSources s us).counters ∧
    (pooled s us).counters.blocks.toNat = ((available s us).take s.maxBlocks).length ∧
    ((pooled s us).counters.blocksTruncated = true ↔ s.maxBlocks < (available s us).length) := by
  have hb := blocks_eq_take hs us
  have hk : Kept (ofSources s us) (pooled s us).counters := kept_progress s _
  refine ⟨hb, ?_, ?_, ?_⟩
  · rw [← hb]
    rfl
  · rw [hk.blocks, (counted_ofSources hs us).count, ← hb, List.length_reverse]
  · rw [hk.blocksTruncated]
    exact blocksTruncated_iff hs us

def twoBlocks : Settings :=
  { minLines := 1, maxBlocks := 2, excluded := (Exclusion.ofPatterns ["b"]).1 }

def uneven : List Source :=
  [⟨"a", "1;\n2;".toList⟩, ⟨"b", "3;".toList⟩, ⟨"c", "// 4".toList⟩, ⟨"d", "5;".toList⟩]

-- The ceiling is met in the first source and noticed in the last. Without the last it fits.
theorem pooled_take_available_uneven :
    twoBlocks.maxBlocks ≤ Tally.cap ∧
    ((ofSources twoBlocks uneven).blocks.reverse.map fun b => (b.source, b.first)) = [("a", 1), ("a", 2)] ∧
    (pooled twoBlocks uneven).counters.blocks.toNat = 2 ∧
    (pooled twoBlocks uneven).counters.blocksTruncated = true ∧
    ¬(pooled twoBlocks (uneven.take 3)).counters.blocksTruncated = true := by
  have hc : twoBlocks.maxBlocks ≤ Tally.cap := by decide
  have ⟨hb, _, hn, ht⟩ := pooled_take_available hc uneven
  have ⟨_, _, _, hf⟩ := pooled_take_available hc (uneven.take 3)
  refine ⟨hc, ?_, ?_, ?_, ?_⟩
  · rw [hb]
    decide +kernel
  · rw [hn]
    decide +kernel
  · exact ht.mpr (by decide +kernel)
  · exact mt hf.mp (by decide +kernel)

end Scan
end DuplicateBlocks
