import DuplicateBlocks.Harvest

namespace DuplicateBlocks

namespace Window

def blocks (s : Settings) (id : String) (wins : List Window) : List Block :=
  (wins.filter (isDense s.window)).map fun win => win.block id s.window (Code.normalize s.code win.raw).text

theorem blocks_cons (s : Settings) (id : String) (win : Window) (wins : List Window) :
    blocks s id (win :: wins) = blocks s id [win] ++ blocks s id wins := by
  simp [blocks, ← List.map_append, ← List.filter_append]

theorem length_blocks_singleton (s : Settings) (id : String) (win : Window) :
    (blocks s id [win]).length = if win.isDense s.window then 1 else 0 := by
  cases h : win.isDense s.window <;> simp [blocks, h]

end Window

namespace Harvest

variable {s : Settings} {id : String} {wins : List Window} {h : Harvest} {us : List Source}

-- The blocks of all sources that are not excluded, from the first source on.
def available (s : Settings) (us : List Source) : List Block :=
  (us.filter fun u => !s.excluded.excludes u.id).flatMap (Source.blocks s.code s.window)

def reject (h : Harvest) : Harvest :=
  { h with counters := { h.counters with
      windows := h.counters.windows.succ
      sparseWindows := h.counters.sparseWindows.succ } }

def refuse (h : Harvest) (n : Code.Normal) : Harvest :=
  { h with counters :=
      { { h.counters with windows := h.counters.windows.succ }.recordNormal n with blocksTruncated := true } }

def accept (h : Harvest) (n : Code.Normal) (b : Block) : Harvest where
  counters :=
    { { h.counters with windows := h.counters.windows.succ }.recordNormal n with
      blocks := h.counters.blocks.succ }
  blocks := b :: h.blocks

-- The harvest after a window whose block, if it has one, is admitted.
def next (s : Settings) (id : String) (win : Window) (h : Harvest) : Harvest :=
  let n := Code.normalize s.code win.raw
  if win.isDense s.window then h.accept n (win.block id s.window n.text) else h.reject

theorem gather_cons (s : Settings) (id : String) (win : Window) (wins : List Window) (h : Harvest) :
    gather s id (win :: wins) h =
      if win.isDense s.window ∧ s.maxBlocks ≤ h.counters.blocks.toNat then
        (false, h.refuse (Code.normalize s.code win.raw))
      else gather s id wins (h.next s id win) := by
  cases hd : win.isDense s.window
  case false => simp [gather, next, hd, reject]
  case true =>
    by_cases hl : s.maxBlocks ≤ h.counters.blocks.toNat
    · simp [gather, hd, hl, Counters.admitBlock, Counters.recordNormal, Counters.record, refuse]
    · simp [gather, next, hd, hl, Counters.admitBlock, Counters.recordNormal, Counters.record, accept]

theorem next_blocks (s : Settings) (id : String) (win : Window) (h : Harvest) :
    (h.next s id win).blocks = (Window.blocks s id [win]).reverse ++ h.blocks := by
  cases hd : win.isDense s.window <;> simp [next, hd, Window.blocks, accept, reject]

theorem next_count (s : Settings) (id : String) (win : Window) (h : Harvest) :
    (h.next s id win).counters.blocks =
      if win.isDense s.window then h.counters.blocks.succ else h.counters.blocks := by
  unfold next
  split <;> rfl

theorem next_blocksTruncated (s : Settings) (id : String) (win : Window) (h : Harvest) :
    (h.next s id win).counters.blocksTruncated = h.counters.blocksTruncated := by
  unfold next
  split <;> rfl

theorem next_windows (s : Settings) (id : String) (win : Window) (h : Harvest) :
    (h.next s id win).counters.windows = h.counters.windows.succ := by
  unfold next
  split <;> rfl

def ungathered (c : Counters) : Counters where
  units := c.units
  buckets := c.buckets
  comparisons := c.comparisons
  comparisonsTruncated := c.comparisonsTruncated
  overlappingPairs := c.overlappingPairs

theorem ungathered_next (s : Settings) (id : String) (win : Window) (h : Harvest) :
    ungathered (h.next s id win).counters = ungathered h.counters := by
  unfold next
  split <;> rfl

theorem ungathered_gather (s : Settings) (id : String) (wins : List Window) (h : Harvest) :
    ungathered (gather s id wins h).2.counters = ungathered h.counters := by
  induction wins generalizing h
  case nil => rfl
  case cons win wins hi =>
    rw [gather_cons]
    split
    case isTrue  => rfl
    case isFalse => rw [hi, ungathered_next]

-- Whether a block was refused is told twice, by the answer and by the counters.
theorem gather_blocksTruncated (s : Settings) (id : String) (wins : List Window) (h : Harvest) :
    (gather s id wins h).2.counters.blocksTruncated =
      (h.counters.blocksTruncated || !(gather s id wins h).1) := by
  induction wins generalizing h
  case nil => simp [gather]
  case cons win wins hi =>
    rw [gather_cons]
    split
    case isTrue  => simp [refuse]
    case isFalse => rw [hi, next_blocksTruncated]

theorem gather_blocks (ha : (gather s id wins h).1 = true) :
    (gather s id wins h).2.blocks = (Window.blocks s id wins).reverse ++ h.blocks := by
  induction wins generalizing h
  case nil => rfl
  case cons win wins hi =>
    rw [gather_cons] at ha ⊢
    split at ha
    case isTrue => simp at ha
    case isFalse hf =>
      rw [if_neg hf, hi ha, next_blocks, Window.blocks_cons s id win wins]
      simp

theorem gather_windows (ha : (gather s id wins h).1 = true) :
    (gather s id wins h).2.counters.windows = h.counters.windows + .ofNat wins.length := by
  induction wins generalizing h
  case nil => exact (Tally.add_zero _).symm
  case cons win wins hi =>
    rw [gather_cons] at ha ⊢
    split at ha
    case isTrue => simp at ha
    case isFalse hf =>
      rw [if_neg hf, hi ha, next_windows, Tally.succ, Tally.add_assoc, ← Tally.ofNat_add, List.length_cons,
        Nat.add_comm 1]

-- What offering the blocks `bs` makes of a harvest.
structure Offered (limit : Nat) (bs : List Block) (h r : Harvest) (admitted : Bool) : Prop where
  blocks : r.blocks = (bs.take (limit - h.counters.blocks.toNat)).reverse ++ h.blocks
  count  : r.counters.blocks.toNat = min limit (h.counters.blocks.toNat + bs.length)
  admitted_iff : admitted = true ↔ h.counters.blocks.toNat + bs.length ≤ limit

namespace Offered

variable {limit : Nat} {bs cs : List Block} {h q r : Harvest} {admitted : Bool}

theorem refl (hl : h.counters.blocks.toNat ≤ limit) : Offered limit [] h h true where
  blocks := by simp
  count  := by simp [hl]
  admitted_iff := by simp [hl]

theorem trans (a : Offered limit bs h q true) (b : Offered limit cs q r admitted) :
    Offered limit (bs ++ cs) h r admitted := by
  have hl : h.counters.blocks.toNat + bs.length ≤ limit := by simpa using a.admitted_iff
  have hc : q.counters.blocks.toNat = h.counters.blocks.toNat + bs.length := by
    rw [a.count]
    exact Nat.min_eq_right hl
  constructor
  case blocks =>
    have ht : bs.take (limit - h.counters.blocks.toNat) = bs := List.take_of_length_le (by omega)
    have hs : limit - h.counters.blocks.toNat - bs.length = limit - (h.counters.blocks.toNat + bs.length) := by
      omega
    simp [b.blocks, a.blocks, hc, List.take_append, ht, hs]
  case count => rw [b.count, hc, List.length_append, Nat.add_assoc]
  case admitted_iff => rw [b.admitted_iff, hc, List.length_append, Nat.add_assoc]

theorem extend (a : Offered limit bs h q false) (cs : List Block) : Offered limit (bs ++ cs) h q false := by
  have hl : limit < h.counters.blocks.toNat + bs.length := by simpa using a.admitted_iff
  constructor
  case blocks => rw [a.blocks, List.take_append_of_le_length (by omega)]
  case count  => rw [a.count, List.length_append]; omega
  case admitted_iff => simp; omega

theorem count_le (a : Offered limit bs h r admitted) : r.counters.blocks.toNat ≤ limit :=
  a.count ▸ Nat.min_le_left ..

end Offered

-- The ceiling is a 64-bit word here, so the counter meets it before it saturates.
theorem offered_gather (hs : s.maxBlocks ≤ Tally.cap) (id : String) (wins : List Window) {h : Harvest}
    (hl : h.counters.blocks.toNat ≤ s.maxBlocks) :
    Offered s.maxBlocks (Window.blocks s id wins) h (gather s id wins h).2 (gather s id wins h).1 := by
  induction wins generalizing h
  case nil => exact .refl hl
  case cons win wins hi =>
    rw [gather_cons, Window.blocks_cons s id win wins]
    by_cases hd : win.isDense s.window ∧ s.maxBlocks ≤ h.counters.blocks.toNat
    case pos =>
      rw [if_pos hd]
      refine Offered.extend ?_ _
      have hm : s.maxBlocks - h.counters.blocks.toNat = 0 := by omega
      constructor
      case blocks => simp [refuse, hm]
      case count  => simp [refuse, Counters.recordNormal, Counters.record]; omega
      case admitted_iff => simp [Window.length_blocks_singleton, hd.left]; omega
    case neg =>
      rw [if_neg hd]
      have hn : (h.next s id win).counters.blocks.toNat =
          h.counters.blocks.toNat + (Window.blocks s id [win]).length := by
        rw [next_count, Window.length_blocks_singleton]
        cases hw : win.isDense s.window <;> simp_all [Tally.toNat_succ]
        omega
      have hm : h.counters.blocks.toNat + (Window.blocks s id [win]).length ≤ s.maxBlocks := by
        rw [Window.length_blocks_singleton]
        cases hw : win.isDense s.window
        case false => simpa using hl
        case true  => exact Nat.lt_of_not_le fun hm => hd ⟨hw, hm⟩
      refine Offered.trans ?_ (hi (hn ▸ hm))
      constructor
      case blocks => rw [next_blocks, List.take_of_length_le (by omega)]
      case count  => rw [hn]; omega
      case admitted_iff => simpa using hm

theorem ungathered_addSource (s : Settings) (u : Source) (h : Harvest) :
    ungathered (addSource s u h).2.counters = ungathered h.counters := by
  unfold addSource
  split
  case isTrue  => rfl
  case isFalse => exact ungathered_gather s u.id _ _

theorem addSource_blocksTruncated (s : Settings) (u : Source) (h : Harvest) :
    (addSource s u h).2.counters.blocksTruncated = !(addSource s u h).1 := by
  unfold addSource
  split
  case isTrue ht => simp [ht]
  case isFalse h => simp_all [gather_blocksTruncated]

theorem addSource_blocks {u : Source} (ha : (addSource s u h).1 = true) :
    (addSource s u h).2.blocks = (Source.blocks s.code s.window u).reverse ++ h.blocks := by
  unfold addSource at ha ⊢
  split at ha
  case isTrue => simp at ha
  case isFalse ht =>
    rw [if_neg ht]
    exact gather_blocks ha

theorem addSource_windows {u : Source} (ha : (addSource s u h).1 = true) :
    (addSource s u h).2.counters.windows =
      h.counters.windows + .ofNat (Window.all s.window u.lineArray).length := by
  unfold addSource at ha ⊢
  split at ha
  case isTrue => simp at ha
  case isFalse ht =>
    rw [if_neg ht]
    exact gather_windows ha

theorem offered_addSource (hs : s.maxBlocks ≤ Tally.cap) (u : Source) {h : Harvest}
    (ht : h.counters.blocksTruncated = false) (hl : h.counters.blocks.toNat ≤ s.maxBlocks) :
    Offered s.maxBlocks (Source.blocks s.code s.window u) h (addSource s u h).2 (addSource s u h).1 := by
  have ho := offered_gather hs u.id (Window.all s.window u.lineArray)
    (h := { h with counters := { h.counters with lines := h.counters.lines + .ofNat u.lineArray.size } }) hl
  rw [addSource, ht]
  exact ⟨ho.blocks, ho.count, ho.admitted_iff⟩

theorem available_cons (s : Settings) (u : Source) (us : List Source) :
    available s (u :: us) =
      (if s.excluded.excludes u.id then [] else Source.blocks s.code s.window u) ++ available s us := by
  cases h : s.excluded.excludes u.id <;> simp [available, h]

theorem available_append (s : Settings) (us vs : List Source) :
    available s (us ++ vs) = available s us ++ available s vs := by
  simp [available]

def exclude (h : Harvest) : Harvest :=
  { h with counters := { h.counters with excludedUnits := h.counters.excludedUnits.succ } }

theorem addSources_cons (s : Settings) (u : Source) (us : List Source) (h : Harvest) :
    addSources s (u :: us) h =
      if s.excluded.excludes u.id then addSources s us h.exclude
      else if (addSource s u h).1 then addSources s us (addSource s u h).2
      else (addSource s u h).2 := rfl

theorem ungathered_addSources (s : Settings) (us : List Source) (h : Harvest) :
    ungathered (addSources s us h).counters = ungathered h.counters := by
  induction us generalizing h
  case nil => rfl
  case cons u us hi =>
    rw [addSources_cons]
    split <;> try split
    case isTrue          => exact hi h.exclude
    case isFalse.isTrue  => rw [hi, ungathered_addSource]
    case isFalse.isFalse => rw [ungathered_addSource]

theorem addSources_blocks (ht : (addSources s us h).counters.blocksTruncated = false) :
    (addSources s us h).blocks = (available s us).reverse ++ h.blocks := by
  induction us generalizing h
  case nil => rfl
  case cons u us hi =>
    rw [available_cons]
    rw [addSources] at ht ⊢
    split <;> rename_i he
    case isTrue  => simp_all
    case isFalse =>
      simp only [he] at ht ⊢
      cases ha : (addSource s u h).1
      case true  => simp_all [addSource_blocks]
      case false => simp [ha, addSource_blocksTruncated] at ht

theorem offered_addSources (hs : s.maxBlocks ≤ Tally.cap) (us : List Source) {h : Harvest}
    (ht : h.counters.blocksTruncated = false) (hl : h.counters.blocks.toNat ≤ s.maxBlocks) :
    Offered s.maxBlocks (available s us) h (addSources s us h)
      (!(addSources s us h).counters.blocksTruncated) := by
  induction us generalizing h
  case nil => simpa [addSources, available, ht] using Offered.refl hl
  case cons u us hi =>
    rw [available_cons]
    cases he : s.excluded.excludes u.id
    case true =>
      have ho := hi
        (h := { h with counters := { h.counters with excludedUnits := h.counters.excludedUnits.succ } }) ht hl
      simp only [addSources, he, if_pos, List.nil_append]
      exact ⟨ho.blocks, ho.count, ho.admitted_iff⟩
    case false =>
      have ho := offered_addSource hs u ht hl
      have hb := addSource_blocksTruncated s u h
      simp only [addSources, he, Bool.false_eq_true, if_false]
      cases ha : (addSource s u h).1 <;> rw [ha] at ho hb
      case true  => exact ho.trans (hi hb ho.count_le)
      case false => simpa [ha, hb] using ho.extend _

theorem mem_blocks_gather {b : Block} (hb : b ∈ (gather s id wins h).2.blocks) :
    b ∈ Window.blocks s id wins ∨ b ∈ h.blocks := by
  induction wins generalizing h
  case nil => exact .inr hb
  case cons win wins hi =>
    rw [gather_cons] at hb
    split at hb
    case isTrue  => exact .inr hb
    case isFalse =>
      rw [Window.blocks_cons, List.mem_append]
      refine (hi hb).elim (fun hw => .inl (.inr hw)) fun hn => ?_
      rw [next_blocks, List.mem_append, List.mem_reverse] at hn
      exact hn.imp_left .inl

theorem mem_blocks_addSource {u : Source} {b : Block} (hb : b ∈ (addSource s u h).2.blocks) :
    b ∈ u.blocks s.code s.window ∨ b ∈ h.blocks := by
  unfold addSource at hb
  split at hb
  case isTrue  => exact .inr hb
  case isFalse => exact (mem_blocks_gather hb :)

theorem mem_blocks_addSources {b : Block} (hb : b ∈ (addSources s us h).blocks) :
    b ∈ available s us ∨ b ∈ h.blocks := by
  induction us generalizing h
  case nil => exact .inr hb
  case cons u us hi =>
    rw [available_cons, List.mem_append]
    rw [addSources_cons] at hb
    split at hb <;> rename_i he
    case isTrue  => exact (hi hb).imp_left .inr
    case isFalse =>
      rw [if_neg he]
      split at hb
      case isTrue =>
        rcases hi hb with hs | hb
        · exact .inl (.inr hs)
        · exact (mem_blocks_addSource hb).imp_left .inl
      case isFalse => exact (mem_blocks_addSource hb).imp_left .inl

theorem exists_source_of_mem_ofSources {b : Block} (hb : b ∈ (ofSources s us).blocks) :
    ∃ u ∈ us, b ∈ u.blocks s.code s.window := by
  have ha : b ∈ available s us := by simpa using mem_blocks_addSources hb
  have ⟨u, hu, hb⟩ := List.mem_flatMap.mp ha
  exact ⟨u, (List.mem_filter.mp hu).left, hb⟩

theorem blocks_of_not_truncated (ht : (ofSources s us).counters.blocksTruncated = false) :
    (ofSources s us).blocks.reverse = available s us := by
  simp [ofSources, addSources_blocks ht]

theorem offered_ofSources (hs : s.maxBlocks ≤ Tally.cap) (us : List Source) :
    Offered s.maxBlocks (available s us) { counters := { units := .ofNat us.length } } (ofSources s us)
      (!(ofSources s us).counters.blocksTruncated) :=
  offered_addSources hs us rfl (Nat.zero_le _)

theorem blocks_eq_take (hs : s.maxBlocks ≤ Tally.cap) (us : List Source) :
    (ofSources s us).blocks.reverse = (available s us).take s.maxBlocks := by
  simpa using congrArg List.reverse (offered_ofSources hs us).blocks

-- A block is refused exactly if there is one too many, not if the last one just fits.
theorem blocksTruncated_iff (hs : s.maxBlocks ≤ Tally.cap) (us : List Source) :
    (ofSources s us).counters.blocksTruncated = true ↔ s.maxBlocks < (available s us).length := by
  have h := (offered_ofSources hs us).admitted_iff
  rw [Tally.toNat_zero, Nat.zero_add, Bool.not_eq_true', ← Nat.not_lt] at h
  rw [← Bool.not_eq_false, not_congr h, Decidable.not_not]

theorem ungathered_ofSources (s : Settings) (us : List Source) :
    ungathered (ofSources s us).counters = { units := .ofNat us.length } :=
  ungathered_addSources ..

theorem ofSources_comparisonsTruncated (s : Settings) (us : List Source) :
    (ofSources s us).counters.comparisonsTruncated = false :=
  congrArg Counters.comparisonsTruncated (ungathered_ofSources s us)

end Harvest
end DuplicateBlocks
