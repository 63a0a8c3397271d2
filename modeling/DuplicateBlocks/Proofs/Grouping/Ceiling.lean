import DuplicateBlocks.Proofs.Grouping.Map
import DuplicateBlocks.Scan

namespace DuplicateBlocks

namespace Grouping

variable {α : Type} {g : Grouping α} {root x : α} {taken xs : List α}

-- What `n` requests for a comparison make of the counters `c`.
structure Asked (limit n : Nat) (c d : Counters) (stopped : Bool) : Prop where
  comparisons : d.comparisons.toNat = min limit (c.comparisons.toNat + n)
  stopped_iff : stopped = true ↔ limit < c.comparisons.toNat + n

namespace Asked

variable {limit m n : Nat} {b c d : Counters} {stopped : Bool}

theorem refl (h : c.comparisons.toNat ≤ limit) : Asked limit 0 c c false where
  comparisons := by simp [h]
  stopped_iff := by simp [h]

theorem after (h : c.comparisons.toNat = b.comparisons.toNat + m) (a : Asked limit n c d stopped) :
    Asked limit (m + n) b d stopped where
  comparisons := by rw [a.comparisons, h, Nat.add_assoc]
  stopped_iff := by rw [a.stopped_iff, h, Nat.add_assoc]

theorem trans (a : Asked limit m b c false) : Asked limit n c d stopped → Asked limit (m + n) b d stopped := by
  have h : ¬limit < b.comparisons.toNat + m := by simpa using a.stopped_iff
  exact after (by rw [a.comparisons]; omega)

theorem extend (a : Asked limit m b c true) (n : Nat) : Asked limit (m + n) b c true := by
  have h : limit < b.comparisons.toNat + m := by simpa using a.stopped_iff
  constructor
  case comparisons => rw [a.comparisons]; omega
  case stopped_iff => simp; omega

theorem comparisons_le (a : Asked limit n c d stopped) : d.comparisons.toNat ≤ limit :=
  a.comparisons ▸ Nat.min_le_left ..

end Asked

theorem compared_cons (g : Grouping α) (root x : α) (xs : List α) (s : Sweep α) :
    g.compared root s.taken (x :: xs) =
      (if g.isApart root s.taken x then 1 else 0) + g.compared root (g.next root x s).taken xs := by
  rw [compared, Nat.add_comm]
  unfold joins next
  cases ha : g.isApart root s.taken x <;> cases hs : g.isSimilar root x
  all_goals simp [Sweep.skip, Sweep.take, Sweep.pass]

theorem comparisons_next (g : Grouping α) (root x : α) (s : Sweep α) :
    (g.next root x s).counters.comparisons =
      if g.isApart root s.taken x then s.counters.comparisons.succ else s.counters.comparisons := by
  unfold next
  split <;> try split
  all_goals rfl

-- The ceiling is a 64-bit word here, so the counter meets it before it saturates.
theorem asked_sweep (hg : g.maxComparisons ≤ Tally.cap) (root : α) (xs : List α) {s : Sweep α}
    (hs : s.stopped = false) (hl : s.counters.comparisons.toNat ≤ g.maxComparisons) :
    Asked g.maxComparisons (g.compared root s.taken xs) s.counters (g.sweep root xs s).counters
      (g.sweep root xs s).stopped := by
  induction xs generalizing s
  case nil => exact hs ▸ .refl hl
  case cons x xs hi =>
    rw [sweep_cons, compared_cons]
    by_cases h : g.isApart root s.taken x ∧ g.maxComparisons ≤ s.counters.comparisons.toNat
    case pos =>
      have ⟨ha, hm⟩ := h
      rw [if_pos h]
      constructor
      case comparisons => simp [Sweep.refuse, ha]; omega
      case stopped_iff => simp [Sweep.refuse, ha]; omega
    case neg =>
      have hn : (g.next root x s).counters.comparisons.toNat =
          s.counters.comparisons.toNat + if g.isApart root s.taken x then 1 else 0 := by
        rw [comparisons_next]
        cases ha : g.isApart root s.taken x
        case false => rfl
        case true  => simp_all [Tally.toNat_succ]; omega
      rw [if_neg h]
      refine (hi ?going ?below).after hn
      case going => rw [next_stopped, hs]
      case below =>
        rw [hn]
        cases ha : g.isApart root s.taken x
        case false => simpa using hl
        case true  => exact Nat.lt_of_not_le fun hm => h ⟨ha, hm⟩

theorem asked_run (hg : g.maxComparisons ≤ Tally.cap) (xs : List α) {p : Progress α}
    (hp : p.stopped = false) (hl : p.counters.comparisons.toNat ≤ g.maxComparisons) :
    Asked g.maxComparisons (g.cost xs) p.counters (g.run xs p).counters (g.run xs p).stopped := by
  fun_induction g.run xs p
  case case1 p => simpa [cost, hp] using .refl hl
  case case2 root rest p s found hs =>
    have ha := asked_sweep hg root rest (s := { counters := p.counters }) rfl hl
    rw [cost]
    exact (hs ▸ ha).extend _
  case case3 root rest p s found hs hi =>
    rw [Bool.not_eq_true] at hs
    have ha := asked_sweep hg root rest (s := { counters := p.counters }) rfl hl
    have ha : Asked g.maxComparisons (g.compared root [] rest) p.counters s.counters false := hs ▸ ha
    have hc := (swept_sweep g root rest { counters := p.counters }).comes hs
    have hw : s.left.reverse = g.passed root [] rest := by simp [s, hc.left]
    rw [cost, ← hw]
    exact ha.trans (hi hp ha.comparisons_le)

def costAll (g : Grouping α) (xss : List (List α)) : Nat :=
  xss.foldr (fun xs n => g.cost xs + n) 0

theorem asked_runAll (hg : g.maxComparisons ≤ Tally.cap) (xss : List (List α)) {p : Progress α}
    (hp : p.stopped = false) (hl : p.counters.comparisons.toNat ≤ g.maxComparisons) :
    Asked g.maxComparisons (g.costAll xss) p.counters (g.runAll xss p).counters
      (g.runAll xss p).stopped := by
  induction xss generalizing p <;> simp only [runAll, costAll, List.foldr_nil, List.foldr_cons]
  case nil => exact hp ▸ .refl hl
  case cons xs xss hi =>
    have ha := asked_run hg xs hp hl
    cases hs : (g.run xs p).stopped <;> rw [hs] at ha
    case true  => simpa [hs] using ha.extend _
    case false => exact ha.trans (hi hs ha.comparisons_le)

end Grouping

namespace Scan

open Grouping

-- The groups of a list of buckets under a ceiling on comparisons, with all counters at zero before.
def bounded (s : Settings) (limit : Nat) (bs : List Bucket) : List Group × Counters :=
  Bucket.groups (grouping { s with maxComparisons := limit }) bs {}

variable {s : Settings} {m n : Nat} {bs : List Bucket}

-- What a list of buckets holds under every ceiling.
def held (s : Settings) (bs : List Bucket) : List (Cluster Block) :=
  (bs.map Bucket.blocks).flatMap (grouping s).clusters

def heldCost (s : Settings) (bs : List Bucket) : Nat :=
  (grouping s).costAll (bs.map Bucket.blocks)

theorem exists_cutShort_bounded (s : Settings) (m : Nat) (bs : List Bucket) :
    ∃ ks, (bounded s m bs).1 = ks.map Cluster.group ∧
      CutShort (grouping { s with maxComparisons := m }) ks (held s bs) := by
  have h := Bucket.exists_cutShort_groups (grouping { s with maxComparisons := m }) bs {}
  rwa [show (grouping { s with maxComparisons := m }).clusters = (grouping s).clusters from
    clusters_ceiling (grouping s) m] at h

theorem bounded_of_not_truncated (h : (bounded s n bs).2.comparisonsTruncated = false) :
    (bounded s n bs).1 = (held s bs).map Cluster.group := by
  rw [held, ← clusters_ceiling (grouping s) n]
  exact Bucket.groups_of_not_truncated rfl h

-- A ceiling that is a 64-bit word lets through as many comparisons as it says, and no others are needed.
theorem asked_bounded (hm : m ≤ Tally.cap) (bs : List Bucket) :
    Asked m (heldCost s bs) {} (bounded s m bs).2 (bounded s m bs).2.comparisonsTruncated := by
  have h := asked_runAll (g := grouping { s with maxComparisons := m }) hm (bs.map Bucket.blocks)
    (p := { counters := {} }) rfl (Nat.zero_le _)
  rw [stopped_runAll rfl rfl] at h
  rw [heldCost, costAll, ← cost_ceiling (grouping s) m]
  exact h

-- With a lower ceiling on comparisons the same groups come out up to a point; the group at which the ceiling
-- is met may have lost its last members. Ceilings are 64-bit words, so none is above `Tally.cap`.
theorem bounded_take_of_le (hmn : m ≤ n) (hn : n ≤ Tally.cap)
    (h : (bounded s n bs).2.comparisonsTruncated = false) :
    (∃ k ≤ (bounded s n bs).1.length,
      (bounded s m bs).1 = (bounded s n bs).1.take k ∨
      ∃ whole part, (bounded s n bs).1[k]? = some whole ∧
        (bounded s m bs).1 = (bounded s n bs).1.take k ++ [part] ∧
        part.members <+: whole.members ∧ 2 ≤ part.members.length) ∧
    (bounded s m bs).2.comparisons.toNat = min m (bounded s n bs).2.comparisons.toNat ∧
    ((bounded s m bs).2.comparisonsTruncated = true ↔ m < (bounded s n bs).2.comparisons.toNat) := by
  have hc : (bounded s n bs).2.comparisons.toNat = heldCost s bs := by
    have ha := asked_bounded (s := s) hn bs
    have hl := ha.stopped_iff
    have he := ha.comparisons
    simp [h] at hl he
    omega
  have ha := asked_bounded (s := s) (Nat.le_trans hmn hn) bs
  refine ⟨?groups, ?comparisons, ?truncated⟩
  case comparisons => simpa [hc] using ha.comparisons
  case truncated   => simpa [hc] using ha.stopped_iff
  case groups =>
    have ⟨ks, hk, hcut⟩ := exists_cutShort_bounded s m bs
    have ⟨k, hl, ht⟩ := hcut.exists_take
    rw [bounded_of_not_truncated h, hk]
    refine ⟨k, by simpa using hl, ?_⟩
    cases ht
    case inl ht => exact .inl (by simp [ht])
    case inr ht =>
      have ⟨whole, part, hw, ht, hr, ho, hne⟩ := ht
      refine .inr ⟨whole.group, part.group, by simp [hw], by simp [ht], ?_, ?_⟩
      · exact List.cons_prefix_cons.mpr ⟨hr, ho⟩
      · simpa [Group.members, Cluster.group, Nat.one_le_iff_ne_zero] using hne

def fiveBlocks : List Bucket :=
  let block (source : String) (text : List Char) : Block := ⟨source, 1, 1, text, text⟩
  [⟨['x'], [block "a" ['x'], block "b" ['x'], block "c" ['x']]⟩,
    ⟨['y'], [block "a" ['y'], block "b" ['y']]⟩]

-- One comparison is enough for a part of the first group only.
theorem bounded_fiveBlocks :
    (bounded {} 3 fiveBlocks).2.comparisonsTruncated = false ∧
    (bounded {} 1 fiveBlocks).1.map (·.members.length) = [2] ∧
    (bounded {} 3 fiveBlocks).1.map (·.members.length) = [3, 2] ∧
    (bounded {} 1 fiveBlocks).2.comparisons.toNat = min 1 (bounded {} 3 fiveBlocks).2.comparisons.toNat ∧
    ((bounded {} 1 fiveBlocks).2.comparisonsTruncated = true ↔
      1 < (bounded {} 3 fiveBlocks).2.comparisons.toNat) := by
  have h : (bounded {} 3 fiveBlocks).2.comparisonsTruncated = false := by decide +kernel
  have hb := bounded_take_of_le (s := {}) (m := 1) (n := 3) (by decide) (by decide) h
  exact ⟨h, by decide +kernel, by decide +kernel, hb.right⟩

end Scan
end DuplicateBlocks
