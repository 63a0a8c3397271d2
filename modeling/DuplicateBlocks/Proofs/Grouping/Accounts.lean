import DuplicateBlocks.Proofs.Grouping.Clusters
import Mathlib.Algebra.GroupWithZero.Nat
import Mathlib.Data.Nat.Choose.Basic

namespace DuplicateBlocks

-- The pairs looked at: compared, or passed over because they overlap.
def Counters.pairs (c : Counters) : Nat :=
  c.comparisons.toNat + c.overlappingPairs.toNat

namespace Grouping

variable {α : Type} {g : Grouping α}

-- What a sweep through `n` items makes of `s`.
structure Sweep.Paid (n : Nat) (s r : Sweep α) : Prop where
  pairs  : r.counters.pairs ≤ s.counters.pairs + n
  items  : r.taken.length + r.left.length ≤ s.taken.length + s.left.length + n
  joined : r.taken.length + s.counters.comparisons.toNat ≤ s.taken.length + r.counters.comparisons.toNat

namespace Sweep.Paid

variable {m n : Nat} {s t r : Sweep α}

theorem refl (s : Sweep α) : Paid 0 s s :=
  ⟨Nat.le_refl _, Nat.le_refl _, Nat.le_refl _⟩

theorem trans (a : Paid m s t) (b : Paid n t r) : Paid (m + n) s r where
  pairs  := by have := a.pairs; have := b.pairs; omega
  items  := by have := a.items; have := b.items; omega
  joined := by have := a.joined; have := b.joined; omega

theorem mono (h : m ≤ n) (a : Paid m s r) : Paid n s r where
  pairs  := by have := a.pairs; omega
  items  := by have := a.items; omega
  joined := a.joined

theorem refuse (s : Sweep α) : Paid 0 s s.refuse :=
  ⟨Nat.le_refl _, Nat.le_refl _, Nat.le_refl _⟩

-- A counter that is at its greatest is not raised, so it may fall behind the pairs but never run ahead of them.
theorem skip (s : Sweep α) (x : α) : Paid 1 s (s.skip x) where
  pairs  := by simp only [Counters.pairs, Sweep.skip, Tally.toNat_succ]; omega
  items  := by simp only [Sweep.skip, List.length_cons]; omega
  joined := Nat.le_refl _

theorem pass (s : Sweep α) (x : α) : Paid 1 s (s.pass x) where
  pairs  := by simp only [Counters.pairs, Sweep.pass, Tally.toNat_succ]; omega
  items  := by simp only [Sweep.pass, List.length_cons]; omega
  joined := by
    have := s.counters.comparisons.le_cap
    simp only [Sweep.pass, Tally.toNat_succ, Tally.cap]
    omega

theorem take (s : Sweep α) (x : α) (score : Binary64) (h : s.counters.comparisons.toNat < Tally.cap) :
    Paid 1 s (s.take x score) where
  pairs  := by simp only [Counters.pairs, Sweep.take, Tally.toNat_succ]; omega
  items  := by simp only [Sweep.take, List.length_cons]; omega
  joined := by simp only [Sweep.take, List.length_cons, Tally.toNat_succ]; omega

end Sweep.Paid

theorem paid_next {root x : α} {s : Sweep α}
    (h : g.isApart root s.taken x = true → s.counters.comparisons.toNat < Tally.cap) :
    Sweep.Paid 1 s (g.next root x s) := by
  unfold next
  split
  case isTrue ha =>
    split
    case isTrue  => exact .take s x _ (h ha)
    case isFalse => exact .pass s x
  case isFalse => exact .skip s x

-- The ceiling is a 64-bit word here, so that a comparison below it is always counted.
theorem paid_sweep (hg : g.maxComparisons ≤ Tally.cap) (root : α) (xs : List α) (s : Sweep α) :
    Sweep.Paid xs.length s (g.sweep root xs s) := by
  induction xs generalizing s
  case nil => exact .refl s
  case cons x xs hi =>
    rw [sweep_cons, List.length_cons, Nat.add_comm]
    split
    case isTrue     => exact (Sweep.Paid.refuse s).mono (Nat.zero_le _)
    case isFalse hl => exact (paid_next fun ha => by simp [ha] at hl; omega).trans (hi _)

def memberCount (ks : List (Cluster α)) : Nat :=
  (ks.map fun k => k.others.length + 1).sum

def joinedCount (ks : List (Cluster α)) : Nat :=
  (ks.map fun k => k.others.length).sum

theorem memberCount_eq (ks : List (Cluster α)) : memberCount ks = joinedCount ks + ks.length := by
  induction ks
  case nil => rfl
  case cons k ks hi =>
    simp only [memberCount, joinedCount, List.map_cons, List.sum_cons, List.length_cons] at hi ⊢
    omega

structure Progress.Paid (n : Nat) (p q : Progress α) : Prop where
  pairs   : q.counters.pairs ≤ p.counters.pairs + n.choose 2
  members : memberCount q.found ≤ memberCount p.found + n
  joined  : joinedCount q.found + p.counters.comparisons.toNat ≤ joinedCount p.found + q.counters.comparisons.toNat

theorem choose_two_succ (n : Nat) : (n + 1).choose 2 = n + n.choose 2 := by
  rw [Nat.choose_succ_succ, Nat.choose_one_right]

-- Pairs within one of two parts are pairs of the whole.
theorem choose_two_add_le (m n : Nat) : m.choose 2 + n.choose 2 ≤ (m + n).choose 2 := by
  induction m
  case zero => simp
  case succ m hi =>
    rw [choose_two_succ, Nat.succ_add, choose_two_succ]
    omega

namespace Progress.Paid

variable {m n : Nat} {p q r : Progress α}

theorem refl (p : Progress α) : Paid 0 p p :=
  ⟨Nat.le_refl _, Nat.le_refl _, Nat.le_refl _⟩

theorem trans (a : Paid m p q) (b : Paid n q r) : Paid (m + n) p r where
  pairs   := by have := a.pairs; have := b.pairs; have := choose_two_add_le m n; omega
  members := by have := a.members; have := b.members; omega
  joined  := by have := a.joined; have := b.joined; omega

theorem mono (h : m ≤ n) (a : Paid m p r) : Paid n p r where
  pairs   := Nat.le_trans a.pairs (Nat.add_le_add_left (Nat.choose_le_choose 2 h) _)
  members := by have := a.members; omega
  joined  := a.joined

end Progress.Paid

def Sweep.found (root : α) (s : Sweep α) (found : List (Cluster α)) : List (Cluster α) :=
  if s.taken.isEmpty then found else ⟨root, s.taken.reverse, s.lowest⟩ :: found

theorem memberCount_found_le (root : α) (s : Sweep α) (found : List (Cluster α)) :
    memberCount (s.found root found) ≤ memberCount found + (s.taken.length + 1) := by
  unfold Sweep.found
  split <;> simp [memberCount]
  omega

theorem joinedCount_found (root : α) (s : Sweep α) (found : List (Cluster α)) :
    joinedCount (s.found root found) = joinedCount found + s.taken.length := by
  cases h : s.taken <;> simp [Sweep.found, joinedCount, h]
  omega

-- A root sweeps through the `n` items after it, and a run goes on with no more than it leaves.
theorem Progress.Paid.root {m n : Nat} {root : α} {p q : Progress α} {s : Sweep α} {stopped : Bool}
    (hs : Sweep.Paid n { counters := p.counters } s) (hm : m ≤ s.left.length)
    (hq : Progress.Paid m { counters := s.counters, found := s.found root p.found, stopped } q) :
    Progress.Paid (n + 1) p q := by
  have ⟨hp, hi, hj⟩ := hs
  simp only [List.length_nil, Nat.zero_add] at hi hj
  constructor
  case pairs =>
    have hc : m.choose 2 ≤ n.choose 2 := Nat.choose_le_choose 2 (by omega)
    have := hq.pairs
    rw [choose_two_succ]
    simp only at *
    omega
  case members =>
    have := hq.members
    have := memberCount_found_le root s p.found
    simp only at *
    omega
  case joined =>
    have := hq.joined
    have := joinedCount_found root s p.found
    simp only at *
    omega

theorem paid_run (hg : g.maxComparisons ≤ Tally.cap) (xs : List α) (p : Progress α) :
    Progress.Paid xs.length p (g.run xs p) := by
  fun_induction g.run xs p
  case case1 p => exact .refl p
  case case2 root rest p s found hs =>
    have hw : Sweep.Paid rest.length { counters := p.counters } s := paid_sweep hg root rest _
    exact .root hw (Nat.zero_le _) (.refl _)
  case case3 root rest p s found hs hi =>
    have hw : Sweep.Paid rest.length { counters := p.counters } s := paid_sweep hg root rest _
    exact .root hw (Nat.le_of_eq List.length_reverse) hi

theorem paid_runAll (hg : g.maxComparisons ≤ Tally.cap) (xss : List (List α)) (p : Progress α) :
    Progress.Paid xss.flatten.length p (g.runAll xss p) := by
  induction xss generalizing p
  case nil => exact .refl p
  case cons xs xss hi =>
    have hx := paid_run hg xs p
    rw [runAll, List.flatten_cons, List.length_append]
    split
    case isTrue  => exact hx.mono (Nat.le_add_right ..)
    case isFalse => exact hx.trans (hi _)

end Grouping
end DuplicateBlocks
