import DuplicateBlocks.Group

namespace DuplicateBlocks

namespace Grouping

variable {α : Type} {g : Grouping α} {root x : α} {taken xs ys : List α}

-- Whether an item overlaps neither the root nor anything that the root has taken. Only such an item
-- is compared.
def isApart (g : Grouping α) (root : α) (taken : List α) (x : α) : Bool :=
  !(g.clash root x || taken.any (g.clash · x))

def isSimilar (g : Grouping α) (root x : α) : Bool :=
  g.threshold.le (g.score root x)

def joins (g : Grouping α) (root : α) (taken : List α) (x : α) : Bool :=
  g.isApart root taken x && g.isSimilar root x

-- What a root takes from the items after it, having taken `taken` before.
def gathered (g : Grouping α) (root : α) : List α → List α → List α
  | _, [] => []
  | taken, x :: xs =>
    if g.joins root taken x then x :: g.gathered root (x :: taken) xs else g.gathered root taken xs

-- What it leaves to later roots.
def passed (g : Grouping α) (root : α) : List α → List α → List α
  | _, [] => []
  | taken, x :: xs =>
    if g.joins root taken x then g.passed root (x :: taken) xs else x :: g.passed root taken xs

def compared (g : Grouping α) (root : α) : List α → List α → Nat
  | _, [] => 0
  | taken, x :: xs =>
    g.compared root (if g.joins root taken x then x :: taken else taken) xs +
      if g.isApart root taken x then 1 else 0

-- The lowest score of a root and the items it took, from `m` down.
def lowest (g : Grouping α) (root : α) (m : Binary64) (others : List α) : Binary64 :=
  others.foldl (fun m x => m.min (g.score root x)) m

def cluster? (g : Grouping α) (root : α) (others : List α) : Option (Cluster α) :=
  if others.isEmpty then none else some ⟨root, others, g.lowest root .hundred others⟩

theorem length_passed_le (g : Grouping α) (root : α) (taken xs : List α) :
    (g.passed root taken xs).length ≤ xs.length := by
  induction xs generalizing taken <;> simp only [passed]
  case nil => simp
  case cons x xs hi =>
    split
    · exact Nat.le_succ_of_le (hi _)
    · exact Nat.succ_le_succ (hi _)

-- The clusters of a list of items, the first found first.
def clusters (g : Grouping α) : List α → List (Cluster α)
  | [] => []
  | root :: rest =>
    (g.cluster? root (g.gathered root [] rest)).toList ++ g.clusters (g.passed root [] rest)
termination_by xs => xs.length
decreasing_by exact Nat.lt_succ_of_le (length_passed_le ..)

def cost (g : Grouping α) : List α → Nat
  | [] => 0
  | root :: rest => g.compared root [] rest + g.cost (g.passed root [] rest)
termination_by xs => xs.length
decreasing_by exact Nat.lt_succ_of_le (length_passed_le ..)

namespace Sweep

variable {s : Sweep α}

def skip (s : Sweep α) (x : α) : Sweep α :=
  { s with
    counters := { s.counters with overlappingPairs := s.counters.overlappingPairs.succ }
    left := x :: s.left }

def refuse (s : Sweep α) : Sweep α :=
  { s with counters := { s.counters with comparisonsTruncated := true }, stopped := true }

def take (s : Sweep α) (x : α) (score : Binary64) : Sweep α :=
  { s with
    counters := { s.counters with comparisons := s.counters.comparisons.succ }
    taken := x :: s.taken
    lowest := s.lowest.min score }

def pass (s : Sweep α) (x : α) : Sweep α :=
  { s with
    counters := { s.counters with comparisons := s.counters.comparisons.succ }
    left := x :: s.left }

end Sweep

-- The state after an item whose comparison, if it asks for one, is granted.
def next (g : Grouping α) (root x : α) (s : Sweep α) : Sweep α :=
  if g.isApart root s.taken x then
    if g.isSimilar root x then s.take x (g.score root x) else s.pass x
  else s.skip x

theorem sweep_cons (g : Grouping α) (root x : α) (xs : List α) (s : Sweep α) :
    g.sweep root (x :: xs) s =
      if g.isApart root s.taken x ∧ g.maxComparisons ≤ s.counters.comparisons.toNat then s.refuse
      else g.sweep root xs (g.next root x s) := by
  cases h : g.clash root x || s.taken.any (g.clash · x)
  case true =>
    simp only [sweep, isApart, next, h, ↓reduceIte, Bool.not_true, Bool.false_eq_true, false_and]
    rfl
  case false =>
    simp only [sweep, isApart, next, h, Bool.false_eq_true, ↓reduceIte, Bool.not_false, true_and]
    by_cases hl : g.maxComparisons ≤ s.counters.comparisons.toNat
    case pos => simp [Counters.admitComparison, hl, Sweep.refuse]
    case neg =>
      simp only [Counters.admitComparison, hl, ↓reduceIte, Bool.not_true, Bool.false_eq_true]
      cases hs : g.isSimilar root x <;> simp only [isSimilar] at hs <;> simp [hs] <;> rfl

theorem next_stopped (g : Grouping α) (root x : α) (s : Sweep α) :
    (g.next root x s).stopped = s.stopped := by
  unfold next
  split <;> try split
  all_goals rfl

theorem next_truncated (g : Grouping α) (root x : α) (s : Sweep α) :
    (g.next root x s).counters.comparisonsTruncated = s.counters.comparisonsTruncated := by
  unfold next
  split <;> try split
  all_goals rfl

-- What a sweep that began in `s` has come to after the items `ys`.
structure Comes (g : Grouping α) (root : α) (ys : List α) (s r : Sweep α) : Prop where
  taken  : r.taken = (g.gathered root s.taken ys).reverse ++ s.taken
  left   : r.left = (g.passed root s.taken ys).reverse ++ s.left
  lowest : r.lowest = g.lowest root s.lowest (g.gathered root s.taken ys)

theorem Comes.next {s r : Sweep α} (c : Comes g root ys (g.next root x s) r) :
    Comes g root (x :: ys) s r := by
  have ⟨ht, hl, hm⟩ := c
  cases ha : g.isApart root s.taken x
  case false =>
    simp only [Grouping.next, Sweep.skip, ha, Bool.false_eq_true, ↓reduceIte] at ht hl hm
    constructor <;> simp [*, gathered, passed, joins]
  case true =>
    cases hs : g.isSimilar root x
    case false =>
      simp only [Grouping.next, Sweep.pass, ha, hs, Bool.false_eq_true, ↓reduceIte] at ht hl hm
      constructor <;> simp [*, gathered, passed, joins]
    case true =>
      simp only [Grouping.next, Sweep.take, ha, hs, ↓reduceIte] at ht hl hm
      constructor <;> simp [*, gathered, passed, joins, Grouping.lowest]

inductive Swept (g : Grouping α) (root : α) (xs : List α) (s r : Sweep α) : Prop
  | through (stopped : r.stopped = s.stopped) (comes : Comes g root xs s r)
  | refused (ys : List α) (stopped : r.stopped = true) (split : ys <+: xs) (comes : Comes g root ys s r)

theorem Swept.next {s r : Sweep α} : Swept g root xs (g.next root x s) r → Swept g root (x :: xs) s r
  | through hs hc       => .through (hs.trans (next_stopped ..)) hc.next
  | refused ys hs hx hc => .refused (x :: ys) hs (List.cons_prefix_cons.mpr ⟨rfl, hx⟩) hc.next

theorem Swept.comes {s r : Sweep α} (h : Swept g root xs s r) (hr : r.stopped = false) :
    Comes g root xs s r := by
  cases h
  case through h       => exact h
  case refused _ h _ _ => simp [hr] at h

theorem swept_sweep (g : Grouping α) (root : α) (xs : List α) (s : Sweep α) :
    Swept g root xs s (g.sweep root xs s) := by
  induction xs generalizing s
  case nil => exact .through rfl ⟨rfl, rfl, rfl⟩
  case cons x xs hi =>
    rw [sweep_cons]
    split
    case isTrue  => exact .refused [] rfl List.nil_prefix ⟨rfl, rfl, rfl⟩
    case isFalse => exact (hi _).next

-- Taking from fewer items gives a beginning of what is taken from all of them.
theorem gathered_mono (h : ys <+: xs) : g.gathered root taken ys <+: g.gathered root taken xs := by
  induction ys generalizing xs taken
  case nil => exact List.nil_prefix
  case cons y ys hi =>
    have ⟨zs, hz⟩ := h
    subst hz
    simp only [List.cons_append, gathered]
    split
    · exact List.cons_prefix_cons.mpr ⟨rfl, hi (List.prefix_append ..)⟩
    · exact hi (List.prefix_append ..)

-- The clusters `ks` cut short: a beginning of them, and perhaps a part of the next one.
inductive CutShort (g : Grouping α) : List (Cluster α) → List (Cluster α) → Prop
  | nil (ks : List (Cluster α)) : CutShort g [] ks
  | part {k : Cluster α} {others : List α} (ks : List (Cluster α)) (h : others <+: k.others)
      (hn : others ≠ []) : CutShort g [⟨k.root, others, g.lowest k.root .hundred others⟩] (k :: ks)
  | cons {cs ks : List (Cluster α)} (k : Cluster α) : CutShort g cs ks → CutShort g (k :: cs) (k :: ks)

namespace CutShort

variable {cs ks ls : List (Cluster α)}

theorem refl : (ks : List (Cluster α)) → CutShort g ks ks
  | []      => nil []
  | k :: ks => cons k (refl ks)

theorem append_right (h : CutShort g cs ks) : CutShort g cs (ks ++ ls) := by
  induction h
  case nil         => exact nil _
  case part h hn   => exact part _ h hn
  case cons k _ hi => exact cons k hi

theorem append_left (h : CutShort g cs ks) : (ls : List (Cluster α)) → CutShort g (ls ++ cs) (ls ++ ks)
  | []      => h
  | k :: ls => cons k (append_left h ls)

theorem cluster? (root : α) (h : ys <+: xs) (ks : List (Cluster α)) :
    CutShort g (g.cluster? root ys).toList ((g.cluster? root xs).toList ++ ks) := by
  cases ys
  case nil => exact nil _
  case cons y ys =>
    have ⟨zs, hz⟩ := h
    subst hz
    exact part (k := ⟨root, _, _⟩) _ h (by simp)

theorem exists_take (h : CutShort g cs ks) :
    ∃ i ≤ ks.length, cs = ks.take i ∨ ∃ k part, ks[i]? = some k ∧ cs = ks.take i ++ [part] ∧
      part.root = k.root ∧ part.others <+: k.others ∧ part.others ≠ [] := by
  induction h
  case nil         => exact ⟨0, Nat.zero_le _, .inl rfl⟩
  case part h hn   => exact ⟨0, Nat.zero_le _, .inr ⟨_, _, rfl, rfl, rfl, h, hn⟩⟩
  case cons k _ hi =>
    have ⟨i, hl, h⟩ := hi
    refine ⟨i + 1, Nat.succ_le_succ hl, ?_⟩
    cases h
    case inl h => exact .inl (by simp [h])
    case inr h =>
      have ⟨k', c, hk, h, hp⟩ := h
      exact .inr ⟨k', c, hk, by simp [h], hp⟩

end CutShort

-- A run finds all of the clusters `ks`, or it is stopped and finds a beginning of them.
inductive Ran (g : Grouping α) (ks : List (Cluster α)) (p r : Progress α) : Prop
  | through (stopped : r.stopped = p.stopped) (found : r.found = ks.reverse ++ p.found)
  | refused (cs : List (Cluster α)) (stopped : r.stopped = true)
      (found : r.found = cs.reverse ++ p.found) (cut : CutShort g cs ks)

namespace Ran

variable {ks ls : List (Cluster α)} {p q r : Progress α}

theorem trans (h : q.stopped = p.stopped) (hf : q.found = ks.reverse ++ p.found) :
    Ran g ls q r → Ran g (ks ++ ls) p r
  | through hs hr       => .through (hs.trans h) (by simp [hr, hf])
  | refused cs hs hr hc => .refused (ks ++ cs) hs (by simp [hr, hf]) (hc.append_left ks)

theorem exists_cutShort (h : Ran g ks p r) :
    ∃ cs, r.found = cs.reverse ++ p.found ∧ CutShort g cs ks := by
  cases h
  case through hf       => exact ⟨ks, hf, .refl ks⟩
  case refused cs _ hf hc => exact ⟨cs, hf, hc⟩

theorem found_of_not_stopped (h : Ran g ks p r) (hr : r.stopped = false) :
    r.found = ks.reverse ++ p.found := by
  cases h
  case through hf       => exact hf
  case refused _ hs _ _ => simp [hr] at hs

end Ran

theorem Comes.found {c : Counters} {s : Sweep α} (h : Comes g root ys { counters := c } s)
    (found : List (Cluster α)) :
    (if s.taken.isEmpty then found else ⟨root, s.taken.reverse, s.lowest⟩ :: found) =
      (g.cluster? root (g.gathered root [] ys)).toList.reverse ++ found := by
  have ht : s.taken = (g.gathered root [] ys).reverse := by simpa using h.taken
  rw [ht, h.lowest]
  cases hg : g.gathered root [] ys <;> simp [Grouping.cluster?]

theorem ran_run (g : Grouping α) (xs : List α) (p : Progress α) : Ran g (g.clusters xs) p (g.run xs p) := by
  fun_induction g.run xs p
  case case1 p => exact .through rfl (by simp [clusters])
  case case2 root rest p s found hs =>
    rw [clusters]
    cases swept_sweep g root rest { counters := p.counters }
    case through h _        => simp_all [s]
    case refused ys _ hx hc => exact .refused _ rfl (hc.found p.found) (.cluster? root (gathered_mono hx) _)
  case case3 root rest p s found hs hi =>
    have hc := (swept_sweep g root rest { counters := p.counters }).comes (by simpa [s] using hs)
    have hl : s.left.reverse = g.passed root [] rest := by simp [s, hc.left]
    rw [clusters, ← hl]
    refine Ran.trans ?_ (hc.found p.found) hi
    rfl

theorem ran_runAll (g : Grouping α) (xss : List (List α)) (p : Progress α) (hp : p.stopped = false) :
    Ran g (xss.flatMap g.clusters) p (g.runAll xss p) := by
  induction xss generalizing p <;> simp only [runAll, List.flatMap_nil, List.flatMap_cons]
  case nil => exact .through rfl rfl
  case cons xs xss hi =>
    cases ran_run g xs p
    case through hs hf =>
      rw [hs, hp]
      exact (hi _ (hs.trans hp)).trans hs hf
    case refused cs hs hf hc =>
      rw [hs]
      exact .refused cs hs hf hc.append_right

theorem stopped_sweep {s : Sweep α} (hs : s.stopped = s.counters.comparisonsTruncated) :
    (g.sweep root xs s).stopped = (g.sweep root xs s).counters.comparisonsTruncated := by
  induction xs generalizing s
  case nil => exact hs
  case cons x xs hi =>
    rw [sweep_cons]
    split
    case isTrue  => rfl
    case isFalse => exact hi (by rw [next_stopped, next_truncated, hs])

theorem stopped_run {p : Progress α} (hp : p.stopped = false) (hc : p.counters.comparisonsTruncated = false) :
    (g.run xs p).stopped = (g.run xs p).counters.comparisonsTruncated := by
  fun_induction g.run xs p
  case case1 p => rw [hp, hc]
  case case2 root rest p s found hs => exact hs ▸ stopped_sweep hc.symm
  case case3 root rest p s found hs hi =>
    have h : s.stopped = s.counters.comparisonsTruncated := stopped_sweep hc.symm
    exact hi hp (h ▸ eq_false_of_ne_true hs)

theorem stopped_runAll {xss : List (List α)} {p : Progress α} (hp : p.stopped = false)
    (hc : p.counters.comparisonsTruncated = false) :
    (g.runAll xss p).stopped = (g.runAll xss p).counters.comparisonsTruncated := by
  induction xss generalizing p
  case nil => exact hp.trans hc.symm
  case cons xs xss hi =>
    have h : (g.run xs p).stopped = (g.run xs p).counters.comparisonsTruncated := stopped_run hp hc
    rw [runAll]
    split
    case isTrue     => exact h
    case isFalse hs => exact hi (eq_false_of_ne_true hs) (h ▸ eq_false_of_ne_true hs)

theorem truncated_sweep {s : Sweep α} (hs : s.counters.comparisonsTruncated = true) :
    (g.sweep root xs s).counters.comparisonsTruncated = true := by
  induction xs generalizing s
  case nil => exact hs
  case cons x xs hi =>
    rw [sweep_cons]
    split
    case isTrue  => rfl
    case isFalse => exact hi (by rw [next_truncated, hs])

theorem truncated_run {p : Progress α} (hp : p.counters.comparisonsTruncated = true) :
    (g.run xs p).counters.comparisonsTruncated = true := by
  fun_induction g.run xs p
  case case1 p => exact hp
  case case2 root rest p s found hs    => exact truncated_sweep hp
  case case3 root rest p s found hs hi => exact hi (truncated_sweep hp)

theorem truncated_runAll {xss : List (List α)} {p : Progress α} (hp : p.counters.comparisonsTruncated = true) :
    (g.runAll xss p).counters.comparisonsTruncated = true := by
  induction xss generalizing p
  case nil => exact hp
  case cons xs xss hi =>
    rw [runAll]
    split
    case isTrue  => exact truncated_run hp
    case isFalse => exact hi (truncated_run hp)

def ungrouped (c : Counters) : Counters :=
  { c with comparisons := 0, comparisonsTruncated := false, overlappingPairs := 0 }

theorem ungrouped_sweep (g : Grouping α) (root : α) (xs : List α) (s : Sweep α) :
    ungrouped (g.sweep root xs s).counters = ungrouped s.counters := by
  induction xs generalizing s
  case nil => rfl
  case cons x xs hi =>
    have hn : ungrouped (g.next root x s).counters = ungrouped s.counters := by
      unfold next
      split <;> try split
      all_goals rfl
    rw [sweep_cons]
    split
    case isTrue  => rfl
    case isFalse => rw [hi, hn]

theorem ungrouped_run (g : Grouping α) (xs : List α) (p : Progress α) :
    ungrouped (g.run xs p).counters = ungrouped p.counters := by
  fun_induction g.run xs p
  case case1 p => rfl
  case case2 root rest p s found hs    => exact ungrouped_sweep g root rest _
  case case3 root rest p s found hs hi => exact hi.trans (ungrouped_sweep g root rest _)

theorem ungrouped_runAll (g : Grouping α) (xss : List (List α)) (p : Progress α) :
    ungrouped (g.runAll xss p).counters = ungrouped p.counters := by
  induction xss generalizing p
  case nil => rfl
  case cons xs xss hi =>
    rw [runAll]
    split
    case isTrue  => exact ungrouped_run g xs p
    case isFalse => exact (hi _).trans (ungrouped_run g xs p)

def Cluster.group (k : Cluster Block) : Group where
  root   := k.root
  others := k.others
  lowest := k.lowest

end Grouping

namespace Bucket

open Grouping

variable {g : Grouping Block} {bs : List Bucket} {c : Counters}

theorem exists_cutShort_groups (g : Grouping Block) (bs : List Bucket) (c : Counters) :
    ∃ ks, (groups g bs c).1 = ks.map Cluster.group ∧ CutShort g ks ((bs.map blocks).flatMap g.clusters) := by
  have ⟨ks, hf, hk⟩ := ran_runAll g (bs.map blocks) { counters := c } rfl |>.exists_cutShort
  exact ⟨ks, by simp [groups, hf, Cluster.group], hk⟩

theorem groups_of_not_truncated (hc : c.comparisonsTruncated = false)
    (h : (groups g bs c).2.comparisonsTruncated = false) :
    (groups g bs c).1 = ((bs.map blocks).flatMap g.clusters).map Cluster.group := by
  have hs : (g.runAll (bs.map blocks) { counters := c }).stopped = false :=
    (stopped_runAll rfl hc).trans h
  have hf := ran_runAll g (bs.map blocks) { counters := c } rfl |>.found_of_not_stopped hs
  simp [groups, hf, Cluster.group]

end Bucket
end DuplicateBlocks
