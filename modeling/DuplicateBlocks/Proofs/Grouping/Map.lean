import DuplicateBlocks.Proofs.Grouping.Clusters
import Mathlib.Data.Set.List
import Mathlib.Tactic.Lift

namespace DuplicateBlocks.Grouping

variable {α β : Type}

def Cluster.map (f : α → β) (k : Cluster α) : Cluster β where
  root   := f k.root
  others := k.others.map f
  lowest := k.lowest

def Sweep.map (f : α → β) (s : Sweep α) : Sweep β where
  counters := s.counters
  taken    := s.taken.map f
  left     := s.left.map f
  lowest   := s.lowest
  stopped  := s.stopped

theorem Sweep.found_map (f : α → β) (root : α) (s : Sweep α) (found : List (Cluster α)) :
    (if s.taken.isEmpty then found else ⟨root, s.taken.reverse, s.lowest⟩ :: found).map (Cluster.map f) =
      if (s.map f).taken.isEmpty then found.map (Cluster.map f)
      else ⟨f root, (s.map f).taken.reverse, (s.map f).lowest⟩ :: found.map (Cluster.map f) := by
  cases h : s.taken <;> simp [Sweep.map, Cluster.map, h]

def Progress.map (f : α → β) (p : Progress α) : Progress β where
  counters := p.counters
  found    := p.found.map (Cluster.map f)
  stopped  := p.stopped

-- The grouping `h` decides about items as `g` does about their images.
structure Along (f : α → β) (h : Grouping α) (g : Grouping β) : Prop where
  clash     : ∀ a b, h.clash a b = g.clash (f a) (f b)
  score     : ∀ a b, h.score a b = g.score (f a) (f b)
  threshold : h.threshold = g.threshold

namespace Along

variable {f : α → β} {h : Grouping α} {g : Grouping β}

theorem isApart (e : Along f h g) (root : α) (taken : List α) (x : α) :
    h.isApart root taken x = g.isApart (f root) (taken.map f) (f x) := by
  simp [Grouping.isApart, e.clash, List.any_map, Function.comp_def]

theorem isSimilar (e : Along f h g) (root x : α) : h.isSimilar root x = g.isSimilar (f root) (f x) := by
  simp [Grouping.isSimilar, e.score, e.threshold]

theorem joins (e : Along f h g) (root : α) (taken : List α) (x : α) :
    h.joins root taken x = g.joins (f root) (taken.map f) (f x) := by
  simp [Grouping.joins, e.isApart, e.isSimilar]

theorem gathered (e : Along f h g) (root : α) (taken xs : List α) :
    (h.gathered root taken xs).map f = g.gathered (f root) (taken.map f) (xs.map f) := by
  induction xs generalizing taken
  case nil => rfl
  case cons x xs hi =>
    simp only [Grouping.gathered, List.map_cons, e.joins]
    split <;> simp [hi]

theorem passed (e : Along f h g) (root : α) (taken xs : List α) :
    (h.passed root taken xs).map f = g.passed (f root) (taken.map f) (xs.map f) := by
  induction xs generalizing taken
  case nil => rfl
  case cons x xs hi =>
    simp only [Grouping.passed, List.map_cons, e.joins]
    split <;> simp [hi]

theorem compared (e : Along f h g) (root : α) (taken xs : List α) :
    h.compared root taken xs = g.compared (f root) (taken.map f) (xs.map f) := by
  induction xs generalizing taken
  case nil => rfl
  case cons x xs hi =>
    simp only [Grouping.compared, List.map_cons, e.joins, e.isApart, hi]
    split <;> simp

theorem lowest (e : Along f h g) (root : α) (m : Binary64) (others : List α) :
    h.lowest root m others = g.lowest (f root) m (others.map f) := by
  simp [Grouping.lowest, List.foldl_map, e.score]

theorem cluster? (e : Along f h g) (root : α) (others : List α) :
    (h.cluster? root others).map (Cluster.map f) = g.cluster? (f root) (others.map f) := by
  cases others <;> simp [Grouping.cluster?, Cluster.map, e.lowest]

theorem clusters (e : Along f h g) (xs : List α) :
    (h.clusters xs).map (Cluster.map f) = g.clusters (xs.map f) := by
  fun_induction h.clusters xs
  case case1 => simp [Grouping.clusters]
  case case2 root rest hi =>
    rw [List.map_cons, Grouping.clusters, List.map_append, hi, e.passed, ← Option.toList_map, e.cluster?,
      e.gathered]
    rfl

theorem cost (e : Along f h g) (xs : List α) : h.cost xs = g.cost (xs.map f) := by
  fun_induction h.cost xs
  case case1 => simp [Grouping.cost]
  case case2 root rest hi =>
    rw [List.map_cons, Grouping.cost, hi, e.passed, e.compared]
    rfl

theorem next (e : Along f h g) (root x : α) (s : Sweep α) :
    (h.next root x s).map f = g.next (f root) (f x) (s.map f) := by
  simp only [Grouping.next, e.isApart, e.isSimilar, e.score]
  change _ = if g.isApart (f root) (s.taken.map f) (f x) then _ else _
  split <;> try split
  all_goals rfl

variable (e : Along f h g) (hm : h.maxComparisons = g.maxComparisons)
include e hm

theorem sweep (root : α) (xs : List α) (s : Sweep α) :
    (h.sweep root xs s).map f = g.sweep (f root) (xs.map f) (s.map f) := by
  induction xs generalizing s
  case nil => rfl
  case cons x xs hi =>
    rw [List.map_cons, sweep_cons, sweep_cons, ← e.next, ← hi, e.isApart, hm]
    split
    case isTrue hl  => rw [if_pos]; rfl; exact hl
    case isFalse hl => rw [if_neg]; exact hl

theorem run (xs : List α) (p : Progress α) : (h.run xs p).map f = g.run (xs.map f) (p.map f) := by
  fun_induction h.run xs p
  case case1 p => simp [Grouping.run]
  case case2 root rest p s found hs =>
    have hw : s.map f = g.sweep (f root) (rest.map f) { counters := (p.map f).counters } :=
      e.sweep hm root rest _
    rw [List.map_cons, Grouping.run, ← hw]
    simp only [Progress.map, found, dite_eq_ite, Sweep.found_map]
    exact (if_pos hs).symm
  case case3 root rest p s found hs hi =>
    have hw : s.map f = g.sweep (f root) (rest.map f) { counters := (p.map f).counters } :=
      e.sweep hm root rest _
    rw [List.map_cons, Grouping.run, ← hw, hi, List.map_reverse]
    simp only [Progress.map, found, dite_eq_ite, Sweep.found_map]
    exact (if_neg hs).symm

theorem runAll (xss : List (List α)) (p : Progress α) :
    (h.runAll xss p).map f = g.runAll (xss.map (List.map f)) (p.map f) := by
  induction xss generalizing p
  case nil => rfl
  case cons xs xss hi =>
    simp only [Grouping.runAll, List.map_cons, ← e.run hm, ← hi]
    exact apply_ite (Progress.map f) ..

end Along

def restrict (g : Grouping α) (P : α → Prop) : Grouping { x // P x } where
  clash a b := g.clash a b
  score a b := g.score a b
  threshold := g.threshold
  maxComparisons := g.maxComparisons

theorem along_restrict (g : Grouping α) (P : α → Prop) : Along Subtype.val (g.restrict P) g :=
  ⟨fun _ _ => rfl, fun _ _ => rfl, rfl⟩

-- Scores that no two of the items have make no difference.
theorem runAll_congr_score {P : α → Prop} {g : Grouping α} {score : α → α → Binary64}
    (hs : ∀ a b, P a → P b → g.score a b = score a b) {xss : List (List α)} (hx : ∀ xs ∈ xss, ∀ x ∈ xs, P x)
    (c : Counters) :
    { g with score := score }.runAll xss { counters := c } = g.runAll xss { counters := c } := by
  lift xss to List (List { x // P x }) using hx
  have e : Along Subtype.val (g.restrict P) { g with score := score } :=
    ⟨fun _ _ => rfl, fun a b => hs a b a.property b.property, rfl⟩
  have hr := e.runAll rfl xss { counters := c }
  have hg := (g.along_restrict P).runAll rfl xss { counters := c }
  exact hr.symm.trans hg

theorem Cluster.map_id : Cluster.map (id : α → α) = id := by
  funext k
  simp [Cluster.map]

theorem along_ceiling (g : Grouping α) (m : Nat) : Along id { g with maxComparisons := m } g :=
  ⟨fun _ _ => rfl, fun _ _ => rfl, rfl⟩

theorem clusters_ceiling (g : Grouping α) (m : Nat) :
    { g with maxComparisons := m }.clusters = g.clusters := by
  funext xs
  simpa [Cluster.map_id] using (along_ceiling g m).clusters xs

theorem cost_ceiling (g : Grouping α) (m : Nat) : { g with maxComparisons := m }.cost = g.cost := by
  funext xs
  simpa using (along_ceiling g m).cost xs

end DuplicateBlocks.Grouping
