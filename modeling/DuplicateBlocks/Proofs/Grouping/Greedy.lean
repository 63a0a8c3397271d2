import DuplicateBlocks.Proofs.Grouping.Restriction
import DuplicateBlocks.Proofs.Scan.Detection

open scoped List

namespace DuplicateBlocks.Grouping

variable {α : Type} {g : Grouping α} {root x : α} {taken xs : List α} {k : Cluster α} {cs ks : List (Cluster α)}

theorem joins_iff :
    g.joins root taken x = true ↔
      (g.clash root x = false ∧ ∀ y ∈ taken, g.clash y x = false) ∧ g.isSimilar root x = true := by
  simp [joins, isApart]

-- What was taken joined the root, and it is apart from what was taken before.
theorem gathered_spec (g : Grouping α) (root : α) (taken xs : List α) :
    (∀ x ∈ g.gathered root taken xs, g.joins root taken x = true) ∧
      (g.gathered root taken xs).Pairwise fun a b => g.clash a b = false := by
  induction xs generalizing taken
  case nil => simp [gathered]
  case cons x xs hi =>
    rw [gathered]
    split
    case isFalse => exact hi taken
    case isTrue hj =>
      obtain ⟨ha, hp⟩ := hi (x :: taken)
      simp only [joins_iff, List.forall_mem_cons] at ha
      constructor
      case left =>
        refine List.forall_mem_cons.mpr ⟨hj, fun y hy => ?_⟩
        obtain ⟨⟨hr, _, ht⟩, hs⟩ := ha y hy
        exact joins_iff.mpr ⟨⟨hr, ht⟩, hs⟩
      case right =>
        exact List.pairwise_cons.mpr ⟨fun y hy => (ha y hy).left.right.left, hp⟩

namespace Cluster

-- A root with items that are similar to it and do not overlap it or one another.
structure Sound (g : Grouping α) (k : Cluster α) : Prop where
  others  : k.others ≠ []
  similar : ∀ x ∈ k.others, g.isSimilar k.root x = true
  apart   : k.members.Pairwise fun a b => g.clash a b = false
  lowest  : k.lowest = g.lowest k.root .hundred k.others

end Cluster

theorem sound_of_cluster? {others : List α} (h : g.cluster? root others = some k)
    (hj : ∀ x ∈ others, g.joins root [] x = true) (hp : others.Pairwise fun a b => g.clash a b = false) :
    k.Sound g := by
  cases others <;> simp only [cluster?, List.isEmpty_nil, List.isEmpty_cons, if_true] at h <;> cases h
  case cons x xs =>
    simp only [joins_iff] at hj
    exact {
      others  := List.cons_ne_nil x xs
      similar := fun y hy => (hj y hy).right
      apart   := List.pairwise_cons.mpr ⟨fun y hy => (hj y hy).left.left, hp⟩
      lowest  := rfl
    }

theorem sound_of_mem_clusters (h : k ∈ g.clusters xs) : k.Sound g := by
  fun_induction g.clusters xs
  case case1 => simp at h
  case case2 root rest hi =>
    cases List.mem_append.mp h
    case inr h => exact hi h
    case inl h =>
      obtain ⟨hj, hp⟩ := g.gathered_spec root [] rest
      exact sound_of_cluster? (by simpa using h) hj hp

namespace CutShort

theorem sound (h : CutShort g cs ks) (hk : ∀ k ∈ ks, k.Sound g) : ∀ k ∈ cs, k.Sound g := by
  induction h
  case nil => simp
  case cons k _ hi =>
    have ⟨hk, hks⟩ := List.forall_mem_cons.mp hk
    exact List.forall_mem_cons.mpr ⟨hk, hi hks⟩
  case part k others ks h hn =>
    have hs := hk k List.mem_cons_self
    simp only [List.forall_mem_singleton]
    exact {
      others  := hn
      similar := fun x hx => hs.similar x (h.subset hx)
      apart   := hs.apart.sublist (h.sublist.cons_cons k.root)
      lowest  := rfl
    }

theorem members_sublist (h : CutShort g cs ks) : cs.flatMap Cluster.members <+ ks.flatMap Cluster.members := by
  induction h
  case nil => exact List.nil_sublist _
  case cons k _ hi => exact hi.append_left k.members
  case part k others ks h hn =>
    have hs : k.root :: others <+ k.members := h.sublist.cons_cons k.root
    simpa [Cluster.members] using hs.trans (List.sublist_append_left ..)

theorem exists_longer (h : CutShort g cs ks) (hk : k ∈ cs) : ∃ l ∈ ks, k.members <+: l.members := by
  induction h
  case nil => cases hk
  case part l others ks hp _ =>
    cases List.mem_singleton.mp hk
    exact ⟨l, List.mem_cons_self, List.cons_prefix_cons.mpr ⟨rfl, hp⟩⟩
  case cons l _ hi =>
    cases hk
    case head    => exact ⟨k, List.mem_cons_self, List.prefix_rfl⟩
    case tail hk =>
      have ⟨l', hl, hp⟩ := hi hk
      exact ⟨l', List.mem_cons_of_mem l hl, hp⟩

end CutShort

theorem mem_gathered_or_mem_passed (g : Grouping α) (root : α) (taken : List α) (h : x ∈ xs) :
    x ∈ g.gathered root taken xs ∨ x ∈ g.passed root taken xs := by
  rw [← List.mem_append]
  exact (g.gathered_append_passed root taken xs).mem_iff.mpr h

variable {pos : α → Nat}

-- An item is left to later roots only if it overlaps the root or something taken before, or is not similar to the root.
theorem clash_or_not_isSimilar (hx : xs.Pairwise (pos · < pos ·)) (h : x ∈ xs) (hn : x ∉ g.gathered root [] xs) :
    g.clash root x = true ∨ (∃ y ∈ g.gathered root [] xs, pos y < pos x ∧ g.clash y x = true) ∨
      g.isSimilar root x = false := by
  obtain ⟨ys, zs, he⟩ := List.append_of_mem h
  subst he
  have hj : g.joins root (g.gathered root [] ys).reverse x = false := by
    rw [← Bool.not_eq_true]
    intro hj
    rw [gathered_append, gathered, List.append_nil, if_pos hj] at hn
    simp at hn
  by_cases hr : g.clash root x = true
  case pos => exact .inl hr
  case neg =>
    by_cases hs : g.isSimilar root x = true
    case neg => exact .inr (.inr (Bool.not_eq_true _ ▸ hs))
    case pos =>
      obtain ⟨y, hy, hc⟩ : ∃ y ∈ g.gathered root [] ys, g.clash y x = true := by
        simpa [joins, isApart, hr, hs] using hj
      have hp := (List.pairwise_append.mp hx).right.right y ((g.gathered_sublist root [] ys).subset hy) x (by simp)
      exact .inr (.inl ⟨y, gathered_append .. ▸ List.mem_append_left _ hy, hp, hc⟩)

-- The clusters `ks` leave nothing behind of the items `xs`: an item that is in no earlier cluster, and not in this one,
-- could not have joined it, and two items that are in none could not have made one.
structure Exhausts (g : Grouping α) (pos : α → Nat) (xs : List α) (ks : List (Cluster α)) : Prop where
  beside : ∀ k ∈ ks, ∀ x ∈ xs, pos k.root < pos x → x ∉ k.members →
            (∀ l ∈ ks, pos l.root < pos k.root → x ∉ l.members) →
            (∃ y ∈ k.members, pos y < pos x ∧ g.clash y x = true) ∨ g.isSimilar k.root x = false
  alone  : ∀ x ∈ xs, ∀ y ∈ xs, pos x < pos y → (∀ k ∈ ks, x ∉ k.members ∧ y ∉ k.members) →
            g.clash x y = true ∨ g.isSimilar x y = false

theorem mem_cluster?_iff {others : List α} :
    k ∈ (g.cluster? root others).toList ↔ others ≠ [] ∧ k = ⟨root, others, g.lowest root .hundred others⟩ := by
  cases others <;> simp [cluster?]

theorem exhausts_clusters (hx : xs.Pairwise (pos · < pos ·)) : Exhausts g pos xs (g.clusters xs) := by
  fun_induction g.clusters xs
  case case1 => exact ⟨by simp, by simp⟩
  case case2 root rest hi =>
    obtain ⟨hr, hp⟩ := List.pairwise_cons.mp hx
    have hi := hi (hp.sublist (g.passed_sublist root [] rest))
    have hrest {x : α} (hx : x ∈ root :: rest) (hl : pos root < pos x) : x ∈ rest :=
      List.mem_of_ne_of_mem (fun he => Nat.ne_of_gt hl (congrArg pos he)) hx
    -- What the root did not gather is left to the roots after it, for which the claim holds already.
    have hpassed {x : α} (hx : x ∈ rest) (hn : g.gathered root [] rest ≠ [] → x ∉ root :: g.gathered root [] rest) :
        x ∈ g.passed root [] rest := by
      refine (g.mem_gathered_or_mem_passed root [] hx).resolve_left fun hg => ?_
      exact hn (List.ne_nil_of_mem hg) (List.mem_cons_of_mem root hg)
    have hfirst (hne : g.gathered root [] rest ≠ []) :
        ⟨root, g.gathered root [] rest, g.lowest root .hundred (g.gathered root [] rest)⟩ ∈
          (g.cluster? root (g.gathered root [] rest)).toList ++ g.clusters (g.passed root [] rest) :=
      List.mem_append_left _ (mem_cluster?_iff.mpr ⟨hne, rfl⟩)
    constructor
    case beside =>
      intro k hk x hx hl hn hearlier
      cases List.mem_append.mp hk
      case inl hk =>
        obtain ⟨_, rfl⟩ := mem_cluster?_iff.mp hk
        have hg : x ∉ g.gathered root [] rest := fun hg => hn (List.mem_cons_of_mem root hg)
        obtain hc | ⟨y, hy, hlt, hc⟩ | hs := clash_or_not_isSimilar hp (hrest hx hl) hg
        · exact .inl ⟨root, List.mem_cons_self, hl, hc⟩
        · exact .inl ⟨y, List.mem_cons_of_mem root hy, hlt, hc⟩
        · exact .inr hs
      case inr hk =>
        have hm : k.root ∈ g.passed root [] rest := (from_of_mem_clusters hk).sublist.subset List.mem_cons_self
        have hkr : pos root < pos k.root := hr _ ((g.passed_sublist root [] rest).subset hm)
        have hx := hpassed (hrest hx (hkr.trans hl)) fun hne => hearlier _ (hfirst hne) hkr
        exact hi.beside k hk x hx hl hn fun l hl => hearlier l (List.mem_append_right _ hl)
    case alone =>
      intro x hx y hy hl hnone
      cases hx
      case head =>
        have hg : g.gathered root [] rest = [] := by
          by_contra hne
          exact (hnone _ (hfirst hne)).left List.mem_cons_self
        have ha := gathered_eq_nil_iff.mp hg y (hrest hy hl)
        rw [Alike, not_and_or, Bool.not_eq_false, Bool.not_eq_true] at ha
        exact ha
      case tail hx =>
        have hy := hpassed (hrest hy ((hr x hx).trans hl)) fun hne => (hnone _ (hfirst hne)).right
        have hx := hpassed hx fun hne => (hnone _ (hfirst hne)).left
        exact hi.alone x hx y hy hl fun k hk => hnone k (List.mem_append_right _ hk)

end DuplicateBlocks.Grouping
