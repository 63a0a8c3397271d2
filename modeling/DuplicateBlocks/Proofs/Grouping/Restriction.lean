import DuplicateBlocks.Proofs.Grouping.Map
import Mathlib.Data.List.Perm.Subperm

open scoped List

namespace DuplicateBlocks.Grouping

variable {α : Type} {g : Grouping α} {root : α} {taken xs ys : List α}

namespace Cluster

def members (k : Cluster α) : List α :=
  k.root :: k.others

-- What is left of a cluster if only the items with `keep` count.
def restrict (g : Grouping α) (keep : α → Bool) (k : Cluster α) : Option (Cluster α) :=
  if keep k.root then g.cluster? k.root (k.others.filter keep) else none

end Cluster

theorem gathered_sublist (g : Grouping α) (root : α) (taken xs : List α) :
    g.gathered root taken xs <+ xs := by
  induction xs generalizing taken
  case nil => exact List.Sublist.refl _
  case cons x xs hi =>
    rw [gathered]
    split
    case isTrue  => exact (hi _).cons_cons x
    case isFalse => exact (hi _).cons x

theorem passed_sublist (g : Grouping α) (root : α) (taken xs : List α) : g.passed root taken xs <+ xs := by
  induction xs generalizing taken
  case nil => exact List.Sublist.refl _
  case cons x xs hi =>
    rw [passed]
    split
    case isTrue  => exact (hi _).cons x
    case isFalse => exact (hi _).cons_cons x

theorem gathered_append_passed (g : Grouping α) (root : α) (taken xs : List α) :
    g.gathered root taken xs ++ g.passed root taken xs ~ xs := by
  induction xs generalizing taken
  case nil => exact List.Perm.refl _
  case cons x xs hi =>
    rw [gathered, passed]
    split
    case isTrue  => exact (hi _).cons x
    case isFalse => exact List.perm_middle.trans ((hi _).cons x)

theorem gathered_append (g : Grouping α) (root : α) (taken xs ys : List α) :
    g.gathered root taken (xs ++ ys) =
      g.gathered root taken xs ++ g.gathered root ((g.gathered root taken xs).reverse ++ taken) ys := by
  induction xs generalizing taken
  case nil => rfl
  case cons x xs hi =>
    simp only [List.cons_append, gathered]
    split <;> simp [hi]

theorem passed_append (g : Grouping α) (root : α) (taken xs ys : List α) :
    g.passed root taken (xs ++ ys) =
      g.passed root taken xs ++ g.passed root ((g.gathered root taken xs).reverse ++ taken) ys := by
  induction xs generalizing taken
  case nil => rfl
  case cons x xs hi =>
    simp only [List.cons_append, passed, gathered]
    split <;> simp [hi]

namespace Cluster

-- What every cluster is that is found in a list.
structure From (g : Grouping α) (xs : List α) (k : Cluster α) : Prop where
  sublist : k.members <+ xs
  lowest  : k.lowest = g.lowest k.root .hundred k.others

theorem From.of_cluster? {others : List α} {k : Cluster α} (h : g.cluster? root others = some k)
    (hs : root :: others <+ xs) : k.From g xs := by
  cases others <;> simp only [cluster?, List.isEmpty_nil, List.isEmpty_cons, if_true] at h
  case nil => cases h
  case cons =>
    cases h
    exact ⟨hs, rfl⟩

end Cluster

theorem from_of_mem_clusters {k : Cluster α} (h : k ∈ g.clusters xs) : k.From g xs := by
  fun_induction g.clusters xs
  case case1 => simp at h
  case case2 root rest hi =>
    cases List.mem_append.mp h
    case inl h =>
      exact .of_cluster? (by simpa using h) ((g.gathered_sublist root [] rest).cons_cons root)
    case inr h =>
      have hk := hi h
      exact ⟨hk.sublist.trans ((g.passed_sublist root [] rest).cons root), hk.lowest⟩

theorem flatMap_members_subperm (g : Grouping α) (xs : List α) :
    (g.clusters xs).flatMap Cluster.members <+~ xs := by
  fun_induction g.clusters xs
  case case1 => exact List.Subperm.refl _
  case case2 root rest hi =>
    have hc : (g.cluster? root (g.gathered root [] rest)).toList.flatMap Cluster.members <+~
        root :: g.gathered root [] rest := by
      cases g.gathered root [] rest
      case nil  => exact List.nil_subperm
      case cons => simp [cluster?, Cluster.members, List.Subperm.refl]
    rw [List.flatMap_append]
    exact (hc.append hi).trans ((g.gathered_append_passed root [] rest).cons root).subperm

theorem filterMap_restrict_cluster? {keep : α → Bool} (hr : keep root = true) (hx : ∀ x ∈ xs, keep x = true)
    (hy : ∀ y ∈ ys, keep y = false) :
    (g.cluster? root (xs ++ ys)).toList.filterMap (Cluster.restrict g keep) = (g.cluster? root xs).toList := by
  have hf : (xs ++ ys).filter keep = xs := by
    rw [List.filter_append, List.filter_eq_self.mpr hx, List.filter_eq_nil_iff.mpr (by simpa using hy),
      List.append_nil]
  cases he : xs ++ ys
  case nil =>
    have hn : xs = [] := (List.append_eq_nil_iff.mp he).left
    simp [cluster?, hn]
  case cons z zs =>
    have hk : Cluster.restrict g keep ⟨root, z :: zs, g.lowest root .hundred (z :: zs)⟩ = g.cluster? root xs := by
      rw [Cluster.restrict, if_pos hr, ← he, hf]
    cases hc : g.cluster? root xs <;> rw [hc] at hk <;> simp [cluster?, hk]

theorem clusters_restrict {keep : α → Bool} (hx : ∀ x ∈ xs, keep x = true) (hy : ∀ y ∈ ys, keep y = false) :
    (g.clusters (xs ++ ys)).filterMap (Cluster.restrict g keep) = g.clusters xs := by
  fun_induction g.clusters xs generalizing ys
  case case1 =>
    have hn : ∀ k ∈ g.clusters ys, k.restrict g keep = none := by
      intro k hk
      have hr : keep k.root = false := hy _ ((from_of_mem_clusters hk).sublist.subset List.mem_cons_self)
      simp [Cluster.restrict, hr]
    simpa using hn
  case case2 root rest hi =>
    obtain ⟨hr, hx⟩ := List.forall_mem_cons.mp hx
    have hg := g.gathered_sublist root [] rest
    have hp := g.passed_sublist root [] rest
    rw [List.cons_append, clusters, gathered_append, passed_append, List.filterMap_append]
    have hm := g.gathered_sublist root ((g.gathered root [] rest).reverse ++ []) ys
    rw [filterMap_restrict_cluster? hr (fun x h => hx x (hg.subset h)) (fun y h => hy y (hm.subset h)),
      hi (fun x h => hx x (hp.subset h)) (fun y h => hy y ((g.passed_sublist ..).subset h))]

end DuplicateBlocks.Grouping
