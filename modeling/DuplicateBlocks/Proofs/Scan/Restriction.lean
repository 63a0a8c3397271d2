import DuplicateBlocks.Proofs.Grouping.Restriction
import DuplicateBlocks.Proofs.Scan.Detection
import Mathlib.Data.List.Forall2
import Mathlib.Data.List.Nodup

open scoped List

namespace DuplicateBlocks

section Sorting

variable {α κ : Type} [BEq κ] {key : α → κ} {g : Grouping α} {xs ys : List α}

theorem flatMap_clusters_restrict [LawfulBEq κ] {keep : α → Bool} (key : α → κ) (hx : ∀ x ∈ xs, keep x = true)
    (hy : ∀ y ∈ ys, keep y = false) :
    ((sortedBy key (xs ++ ys)).flatMap g.clusters).filterMap (Grouping.Cluster.restrict g keep) =
      (sortedBy key xs).flatMap g.clusters := by
  have hk (k : κ) : (g.clusters ((xs ++ ys).filter (key · == k))).filterMap (Grouping.Cluster.restrict g keep) =
      g.clusters (xs.filter (key · == k)) := by
    rw [List.filter_append]
    exact Grouping.clusters_restrict (fun x h => hx x (List.mem_filter.mp h).left)
      (fun y h => hy y (List.mem_filter.mp h).left)
  -- A key that only later items have belongs to clusters of which nothing is left.
  have hn : ∀ k ∈ ((ys.map key).removeAll (xs.map key)).eraseDups, g.clusters (xs.filter (key · == k)) = [] := by
    intro k h
    have hm : k ∉ xs.map key := by simp_all [List.removeAll]
    have hf : xs.filter (key · == k) = [] := by simpa using hm
    rw [hf, Grouping.clusters]
  simp only [sortedBy, List.flatMap_map, List.filterMap_flatMap, hk, List.map_append, List.eraseDups_append,
    List.flatMap_append, List.filterMap_append]
  rw [List.flatMap_eq_nil_iff.mpr hn, List.append_nil]

theorem from_of_mem_flatMap {k : Grouping.Cluster α} (h : k ∈ (sortedBy key xs).flatMap g.clusters) :
    k.From g xs := by
  have ⟨zs, hz, hk⟩ := List.mem_flatMap.mp h
  have ⟨_, _, he⟩ := List.mem_map.mp hz
  subst he
  have hf := Grouping.from_of_mem_clusters hk
  exact ⟨hf.sublist.trans List.filter_sublist, hf.lowest⟩

theorem nodup_flatMap_members [LawfulBEq κ] (g : Grouping α) (key : α → κ) (hx : xs.Nodup) :
    (((sortedBy key xs).flatMap g.clusters).flatMap Grouping.Cluster.members).Nodup := by
  have hs (k : κ) : (g.clusters (xs.filter (key · == k))).flatMap Grouping.Cluster.members <+~
      xs.filter (key · == k) := g.flatMap_members_subperm _
  rw [List.flatMap_assoc, sortedBy, List.flatMap_map, List.nodup_flatMap]
  constructor
  case left  =>
    intro k _
    obtain ⟨_, hp, hf⟩ := hs k
    exact hp.nodup_iff.mp (hf.nodup (hx.filter _))
  case right =>
    refine (FirstSeen.nodup_eraseDups (xs.map key)).imp fun {k l} hkl => ?_
    intro x hk hl
    have hk : key x = k := by simpa using (List.mem_filter.mp ((hs k).subset hk)).right
    have hl : key x = l := by simpa using (List.mem_filter.mp ((hs l).subset hl)).right
    exact hkl (hk.symm.trans hl)

end Sorting

namespace Grouping

variable {α β : Type}

def comap (f : α → β) (g : Grouping β) : Grouping α where
  clash a b      := g.clash (f a) (f b)
  score a b      := g.score (f a) (f b)
  threshold      := g.threshold
  maxComparisons := g.maxComparisons

theorem along_comap (f : α → β) (g : Grouping β) : Along f (g.comap f) g :=
  ⟨fun _ _ => rfl, fun _ _ => rfl, rfl⟩

-- If nothing is left of a cluster without its root, what is left of it are the members with `keep`, unless
-- they are fewer than two.
theorem Cluster.restrict_members {g : Grouping α} {keep : α → Bool} {k : Cluster α}
    (h : keep k.root = false → ∀ x ∈ k.others, keep x = false) :
    (k.restrict g keep).map members =
      if 2 ≤ (k.members.filter keep).length then some (k.members.filter keep) else none := by
  cases hr : keep k.root
  case false =>
    have hf : k.members.filter keep = [] := by simpa [members, hr] using h hr
    simp [restrict, hr, hf]
  case true =>
    cases ho : k.others.filter keep <;> simp [restrict, cluster?, members, hr, ho]

end Grouping

-- A group that consists of the blocks at the places `is`.
structure Group.At (s : Settings) (bs : List Block) (is : List Nat) (g : Group) : Prop where
  increasing : is.Pairwise (· < ·)
  members    : is.map (bs[·]?) = g.members.map some
  lowest     : g.lowest = (Scan.grouping s).lowest g.root .hundred g.others

def Group.Begins (g g' : Group) : Prop :=
  g.root = g'.root ∧ g.others <+: g'.others

theorem filter_lt_begins {is : List Nat} (n : Nat) (h : is.Pairwise (· < ·)) : is.filter (· < n) <+: is := by
  induction is
  case nil => exact List.prefix_rfl
  case cons i is hi =>
    have ⟨hl, hp⟩ := List.pairwise_cons.mp h
    by_cases hn : i < n
    case pos => simpa [hn] using hi hp
    case neg =>
      have hf : is.filter (· < n) = [] := by
        rw [List.filter_eq_nil_iff]
        intro j hj
        have := hl j hj
        simp only [decide_eq_true_eq]
        omega
      simp [hn, hf]

theorem Group.At.begins {s : Settings} {bs : List Block} {is : List Nat} {n : Nat} {g g' : Group}
    (h : g.At s bs (is.filter (· < n))) (h' : g'.At s bs is) : g.Begins g' := by
  have hp : g.members.map some <+: g'.members.map some := by
    rw [← h.members, ← h'.members]
    exact (filter_lt_begins n h'.increasing).map _
  have hm : g.members <+: g'.members := (List.prefix_map_iff_of_injective fun _ _ => Option.some.inj).mp hp
  exact List.cons_prefix_cons.mp hm

namespace Scan

open Grouping

variable {s : Settings}

def placedClusters (s : Settings) (bs : List (Block × Nat)) : List (Cluster (Block × Nat)) :=
  (sortedBy (Block.fingerprint ∘ Prod.fst) bs).flatMap ((grouping s).comap Prod.fst).clusters

theorem map_placedClusters (s : Settings) (bs : List (Block × Nat)) :
    (placedClusters s bs).map (Cluster.map Prod.fst) = sortedClusters s (bs.map Prod.fst) := by
  have ha := along_comap (Prod.fst : Block × Nat → Block) (grouping s)
  simp only [placedClusters, sortedClusters, sortedBy_map, List.map_flatMap, List.flatMap_map, ha.clusters]

-- The groups `gs` are what is left of the groups `gs'` of the blocks `bs` without the blocks from place `n`
-- on: each group loses those members, and goes if it has fewer than two left.
def Restricted (s : Settings) (bs : List Block) (n : Nat) (gs gs' : List Group) : Prop :=
  ∃ places : List (List Nat), places.flatten.Nodup ∧ List.Forall₂ (Group.At s bs) places gs' ∧
    List.Forall₂ (Group.At s bs) ((places.map (List.filter (· < n))).filter (2 ≤ ·.length)) gs

namespace Restricted

variable {bs : List Block} {items : List (Block × Nat)} {k : Cluster (Block × Nat)} {n m : Nat}

def placesOf (k : Cluster (Block × Nat)) : List Nat :=
  k.members.map Prod.snd

theorem at_placesOf (hs : items <+ bs.zipIdx) (hk : k ∈ placedClusters s items) :
    Group.At s bs (placesOf k) (k.map Prod.fst).group := by
  have hf := from_of_mem_flatMap hk
  have hm : k.members <+ bs.zipIdx := hf.sublist.trans hs
  constructor
  case increasing =>
    have hp : (bs.zipIdx.map Prod.snd).Pairwise (· < ·) := by
      rw [List.zipIdx_map_snd]
      exact List.pairwise_lt_range'
    exact hp.sublist (hm.map Prod.snd)
  case members =>
    have hi : ∀ x ∈ k.members, bs[x.2]? = some x.1 := fun x hx => List.mem_zipIdx_iff_getElem?.mp (hm.subset hx)
    have he : (k.map Prod.fst).group.members = k.members.map Prod.fst := rfl
    rw [he, placesOf, List.map_map, List.map_map]
    exact List.map_congr_left hi
  case lowest =>
    exact hf.lowest.trans ((along_comap Prod.fst (grouping s)).lowest ..)

theorem forall₂_at (hs : items <+ bs.zipIdx) :
    List.Forall₂ (Group.At s bs) ((placedClusters s items).map placesOf)
      ((sortedClusters s (items.map Prod.fst)).map Cluster.group) := by
  rw [← map_placedClusters, List.map_map, List.forall₂_map_left_iff, List.forall₂_map_right_iff,
    List.forall₂_same]
  exact fun k hk => at_placesOf hs hk

theorem map_placesOf_restrict {g : Grouping (Block × Nat)} {ks : List (Cluster (Block × Nat))}
    (h : ∀ k ∈ ks, (placesOf k).Pairwise (· < ·)) :
    (ks.filterMap (Cluster.restrict g (·.2 < n))).map placesOf =
      ((ks.map placesOf).map (List.filter (· < n))).filter (2 ≤ ·.length) := by
  induction ks
  case nil => rfl
  case cons k ks hi =>
    have ⟨hk, hks⟩ := List.forall_mem_cons.mp h
    have hr : (k.root.2 < n : Bool) = false → ∀ x ∈ k.others, (x.2 < n : Bool) = false := by
      intro hr x hx
      have hx : k.root.2 < x.2 := List.rel_of_pairwise_cons hk (List.mem_map_of_mem hx)
      simp only [decide_eq_false_iff_not] at hr ⊢
      omega
    have hm := (Cluster.restrict_members hr : (k.restrict g (·.2 < n)).map _ = _)
    have hf : (placesOf k).filter (· < n) = (k.members.filter (·.2 < n)).map Prod.snd := by
      simp [placesOf, List.filter_map, Function.comp_def]
    rw [List.map_cons, List.map_cons, hf]
    by_cases hl : 2 ≤ (k.members.filter (·.2 < n)).length
    case pos =>
      rw [if_pos hl] at hm
      have ⟨c, hc, he⟩ := Option.map_eq_some_iff.mp hm
      rw [List.filterMap_cons_some hc, List.map_cons, hi hks, List.filter_cons_of_pos (by simpa using hl), ← he]
      rfl
    case neg =>
      rw [if_neg hl] at hm
      rw [List.filterMap_cons_none (Option.map_eq_none_iff.mp hm), hi hks,
        List.filter_cons_of_neg (by simpa using hl)]

theorem zipIdx_take (bs : List Block) (h : n ≤ m) :
    (bs.take m).zipIdx = (bs.take n).zipIdx ++ ((bs.take m).drop n).zipIdx (bs.take n).length := by
  have ht : bs.take n ++ (bs.take m).drop n = bs.take m := by
    have ht := List.take_append_drop n (bs.take m)
    rwa [List.take_take, Nat.min_eq_left h] at ht
  have ha : (bs.take n ++ (bs.take m).drop n).zipIdx = _ := List.zipIdx_append
  rwa [ht, Nat.zero_add] at ha

theorem placedClusters_take (s : Settings) (bs : List Block) (h : n ≤ m) :
    (placedClusters s (bs.take m).zipIdx).filterMap
        (Cluster.restrict ((grouping s).comap Prod.fst) (·.2 < n)) =
      placedClusters s (bs.take n).zipIdx := by
  have hx : ∀ x ∈ (bs.take n).zipIdx, (x.2 < n : Bool) = true := by
    intro x hx
    have ⟨_, hl, _⟩ := List.mem_zipIdx hx
    simp only [decide_eq_true_eq, List.length_take] at hl ⊢
    omega
  have hy : ∀ y ∈ ((bs.take m).drop n).zipIdx (bs.take n).length, (y.2 < n : Bool) = false := by
    intro y hy
    have ⟨_, _, _⟩ := List.mem_zipIdx hy
    simp only [decide_eq_false_iff_not, List.length_take, List.length_drop] at *
    omega
  rw [zipIdx_take bs h]
  exact flatMap_clusters_restrict _ hx hy

theorem sortedClusters_take (s : Settings) (bs : List Block) (h : n ≤ m) :
    Restricted s bs n ((sortedClusters s (bs.take n)).map Cluster.group)
      ((sortedClusters s (bs.take m)).map Cluster.group) := by
  have hp (i : Nat) : (bs.take i).zipIdx <+ bs.zipIdx := by
    have ha : (bs.take i ++ bs.drop i).zipIdx = _ := List.zipIdx_append
    rw [List.take_append_drop] at ha
    exact ha ▸ List.sublist_append_left ..
  have hf (i : Nat) := forall₂_at (s := s) (hp i)
  simp only [List.zipIdx_map_fst] at hf
  refine ⟨_, ?nodup, hf m, ?restricted⟩
  case nodup =>
    have hn : ((bs.take m).zipIdx.map Prod.snd).Nodup := List.zipIdx_map_snd .. ▸ List.nodup_range'
    have hd := nodup_flatMap_members ((grouping s).comap Prod.fst) (Block.fingerprint ∘ Prod.fst) hn.of_map
    have hi : ∀ x ∈ (placedClusters s (bs.take m).zipIdx).flatMap Cluster.members, x ∈ (bs.take m).zipIdx := by
      intro x hx
      have ⟨k, hk, hx⟩ := List.mem_flatMap.mp hx
      exact (from_of_mem_flatMap hk).sublist.subset hx
    have hf : ((placedClusters s (bs.take m).zipIdx).map placesOf).flatten =
        ((placedClusters s (bs.take m).zipIdx).flatMap Cluster.members).map Prod.snd := by
      rw [List.map_flatMap]
      rfl
    rw [hf]
    exact hd.map_on fun x hx y hy => List.inj_on_of_nodup_map hn (hi x hx) (hi y hy)
  case restricted =>
    have hi : ∀ k ∈ placedClusters s (bs.take m).zipIdx, (placesOf k).Pairwise (· < ·) :=
      fun k hk => (at_placesOf (hp m) hk).increasing
    rw [← map_placesOf_restrict hi, placedClusters_take s bs h]
    exact hf n

theorem sublistForall₂ {gs gs' : List Group} (h : Restricted s bs n gs gs') :
    List.SublistForall₂ Group.Begins gs gs' := by
  have ⟨_, hd, hp, hr⟩ := h
  clear h hd
  induction hp generalizing gs
  case nil =>
    cases hr
    exact .nil
  case cons is _ _ _ h _ hi =>
    rw [List.map_cons] at hr
    by_cases hl : 2 ≤ (is.filter (· < n)).length
    case pos =>
      rw [List.filter_cons_of_pos (by simpa using hl)] at hr
      cases hr
      case cons hg hr => exact .cons (hg.begins h) (hi hr)
    case neg =>
      rw [List.filter_cons_of_neg (by simpa using hl)] at hr
      exact .cons_right (hi hr)

end Restricted

variable {us : List Source}

theorem pooled_groups_take {n : Nat} (hn : n ≤ Tally.cap)
    (h : (pooled { s with maxBlocks := n } us).counters.comparisonsTruncated = false) :
    (pooled { s with maxBlocks := n } us).groups =
      (sortedClusters s ((Harvest.available s us).take n)).map Cluster.group := by
  rw [pooled_groups h, Harvest.blocks_eq_take hn]
  rfl

-- A lower ceiling on blocks takes the blocks above it out of the groups, and nothing else. (Ceilings are 64-bit
-- words, so none is above `Tally.cap`.) In the same way a scan without the last sources loses only their blocks,
-- so with them no group goes and none has another root.
theorem pooled_restricted (s : Settings) (us : List Source) :
    (∀ n m : Nat, n ≤ m → m ≤ Tally.cap →
      (pooled { s with maxBlocks := n } us).counters.comparisonsTruncated = false →
      (pooled { s with maxBlocks := m } us).counters.comparisonsTruncated = false →
      Restricted s (Harvest.available s us) n (pooled { s with maxBlocks := n } us).groups
        (pooled { s with maxBlocks := m } us).groups) ∧
    ∀ vs : List Source,
      (pooled s us).counters.isPartial = false → (pooled s (us ++ vs)).counters.isPartial = false →
      Restricted s (Harvest.available s (us ++ vs)) (Harvest.available s us).length (pooled s us).groups
        (pooled s (us ++ vs)).groups ∧
      List.SublistForall₂ Group.Begins (pooled s us).groups (pooled s (us ++ vs)).groups := by
  constructor
  case left =>
    intro n m hnm hm hn' hm'
    rw [pooled_groups_take (Nat.le_trans hnm hm) hn', pooled_groups_take hm hm']
    exact Restricted.sortedClusters_take s _ hnm
  case right =>
    intro vs hu hv
    have hr : Restricted s (Harvest.available s (us ++ vs)) (Harvest.available s us).length (pooled s us).groups
        (pooled s (us ++ vs)).groups := by
      have ha := Harvest.available_append s us vs
      have hl : (Harvest.available s us).length ≤ (Harvest.available s (us ++ vs)).length := by
        rw [ha, List.length_append]
        exact Nat.le_add_right ..
      have ht : (Harvest.available s (us ++ vs)).take (Harvest.available s us).length = Harvest.available s us := by
        rw [ha, List.take_left]
      have hr := Restricted.sortedClusters_take s (Harvest.available s (us ++ vs)) hl
      rwa [ht, List.take_length, ← pooled_groups_available hu, ← pooled_groups_available hv] at hr
    exact ⟨hr, hr.sublistForall₂⟩

-- Two sources that have something in common, and two that bring a third copy and a second group.
def early : List Source :=
  [⟨"a", ['1', ';']⟩, ⟨"b", ['2', ';']⟩, ⟨"c", ['1', ';']⟩]

def late : List Source :=
  [⟨"d", ['1', ';']⟩, ⟨"e", ['2', ';']⟩]

theorem pooled_restricted_early :
    Restricted { minLines := 1 } (Harvest.available { minLines := 1 } (early ++ late)) 4
        (pooled { minLines := 1, maxBlocks := 4 } (early ++ late)).groups
        (pooled { minLines := 1, maxBlocks := 5 } (early ++ late)).groups ∧
      List.SublistForall₂ Group.Begins (pooled { minLines := 1 } early).groups
        (pooled { minLines := 1 } (early ++ late)).groups := by
  constructor
  case left =>
    refine (pooled_restricted { minLines := 1 } (early ++ late)).left 4 5 (by decide) (by decide) ?_ ?_ <;>
      rw [pooled, Bucket.ofBlocks_eq] <;> decide +kernel
  case right =>
    refine ((pooled_restricted { minLines := 1 } early).right late ?_ ?_).right <;>
      rw [pooled, Bucket.ofBlocks_eq] <;> decide +kernel

end Scan
end DuplicateBlocks
