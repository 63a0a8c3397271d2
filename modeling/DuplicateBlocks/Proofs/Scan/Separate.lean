import DuplicateBlocks.Proofs.Grouping.Greedy
import DuplicateBlocks.Proofs.Scan.Restriction
import DuplicateBlocks.Proofs.Scan.Verdict

open scoped List

namespace DuplicateBlocks

namespace Harvest

variable {s : Settings} {us : List Source} {b : Block}

theorem source_of_mem_ofSources (hb : b ∈ (ofSources s us).blocks) : b.source ∈ us.map Source.id := by
  have ⟨u, hu, hb⟩ := exists_source_of_mem_ofSources hb
  have ⟨_, _, he⟩ := List.mem_map.mp hb
  exact List.mem_map.mpr ⟨u, hu, he ▸ rfl⟩

end Harvest

namespace Scan

variable {s : Settings} {us vs : List Source} {g : Group} {b : Block}

-- Whether or not a scan is cut short, its groups are made of the blocks that were gathered.
theorem mem_blocks_of_mem_members (hg : g ∈ (pooled s us).groups) (hb : b ∈ g.members) :
    b ∈ (Harvest.ofSources s us).blocks := by
  have ⟨ks, hk, hc⟩ := Bucket.exists_cutShort_groups (grouping s)
    (Bucket.ofBlocks (Harvest.ofSources s us).blocks.reverse)
    { (Harvest.ofSources s us).counters with
      buckets := .ofNat (Bucket.ofBlocks (Harvest.ofSources s us).blocks.reverse).length }
  have hg : g ∈ ks.map Grouping.Cluster.group := hk ▸ hg
  have ⟨c, hm, he⟩ := List.mem_map.mp hg
  have ⟨k, hks, hp⟩ := hc.exists_longer hm
  rw [Bucket.flatMap_clusters_ofBlocks] at hks
  subst he
  exact List.mem_reverse.mp ((from_of_mem_flatMap hks).sublist.subset (hp.subset hb))

theorem eraseDups_of_forall_eq {x : String} {xs : List String} (hn : xs ≠ []) (h : ∀ y ∈ xs, y = x) :
    xs.eraseDups = [x] := by
  cases xs
  case nil => exact absurd rfl hn
  case cons y ys =>
    have ⟨hy, hys⟩ := List.forall_mem_cons.mp h
    have hf : ys.filter (fun z => !z == y) = [] := by simpa [hy] using hys
    rw [List.eraseDups_cons, hf, hy, List.eraseDups_nil]

theorem fileCount_of_mem_pooled {u : Source} (hg : g ∈ (pooled s [u]).groups) : g.fileCount = 1 := by
  have hs : ∀ x ∈ g.members.map Block.source, x = u.id := by
    intro x hx
    have ⟨b, hb, he⟩ := List.mem_map.mp hx
    have hu := Harvest.source_of_mem_ofSources (mem_blocks_of_mem_members hg hb)
    exact he ▸ List.mem_singleton.mp hu
  rw [Group.fileCount, eraseDups_of_forall_eq (by simp [Group.members]) hs]
  rfl

theorem each_singleton (s : Settings) (u : Source) : each s [u] = pooled s [u] := by
  rw [each_cons]
  exact append_empty _

theorem each_append (s : Settings) (us vs : List Source) : each s (us ++ vs) = (each s us).append (each s vs) := by
  induction us
  case nil => exact (empty_append _).symm
  case cons u us hi => rw [List.cons_append, each_cons, each_cons, hi, append_assoc]

theorem each_counters_perm (s : Settings) (h : us ~ vs) : (each s us).counters = (each s vs).counters := by
  induction h
  case nil => rfl
  case cons u us vs _ hi => rw [each_cons, each_cons, append, append, hi]
  case swap u v us =>
    simp only [each_cons, append]
    rw [← Counters.merge_assoc, ← Counters.merge_assoc, Counters.merge_comm (pooled s [v]).counters]
  case trans hi hi' => exact hi.trans hi'

-- Scans of sources one by one can be put together: the groups follow each other, and the counters are added up, for
-- which the order makes no difference. So the order of the sources decides in which order their groups come, and
-- nothing else. No group has members from two sources.
theorem each_append_and_perm (s : Settings) :
    (∀ us vs : List Source,
      (each s (us ++ vs)).groups = (each s us).groups ++ (each s vs).groups ∧
      (each s (us ++ vs)).counters = (each s us).counters.merge (each s vs).counters) ∧
    (∀ a b c : Counters,
      (a.merge b).merge c = a.merge (b.merge c) ∧ a.merge b = b.merge a ∧ a.merge {} = a ∧ Counters.merge {} a = a) ∧
    (∀ us vs : List Source, us ~ vs →
      (each s us).counters = (each s vs).counters ∧
      (each s us).groups = us.flatMap (fun u => (each s [u]).groups) ∧
      (each s vs).groups = vs.flatMap fun u => (each s [u]).groups) ∧
    ∀ us : List Source, ∀ g ∈ (each s us).groups, g.isSameFile = true ∧ g.fileCount = 1 := by
  refine ⟨?append, ?merge, ?perm, ?own⟩
  case append =>
    intro us vs
    rw [each_append]
    exact ⟨rfl, rfl⟩
  case merge =>
    intro a b c
    refine ⟨Counters.merge_assoc a b c, Counters.merge_comm a b, Counters.merge_empty a, ?_⟩
    rw [Counters.merge_comm, Counters.merge_empty]
  case perm =>
    intro us vs h
    simp only [each_singleton]
    exact ⟨each_counters_perm s h, each_groups s us, each_groups s vs⟩
  case own =>
    intro us g hg
    rw [each_groups, List.mem_flatMap] at hg
    have ⟨u, _, hu⟩ := hg
    have hc := fileCount_of_mem_pooled hu
    exact ⟨by simp [Group.isSameFile, hc], hc⟩

theorem each_repeated_lone :
    (each { minLines := 1 } [repeated, lone]).counters = (each { minLines := 1 } [lone, repeated]).counters ∧
      ∃ g ∈ (each { minLines := 1 } [repeated, lone]).groups, g.isSameFile = true ∧ g.fileCount = 1 := by
  obtain ⟨_, _, hperm, hown⟩ := each_append_and_perm { minLines := 1 }
  have hg : (pooled { minLines := 1 } [repeated]).groups ≠ [] := by
    simp only [pooled, Bucket.ofBlocks_eq]
    decide +kernel
  have hn : (each { minLines := 1 } [repeated, lone]).groups ≠ [] := by simp [each_groups, hg]
  obtain ⟨g, hm⟩ := List.exists_mem_of_ne_nil _ hn
  exact ⟨(hperm _ _ (.swap ..)).1, g, hm, hown _ g hm⟩

end Scan
end DuplicateBlocks
