import DuplicateBlocks.Proofs.Scan.Detection
import Mathlib.Data.List.Flatten
import Mathlib.Data.List.Perm.Subperm

open scoped List

namespace DuplicateBlocks

theorem Harvest.available_subperm {us vs : List Source} (s : Settings) (h : us <+~ vs) :
    available s us <+~ available s vs := by
  have ⟨ws, hp, hs⟩ := h.filter fun u => !s.excluded.excludes u.id
  exact ⟨ws.flatMap (Source.blocks s.code s.window), hp.flatMap_right _, hs.flatMap _⟩

theorem Duplicates.pairwise_not_of_subperm {s : Settings} {as bs : List Block} (h : as <+~ bs)
    (hb : bs.Pairwise fun a b => ¬Duplicates s a b) : as.Pairwise fun a b => ¬Duplicates s a b := by
  have ⟨cs, hp, hc⟩ := h
  -- Blocks may change places here, so it matters that duplicates are duplicates of each other.
  exact (hp.pairwise_iff fun hn hd => hn hd.symm).mp (hb.sublist hc)

namespace Scan

variable {s : Settings} {us vs : List Source}

theorem pooled_groups_ne_nil_of_subperm (h : us <+~ vs) (hu : (pooled s us).counters.isPartial = false)
    (hv : (pooled s vs).counters.isPartial = false) (hg : (pooled s us).groups ≠ []) : (pooled s vs).groups ≠ [] := by
  intro hn
  rw [pooled_groups_eq_nil_iff hv] at hn
  exact hg ((pooled_groups_eq_nil_iff hu).mpr (Duplicates.pairwise_not_of_subperm (Harvest.available_subperm s h) hn))

theorem each_groups (s : Settings) (us : List Source) :
    (each s us).groups = us.flatMap fun u => (pooled s [u]).groups := by
  induction us
  case nil => rfl
  case cons u us hi => rw [each_cons, append, hi, List.flatMap_cons]

theorem append_isPartial (a b : Scan) :
    (a.append b).counters.isPartial = (a.counters.isPartial || b.counters.isPartial) := by
  simp only [append, Counters.merge, Counters.isPartial]
  cases a.counters.blocksTruncated <;> cases b.counters.blocksTruncated <;> simp

theorem each_isPartial (s : Settings) (us : List Source) :
    (each s us).counters.isPartial = us.any fun u => (pooled s [u]).counters.isPartial := by
  induction us
  case nil => rfl
  case cons u us hi => rw [each_cons, append_isPartial, hi, List.any_cons]

-- A scan that is not cut short reports something if a scan of fewer sources does, in whatever order either takes
-- them; so it reports something for a list of sources if it does for the list in another order, and if one of
-- the sources on its own has something to report.
theorem pooled_groups_ne_nil_of_count_le (s : Settings) :
    (∀ us vs : List Source, (∀ u, us.count u ≤ vs.count u) →
      (pooled s us).counters.isPartial = false → (pooled s vs).counters.isPartial = false →
      (pooled s us).groups ≠ [] → (pooled s vs).groups ≠ []) ∧
    (∀ us vs : List Source, us ~ vs →
      (pooled s us).counters.isPartial = false → (pooled s vs).counters.isPartial = false →
      ((pooled s us).groups ≠ [] ↔ (pooled s vs).groups ≠ [])) ∧
    (∀ us : List Source,
      (each s us).counters.isPartial = false → (pooled s us).counters.isPartial = false →
      (each s us).groups ≠ [] → (pooled s us).groups ≠ []) := by
  refine ⟨?more, ?permuted, ?single⟩
  case more =>
    intro us vs h
    exact pooled_groups_ne_nil_of_subperm (List.subperm_ext_iff.mpr fun u _ => h u)
  case permuted =>
    intro us vs h hu hv
    constructor
    case mp  => exact pooled_groups_ne_nil_of_subperm h.subperm hu hv
    case mpr => exact pooled_groups_ne_nil_of_subperm h.symm.subperm hv hu
  case single =>
    intro us he hp hg
    rw [each_isPartial, List.any_eq_false] at he
    rw [each_groups, ne_eq, List.flatMap_eq_nil_iff] at hg
    push Not at hg
    have ⟨u, hu, hg⟩ := hg
    exact pooled_groups_ne_nil_of_subperm (List.singleton_subperm_iff.mpr hu) (by simpa using he u hu) hp hg

-- A source that has the same line twice, and one that comes before it and has that line as well.
def repeated : Source :=
  ⟨"a", "1;\n2;\n1;".toList⟩

def lone : Source :=
  ⟨"b", ['1', ';']⟩

theorem pooled_repeated_ne_nil :
    (pooled { minLines := 1 } [lone, repeated]).groups ≠ [] ∧
      ((pooled { minLines := 1 } [lone, repeated]).groups ≠ [] ↔
        (pooled { minLines := 1 } [repeated, lone]).groups ≠ []) ∧
      (pooled { minLines := 1 } [repeated, lone]).groups ≠ [] := by
  have ⟨more, permuted, single⟩ := pooled_groups_ne_nil_of_count_le { minLines := 1 }
  have hw : ∀ us ∈ [[repeated], [lone], [lone, repeated], [repeated, lone]],
      (pooled { minLines := 1 } us).counters.isPartial = false := by
    simp only [pooled, Bucket.ofBlocks_eq]
    decide +kernel
  have hr := hw [repeated] (by simp)
  have hl := hw [lone] (by simp)
  have hlr := hw [lone, repeated] (by simp)
  have hrl := hw [repeated, lone] (by simp)
  have hg : (pooled { minLines := 1 } [repeated]).groups ≠ [] := by
    simp only [pooled, Bucket.ofBlocks_eq]
    decide +kernel
  refine ⟨more [repeated] _ ?_ hr hlr hg, permuted _ _ (.swap ..) hlr hrl, single _ ?_ hrl ?_⟩
  · exact fun u => (List.sublist_cons_self lone [repeated]).count_le u
  · simp [each_isPartial, hr, hl]
  · simp [each_groups, hg]

end Scan
end DuplicateBlocks
