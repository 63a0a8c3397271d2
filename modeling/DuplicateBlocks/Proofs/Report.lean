import DuplicateBlocks.Proofs.Scan.Sites
import DuplicateBlocks.Proofs.Scan.Verdict
import DuplicateBlocks.Report.Text

namespace DuplicateBlocks

open Binary64

namespace Similarity

theorem isUnsigned_score (a b : List Char) : (score a b).isUnsigned = true := by
  unfold score
  split <;> try split
  case isTrue          => rfl
  case isFalse.isTrue  => rfl
  case isFalse.isFalse => exact isUnsigned_mul (isUnsigned_div (isUnsigned_ofNat _) (isUnsigned_ofNat _)) rfl

end Similarity

namespace Group.WellFormed

variable {s : Settings} {g : Group} {n u : Nat}

theorem exists_units (h : g.WellFormed s) : ∃ u ≤ 100 * unit, g.lowest = .finite false u := by
  have hu : g.lowest.isUnsigned = true := by
    rcases List.mem_cons.mp h.lowest.mem with he | hm
    · exact he ▸ rfl
    · have ⟨b, _, he⟩ := List.mem_map.mp hm
      exact he ▸ Similarity.isUnsigned_score _ _
  exact exists_units_of_le_whole hu (hundred_eq_whole ▸ h.lowest.le .hundred List.mem_cons_self)

theorem forall_le_iff (h : g.WellFormed s) (hn : n ≤ 100) :
    (∀ b ∈ g.others, (Binary64.ofNat n).le (Similarity.score g.root.normal b.normal) = true) ↔
      (Binary64.ofNat n).le g.lowest = true := by
  constructor
  case mp =>
    intro hb
    rcases List.mem_cons.mp h.lowest.mem with he | hm
    · rw [he, hundred_eq_whole, ofNat_of_lt (by omega)]
      exact whole_le_whole.mpr hn
    · have ⟨b, hm, he⟩ := List.mem_map.mp hm
      exact he ▸ hb b hm
  case mpr =>
    intro hl b hb
    exact Binary64.le_trans hl (h.lowest.le _ (List.mem_cons_of_mem _ (List.mem_map_of_mem hb)))

end Group.WellFormed

theorem Scan.wellFormed_of_mem_pooled {s : Settings} {us : List Source} {g : Group} (h : g ∈ (pooled s us).groups) :
    g.WellFormed s := by
  have h : g ∈ (Bucket.groups (grouping s) (Bucket.ofBlocks (Harvest.ofSources s us).blocks.reverse)
      { (Harvest.ofSources s us).counters with
        buckets := .ofNat (Bucket.ofBlocks (Harvest.ofSources s us).blocks.reverse).length }).1 := h
  rw [groups_eq_located] at h
  obtain ⟨k, hk, rfl⟩ := List.mem_map.mp h
  exact wellFormed_of_sound (sound_of_mem_located hk)

namespace Report

variable {s : Settings} {us : List Source} {g : Group} {n u : Nat}

-- The heading gives `n` as a bound.
def Entry.Heads (e : Entry) (n : Nat) : Prop :=
  ∃ rest, e.text = "\nsimilarity>=" ++ Nat.repr n ++ "% lines=" ++ rest

theorem percent_ofGroup (h : g.lowest = .finite false u) : (Entry.ofGroup g).percent = Nat.repr (roundDiv u unit) := by
  simp only [Entry.percent, Entry.ofGroup, h]
  rfl

theorem heads_of_percent {e : Entry} (h : e.percent = Nat.repr n) : e.Heads n := by
  unfold Entry.Heads Entry.text
  rw [h]
  simp only [String.append_assoc]
  exact ⟨_, rfl⟩

-- A group whose lowest score is `u` units, and in whose heading that is `n` percent.
structure Headed (g : Group) (u n : Nat) : Prop where
  lowest  : g.lowest = .finite false u
  heading : (Entry.ofGroup g).Heads n
  nearest : 2 * Nat.dist (n * unit) u ≤ unit
  bound   : (∀ b ∈ g.others, (Binary64.ofNat n).le (Similarity.score g.root.normal b.normal) = true) ↔
              (Binary64.ofNat n).le g.lowest = true
  -- A rest of one half is rounded to the even neighbour.
  down    : (Binary64.ofNat n).le g.lowest = true ↔
              2 * (u % unit) < unit ∨ 2 * (u % unit) = unit ∧ u / unit % 2 = 0

theorem exists_headed_of_wellFormed (h : g.WellFormed s) : ∃ u n, Headed g u n := by
  have ⟨u, hu, hl⟩ := h.exists_units
  have hn : roundDiv u unit ≤ 100 := roundDiv_le unit_pos hu
  refine ⟨u, roundDiv u unit, hl, heads_of_percent (percent_ofGroup hl), ?nearest, h.forall_le_iff hn, ?down⟩
  case nearest => exact dist_roundDiv_le u unit_pos
  case down =>
    rw [hl, ofNat_of_lt (by omega), whole_le_finite]
    exact roundDiv_mul_le_iff u unit_pos

-- The number in the heading of a group is nearest to the lowest score. It holds of every score if it was rounded down,
-- and of not all of them if it was rounded up.
theorem headed_of_mem_groups (h : g ∈ (Scan.pooled s us).groups ∨ g ∈ (Scan.each s us).groups ∨
    ∃ u ∈ us, g ∈ (Scan.first s u).groups) : ∃ u n, Headed g u n := by
  rcases h with h | h | ⟨u, _, h⟩
  · exact exists_headed_of_wellFormed (Scan.wellFormed_of_mem_pooled h)
  · rw [Scan.each_groups] at h
    have ⟨_, _, h⟩ := List.mem_flatMap.mp h
    exact exists_headed_of_wellFormed (Scan.wellFormed_of_mem_pooled h)
  · unfold Scan.first at h
    dsimp only at h
    exact exists_headed_of_wellFormed (Scan.wellFormed_of_mem_pooled (List.mem_of_mem_take h))

def eightLines (rest : List String) : List Char :=
  Text.unlines (List.replicate 8 "11111111;".toList ++ rest.map String.toList)

def fourFifths : List Source :=
  [⟨"a.ts", eightLines ["2;", "4;"]⟩, ⟨"b.ts", eightLines ["3;", "5;"]⟩]

theorem headed_fourFifths :
    ∃ g ∈ (Scan.pooled {} fourFifths).groups, (Entry.ofGroup g).percent = "80" ∧ ∃ u n, Headed g u n := by
  have hp : (Scan.pooled {} fourFifths).groups.map (fun g => (Entry.ofGroup g).percent) = ["80"] := by
    simp only [Scan.pooled, Bucket.ofBlocks_eq]
    decide +kernel
  obtain ⟨g, hg, he⟩ := List.mem_map.mp (hp ▸ List.mem_singleton_self "80")
  exact ⟨g, hg, he, headed_of_mem_groups (.inl hg)⟩

-- Two files that end in a comment, so that eight of nine lines match.
def eightNinths : List Source :=
  [⟨"a.ts", eightLines ["2;", "// 4"]⟩, ⟨"b.ts", eightLines ["3;", "// 5"]⟩]

-- Under default settings they are told to be similar by 89 percent at least, and are not.
theorem exists_overstated :
    ∃ g ∈ (Scan.pooled {} eightNinths).groups, (Entry.ofGroup g).Heads 89 ∧
      (Binary64.ofNat 89).le g.lowest = false ∧
      ∃ b ∈ g.others, (Binary64.ofNat 89).le (Similarity.score g.root.normal b.normal) = false := by
  have hp : (Scan.pooled {} eightNinths).groups.map (fun g =>
      ((Entry.ofGroup g).percent, (Binary64.ofNat 89).le g.lowest,
        g.others.map fun b => (Binary64.ofNat 89).le (Similarity.score g.root.normal b.normal))) =
      [("89", false, [false])] := by
    simp only [Scan.pooled, Bucket.ofBlocks_eq]
    decide +kernel
  obtain ⟨g, hg, he⟩ := List.mem_map.mp (hp ▸ List.mem_singleton_self ("89", false, [false]))
  obtain ⟨hn, he⟩ := Prod.mk.inj he
  obtain ⟨hl, hs⟩ := Prod.mk.inj he
  obtain ⟨b, hb, hs⟩ := List.mem_map.mp (hs ▸ List.mem_singleton_self false)
  exact ⟨g, hg, heads_of_percent hn, hl, b, hb, hs⟩

end Report
end DuplicateBlocks
