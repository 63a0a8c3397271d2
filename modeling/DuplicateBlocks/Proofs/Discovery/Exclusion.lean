import DuplicateBlocks.Command.Run
import DuplicateBlocks.Proofs.Discovery.Origins
import DuplicateBlocks.Proofs.Scan.Accounts

namespace DuplicateBlocks

variable {s : Settings} {us : List Source}

theorem Harvest.addSources_excludedUnits (hx : ∀ u ∈ us, s.excluded.excludes u.id = false) (h : Harvest) :
    (addSources s us h).counters.excludedUnits = h.counters.excludedUnits := by
  induction us generalizing h
  case nil => rfl
  case cons u us hi =>
    have ⟨hu, hus⟩ := List.forall_mem_cons.mp hx
    rw [addSources_cons, hu, if_neg Bool.false_ne_true]
    split
    case isTrue  => rw [hi hus, addSource_excludedUnits]
    case isFalse => rw [addSource_excludedUnits]

namespace Scan

theorem pooled_excludedUnits (hx : ∀ u ∈ us, s.excluded.excludes u.id = false) :
    (pooled s us).counters.excludedUnits = 0 := by
  rw [pooled_counters, (kept_progress s _).excludedUnits]
  exact Harvest.addSources_excludedUnits hx _

theorem each_excludedUnits (hx : ∀ u ∈ us, s.excluded.excludes u.id = false) :
    (each s us).counters.excludedUnits = 0 := by
  induction us
  case nil => rfl
  case cons u us hi =>
    have ⟨hu, hus⟩ := List.forall_mem_cons.mp hx
    have hp : (pooled s [u]).counters.excludedUnits = 0 := pooled_excludedUnits (List.forall_mem_singleton.mpr hu)
    rw [each_cons]
    change (pooled s [u]).counters.excludedUnits + (each s us).counters.excludedUnits = 0
    rw [hp, hi hus, Tally.add_zero]

end Scan

namespace Discovery

variable {top : Tree.Node} {o : Options} {l : Ledger} {roots : List String} {here : String}
  {found : List (String × Tree.Spot)} {file : Source}

theorem exists_label_of_mem_files (h : file ∈ (Haul.ofEvents o l (allEvents top here o found)).files) :
    ∃ i root spot id, found[i]? = some (root, spot) ∧ file.id = Path.labelled (labelAmong found i root) id ∧
      o.excluded.excludes id = false := by
  have ⟨content, hr⟩ := exists_mem_reads_of_mem_files h
  have ⟨e, he, hs⟩ := exists_suitable_of_mem_reads hr
  have ⟨i, root, spot, hi, hm⟩ := exists_root_of_mem_allEvents he
  cases hs
  case intro id _ _ hx _ _ =>
    cases (file_mem_rootEvents hm).1
    exact ⟨i, root, spot, id, hi, rfl, hx⟩

-- The labels of roots make no difference to what is excluded: those of several roots, as a single one has none.
def LabelsUnseen (excluded : Exclusion) (roots : List String) : Prop :=
  1 < roots.length → ∀ label ∈ roots.mapIdx Path.rootLabel, ∀ id,
    excluded.excludes (Path.labelled (some label) id) = true → excluded.excludes id = true

theorem excludes_labelled {i : Nat} {root : String} {spot : Tree.Spot} {id : String}
    (hl : LabelsUnseen o.excluded (found.map Prod.fst)) (hi : found[i]? = some (root, spot))
    (hx : o.excluded.excludes id = false) :
    o.excluded.excludes (Path.labelled (labelAmong found i root) id) = false := by
  unfold labelAmong
  split
  case isFalse => exact hx
  case isTrue hm =>
    have hroot : Path.rootLabel i root ∈ (found.map Prod.fst).mapIdx Path.rootLabel := by
      refine List.mem_of_getElem? (i := i) ?_
      simp [hi]
    by_contra hn
    have := hl (by simpa using hm) _ hroot id (by simpa using hn)
    rw [hx] at this
    cases this

theorem excludes_files_ofEvents (hl : LabelsUnseen o.excluded (found.map Prod.fst)) :
    ∀ file ∈ (Haul.ofEvents o l (allEvents top here o found)).files, o.excluded.excludes file.id = false := by
  intro file hf
  have ⟨i, root, spot, id, hi, hid, hx⟩ := exists_label_of_mem_files hf
  rw [hid]
  exact excludes_labelled hl hi hx

-- What a search returns is scanned: no file is excluded a second time, unless the label of its root makes the
-- difference.
theorem excludedUnits_scanHaul_search (here : String) (i : Command.Invocation)
    (hr : ∀ root ∈ roots, (findRoot top root).isOk) (hs : s.excluded = o.excluded)
    (hl : LabelsUnseen o.excluded roots) :
    ∃ haul, search top here o roots = .ok haul ∧ (i.scanHaul s haul).scan.counters.excludedUnits = 0 := by
  have ⟨found, hf⟩ := exists_leads hr
  refine ⟨_, search_eq_ok here o hf, ?_⟩
  have hx : ∀ haul : Haul, (∀ file ∈ haul.files, o.excluded.excludes file.id = false) →
      (i.scanHaul s haul).scan.counters.excludedUnits = 0 := by
    intro haul h
    unfold Command.Invocation.scanHaul
    split
    case isTrue  => exact Scan.each_excludedUnits (hs ▸ h)
    case isFalse => exact Scan.pooled_excludedUnits (hs ▸ h)
  apply hx
  split <;> try split
  case isTrue          => simp
  case isFalse.isTrue  => simp
  case isFalse.isFalse => exact excludes_files_ofEvents (hf.roots ▸ hl)

def named : Exclusion :=
  (Exclusion.ofPatterns ["a/"]).1

def branches : List (String × Tree.Spot) :=
  [("/a", ⟨["a"], .directory [("src", .directory [("x.ts", .file [])])]⟩),
    ("/b", ⟨["b"], .directory [("src", .directory [("x.ts", .file [])])]⟩)]

theorem leads_branches : Leads forked ["/a", "/b"] branches := by
  refine ⟨rfl, List.forall_mem_cons.mpr ⟨?_, List.forall_mem_singleton.mpr ?_⟩⟩
  · exact findRoot_eq_ok (by decide +kernel) rfl
  · exact findRoot_eq_ok (by decide +kernel) rfl

theorem isOk_findRoot_branches : ∀ root ∈ ["/a", "/b"], (findRoot forked root).isOk :=
  leads_branches.isOk

-- A root with the name that is excluded, and two roots where nothing is.
theorem excludedUnits_scanHaul_named :
    named.excludes "a/src/x.ts" = true ∧
      (∃ haul, search forked "/" { excluded := named } ["/a"] = .ok haul ∧
        (({} : Command.Draft).invocation.scanHaul { excluded := named } haul).scan.counters.excludedUnits = 0) ∧
      ∃ haul, search forked "/" {} ["/a", "/b"] = .ok haul ∧
        (({} : Command.Draft).invocation.scanHaul {} haul).scan.counters.excludedUnits = 0 := by
  have hr := isOk_findRoot_branches
  have hone : LabelsUnseen named ["/a"] := fun h => absurd h (by decide)
  have hnone : LabelsUnseen {} ["/a", "/b"] := by
    intro _ label _ id hx
    simp [Exclusion.excludes, Ignore.verdict?] at hx
  refine ⟨by decide +kernel, ?_, ?_⟩
  · exact excludedUnits_scanHaul_search "/" _ (List.forall_mem_singleton.mpr (hr "/a" (by decide))) rfl hone
  · exact excludedUnits_scanHaul_search "/" _ hr rfl hnone

-- With two roots, the name of one of them is in front of its files: the search returns them, and the scan leaves them
-- out.
theorem excludedUnits_scanHaul_ne_zero :
    (∀ root ∈ ["/a", "/b"], (findRoot forked root).isOk) ∧
      ∃ haul, search forked "/" { unruled with excluded := named } ["/a", "/b"] = .ok haul ∧
        (({} : Command.Draft).invocation.scanHaul { excluded := named } haul).scan.counters.excludedUnits ≠ 0 := by
  have hfiles : (Haul.ofEvents { unruled with excluded := named } {}
      (allEvents forked "/" { unruled with excluded := named } branches)).files =
      [⟨"a/src/x.ts", []⟩, ⟨"b/src/x.ts", []⟩] := by decide +kernel
  refine ⟨isOk_findRoot_branches, _, search_eq_ok _ _ leads_branches, ?_⟩
  change (Scan.pooled _ (Haul.ofEvents _ {} (allEvents forked "/" _ branches)).files).counters.excludedUnits ≠ 0
  rw [hfiles, Scan.pooled_counters, (Scan.kept_progress _ _).excludedUnits]
  decide +kernel

end Discovery
end DuplicateBlocks
