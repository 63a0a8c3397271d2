import DuplicateBlocks.Discovery.Staged
import DuplicateBlocks.Proofs.Discovery.Ids
import DuplicateBlocks.Proofs.Discovery.Outcomes
import DuplicateBlocks.Proofs.Tree.Join

namespace DuplicateBlocks.Discovery

variable {top : Tree.Node} {here root path id : String} {o : Options} {l : Ledger} {label given : Option String}
  {spot : Tree.Spot} {e : Event} {found : List (String × Tree.Spot)} {file : Source} {content : List UInt8}
  {what : Finding} {paths : List String}

def labelAmong (found : List (String × Tree.Spot)) (i : Nat) (root : String) : Option String :=
  if 1 < found.length then some (Path.rootLabel i root) else none

theorem exists_root_of_mem_allEvents (h : e ∈ allEvents top here o found) :
    ∃ i root spot, found[i]? = some (root, spot) ∧ e ∈ rootEvents top here o root (labelAmong found i root) spot := by
  have ⟨⟨⟨root, spot⟩, i⟩, hf, he⟩ := List.mem_flatMap.mp h
  exact ⟨i, root, spot, List.mem_zipIdx_iff_getElem?.mp hf, he⟩

theorem faultEvents_eq_map (causes : List (Option Tree.Fault)) :
    ∃ met : List (Option Tree.Fault), faultEvents causes = met.map Event.fault := by
  unfold faultEvents
  split
  case h_1       => exact ⟨[], rfl⟩
  case h_2 cause => exact ⟨[cause], rfl⟩
  case h_3       => exact ⟨[none], rfl⟩

theorem file_mem_rootEvents (h : .file path id given what ∈ rootEvents top here o root label spot) :
    given = label ∧
      ((∃ entries bars, ∃ names ∈ filesOf (({ top, here, root, options := o } : Walk).items entries),
        spot.node = .directory entries bars ∧ path = Path.joinSegments names ∧
          id = Path.slashed (Path.joinSegments names) ∧
          what = .at top (({ top, here, root, options := o } : Walk).pathOf names)) ∨
      (path = root ∧ id = Path.relativeId root root ∧ what = .at top root)) := by
  unfold rootEvents at h
  simp only at h
  split at h
  case h_1 entries bars hs =>
    obtain ⟨met, he⟩ := faultEvents_eq_map (({ top, here, root, options := o } : Walk).faultsAbove spot.names)
    rw [he] at h
    obtain ⟨item, hi, he⟩ : ∃ item ∈ ({ top, here, root, options := o } : Walk).items entries,
        ({ top, here, root, options := o } : Walk).event label item = .file path id given what := by simpa using h
    cases item
    case fault => cases he
    case file names =>
      cases he
      exact ⟨rfl, .inl ⟨entries, bars, names, List.mem_filterMap.mpr ⟨_, hi, rfl⟩, hs, rfl, rfl, rfl⟩⟩
  case h_2 =>
    cases List.mem_singleton.mp h
    exact ⟨rfl, .inr ⟨rfl, rfl, rfl⟩⟩

def idBelow (root : String) (names : List String) : String :=
  if names.isEmpty then Path.relativeId root root else Path.slashed (Path.joinSegments names)

theorem finding_at_eq_file_iff :
    Finding.at top path = .file content ↔ ∃ names, Tree.find top false path = .ok ⟨names, .file content⟩ := by
  unfold Finding.at
  split <;> simp_all

theorem find_of_findRoot (h : findRoot top root = .ok spot) : Tree.find top true root = .ok spot := by
  unfold findRoot at h
  cases ht : Tree.find top true root <;> rw [ht] at h <;> cases h
  rfl

-- A root that is a file and is read as such is no link.
theorem at?_of_finding_at (hf : findRoot top root = .ok spot) (hc : Finding.at top root = .file content) :
    top.at? spot.names = some (.file content) := by
  have ⟨names, hn⟩ := finding_at_eq_file_iff.mp hc
  have hfile : top.at? names = some (.file content) := Tree.at?_of_find hn
  have hr := (Tree.reaches_of_find hn).follow_last (by simp [hfile])
  rw [← hr.unique (Tree.reaches_of_find (find_of_findRoot hf)), hfile]

theorem reach?_of_finding_at {w : Walk} {names : List String} {bytes : List UInt8} {bar : Option Tree.Fault}
    (hf : findRoot top w.root = .ok spot) (hne : names ≠ []) (hn : ∀ n ∈ names, Path.IsName n)
    (ha : spot.node.at? names = some (.file bytes bar)) (hc : Finding.at top (w.pathOf names) = .file content) :
    spot.node.reach? names = some (.file content) := by
  obtain ⟨position, hfind⟩ := finding_at_eq_file_iff.mp hc
  rw [Walk.pathOf, if_neg (by simpa using hne)] at hfind
  obtain ⟨he, hr⟩ := Tree.find_join_eq (find_of_findRoot hf) hne ha (by simp) hn hfind
  cases he
  exact hr

theorem exists_names_of_mem_rootEvents (ht : top.Proper Path.IsName) (hf : findRoot top root = .ok spot)
    (h : .file path id given (.file content) ∈ rootEvents top here o root label spot) :
    ∃ names, id = idBelow root names ∧ top.at? (spot.names ++ names) = some (.file content) := by
  have hs := at?_of_findRoot hf
  rcases (file_mem_rootEvents h).2 with ⟨entries, bars, names, hm, hd, _, hi, hc⟩ | ⟨_, hi, hc⟩
  case inl =>
    have hp : (Tree.Node.directory entries bars).Proper Path.IsName := hd ▸ Tree.proper_at? ht hs
    have hne := Walk.ne_nil_of_mem_items hp hm
    have hn : ∀ n ∈ names, Path.IsName n := by
      obtain ⟨rest, rfl, hn⟩ := (Walk.spread_items hp).below names hm
      exact hn
    obtain ⟨bytes, bar, ha⟩ := (Walk.comesTo_of_mem_items hp hm).1.stands
    have hr := reach?_of_finding_at (w := { top, here, root, options := o }) hf hne hn (hd ▸ ha) hc.symm
    refine ⟨names, by simp [idBelow, hne, hi], ?_⟩
    rw [Tree.Node.at?_append, hs, Option.bind_some, Tree.at?_of_reach? hr]
  case inr =>
    refine ⟨[], by simp [idBelow, hi], ?_⟩
    rw [List.append_nil, at?_of_finding_at hf hc.symm]

-- A file of a search: where it stands at or below a root, and its id and text.
inductive Origin (top : Tree.Node) (found : List (String × Tree.Spot)) : Source → List UInt8 → Prop
  | intro {i : Nat} {root : String} {spot : Tree.Spot} {names : List String} {content : List UInt8}
    (isRoot : found[i]? = some (root, spot))
    (stands : top.at? (spot.names ++ names) = some (.file content)) :
    Origin top found
      ⟨Path.labelled (labelAmong found i root) (idBelow root names), Text.Utf8.decodeLossy content⟩ content

theorem origin_of_mem_reads (ht : top.Proper Path.IsName) (hf : ∀ f ∈ found, findRoot top f.1 = .ok f.2)
    (h : (file, content) ∈ reads (trace o l (allEvents top here o found))) : Origin top found file content := by
  have ⟨e, he, hs⟩ := exists_suitable_of_mem_reads h
  have ⟨i, root, spot, hr, hm⟩ := exists_root_of_mem_allEvents he
  cases hs
  case intro =>
    cases (file_mem_rootEvents hm).1
    have ⟨names, hi, ha⟩ := exists_names_of_mem_rootEvents ht (hf _ (List.mem_of_getElem? hr)) hm
    cases hi
    exact .intro hr ha

theorem searchStaged_eq_ok {t : Toolbox} (top : Tree.Node) (o : Options) (hp : t.stagedPaths root = .ok paths) :
    searchStaged top t o root = .ok (Haul.ofEvents o {} (paths.map (stagedEvent top root))) := by
  rw [searchStaged, hp]
  rfl

def listing (paths : List String) : Toolbox :=
  { usual := some {
      status := some 0
      output := paths.flatMap fun path => Text.Utf8.encode path.toList ++ [0]
      errors := [] } }

-- A staged file: the path that was listed, and where it leads.
inductive StagedOrigin (top : Tree.Node) (root : String) (paths : List String) : Source → List UInt8 → Prop
  | intro {path : String} {names : List String} {content : List UInt8}
    (listed : path ∈ paths)
    (safe   : Path.isSafeRelative path = true)
    (leads  : Tree.find top false (Path.join root path) = .ok ⟨names, .file content⟩) :
    StagedOrigin top root paths ⟨path, Text.Utf8.decodeLossy content⟩ content

theorem stagedOrigin_of_mem_reads
    (h : (file, content) ∈ reads (trace o l (paths.map (stagedEvent top root)))) :
    StagedOrigin top root paths file content := by
  have ⟨e, he, hs⟩ := exists_suitable_of_mem_reads h
  have ⟨path, hp, hpe⟩ := List.mem_map.mp he
  unfold stagedEvent at hpe
  cases hs
  case intro =>
    split at hpe
    case isFalse     => cases hpe
    case isTrue safe =>
      have ⟨hpath, hid, hlabel, hfound⟩ := Event.file.inj hpe
      have ⟨names, hn⟩ := finding_at_eq_file_iff.mp hfound
      subst hid hlabel
      exact .intro hp safe hn

end DuplicateBlocks.Discovery
