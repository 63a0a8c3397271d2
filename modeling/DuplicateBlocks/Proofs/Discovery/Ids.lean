import DuplicateBlocks.Discovery.Search
import DuplicateBlocks.Proofs.Discovery.Walk
import DuplicateBlocks.Proofs.Path

namespace DuplicateBlocks.Discovery

variable {top : Tree.Node} {here root : String} {o : Options} {l : Ledger} {label : Option String}
  {spot : Tree.Spot} {e : Event} {roots : List String} {found : List (String × Tree.Spot)}

def Event.ids : Event → List String
  | .file _ id label _ => [Path.labelled label id]
  | .fault _ => []
  | .outside => []

theorem ids_takeUp_sublist (l : Ledger) (o : Options) (id : String) (label : Option String) (found : Finding) :
    ((l.takeUp o id label found).1.toList.map Source.id).Sublist [Path.labelled label id] := by
  unfold Ledger.takeUp
  simp only
  split
  case isTrue  => exact List.nil_sublist _
  case isFalse => cases Ledger.read _ o found |>.1 <;> simp

theorem ids_take_sublist {file : Option Source} {l' : Ledger} (h : l.take o e = .next file l') :
    (file.toList.map Source.id).Sublist e.ids := by
  cases e
  case fault   => cases h; exact .refl _
  case outside => cases h; exact .refl _
  case file path id label found =>
    rw [Ledger.take] at h
    split at h <;> try split at h
    case isTrue          => cases h; exact List.nil_sublist _
    case isFalse.isTrue  => cases h
    case isFalse.isFalse =>
      have hu := ids_takeUp_sublist l o id label found
      split at h
      case h_1 ht =>
        cases h
        rwa [ht] at hu

-- Events may be passed over, and the last of them may not be taken, but none is taken twice.
theorem ids_ofEvents_sublist (o : Options) (l : Ledger) (es : List Event) :
    ((Haul.ofEvents o l es).files.map Source.id).Sublist (es.flatMap Event.ids) := by
  induction es generalizing l
  case nil => exact .refl _
  case cons e es hi =>
    rw [Haul.ofEvents, List.flatMap_cons]
    split
    case h_1 => exact List.nil_sublist _
    case h_2 file l' ht =>
      rw [List.map_append]
      exact (ids_take_sublist ht).append (hi l')

-- Below a root, the id of a file tells the names that lead to it.
theorem nodup_ids_items {w : Walk} {entries : List (String × Tree.Node)} {bars : Tree.Bars}
    (h : (Tree.Node.directory entries bars).Proper Path.IsPlain) :
    ((filesOf (w.items entries)).map fun names => Path.slashed (Path.joinSegments names)).Nodup := by
  have hs := Walk.spread_items (w := w) h
  have hi : ∀ names ∈ filesOf (w.items entries), Path.segments (Path.slashed (Path.joinSegments names)) = names := by
    intro names hm
    obtain ⟨rest, rfl, hp⟩ := hs.below names hm
    exact Path.segments_slashed_joinSegments (Walk.ne_nil_of_mem_items h hm) hp
  have hm : ((filesOf (w.items entries)).map fun names => Path.segments (Path.slashed (Path.joinSegments names))) =
      filesOf (w.items entries) := (List.map_congr_left hi).trans (List.map_id _)
  refine .of_map Path.segments ?_
  rw [List.map_map, Function.comp_def, hm]
  exact hs.nodup

theorem ids_faultEvents (causes : List (Option Tree.Fault)) : (faultEvents causes).flatMap Event.ids = [] := by
  unfold faultEvents
  split <;> rfl

theorem ids_event (w : Walk) (label : Option String) (items : List Item) :
    (items.map (w.event label)).flatMap Event.ids =
      ((filesOf items).map fun names => Path.slashed (Path.joinSegments names)).map (Path.labelled label) := by
  induction items
  case nil => rfl
  case cons item items hi =>
    rw [List.map_cons, List.flatMap_cons, hi]
    cases item <;> rfl

theorem ids_rootEvents (top : Tree.Node) (here : String) (o : Options) (root : String) (label : Option String)
    (hs : spot.node.Proper Path.IsPlain) :
    ∃ ids : List String, ids.Nodup ∧
      (rootEvents top here o root label spot).flatMap Event.ids = ids.map (Path.labelled label) := by
  unfold rootEvents
  simp only
  split
  case h_1 entries bars he =>
    refine ⟨_, nodup_ids_items (w := { top, here, root, options := o }) (he ▸ hs), ?_⟩
    rw [List.flatMap_append, ids_faultEvents, List.nil_append, ids_event]
  case h_2 => exact ⟨[_], List.nodup_singleton _, rfl⟩

theorem nodup_ids_rootEvents (hs : spot.node.Proper Path.IsPlain) :
    ((rootEvents top here o root label spot).flatMap Event.ids).Nodup := by
  have ⟨ids, hn, he⟩ := ids_rootEvents top here o root label hs
  exact he ▸ hn.map (Path.labelled_injective _)

theorem exists_labelled_of_mem_ids {id : String} (hs : spot.node.Proper Path.IsPlain)
    (h : id ∈ (rootEvents top here o root label spot).flatMap Event.ids) : ∃ x, Path.labelled label x = id := by
  have ⟨ids, _, he⟩ := ids_rootEvents top here o root label hs
  have ⟨x, _, hx⟩ := List.mem_map.mp (he ▸ h)
  exact ⟨x, hx⟩

-- The label in front of an id tells the root. A single root has no label, and no other root to be told from.
theorem nodup_ids_allEvents (top : Tree.Node) (here : String) (o : Options)
    (hs : ∀ f ∈ found, f.2.node.Proper Path.IsPlain) (hl : ((found.map Prod.fst).mapIdx Path.rootLabel).Nodup) :
    ((allEvents top here o found).flatMap Event.ids).Nodup := by
  have hz : ∀ f ∈ found.zipIdx, f.1.2.node.Proper Path.IsPlain :=
    fun f hf => hs f.1 (List.fst_mem_of_mem_zipIdx hf)
  have hd : found.zipIdx.Pairwise fun a b => Path.rootLabel a.2 a.1.1 ≠ Path.rootLabel b.2 b.1.1 := by
    simpa [List.mapIdx_eq_zipIdx_map, List.zipIdx_map, List.Nodup, List.pairwise_map] using hl
  rw [allEvents, List.flatMap_assoc, List.nodup_flatMap]
  refine ⟨fun f hf => nodup_ids_rootEvents (hz f hf), ?_⟩
  by_cases hm : 1 < found.length
  case pos =>
    simp only [if_pos hm]
    refine hd.imp_of_mem ?_
    intro a b ha hb hab id hia hib
    have ⟨x, hx⟩ := exists_labelled_of_mem_ids (hz a ha) hia
    have ⟨y, hy⟩ := exists_labelled_of_mem_ids (hz b hb) hib
    have hr := Path.slash_not_mem_rootLabel
    exact hab (Path.labelled_inj (hr _ _) (hr _ _) (hx.trans hy.symm)).1
  case neg =>
    have hle : found.zipIdx.length ≤ 1 := by simpa using hm
    match found.zipIdx, hle with
    | [],  _ => exact .nil
    | [_], _ => exact List.pairwise_singleton ..

theorem at?_of_findRoot (h : findRoot top root = .ok spot) : top.at? spot.names = some spot.node := by
  unfold findRoot at h
  cases hf : Tree.find top true root
  case error => rw [hf] at h; cases h
  case ok    => rw [hf] at h; cases h; exact Tree.at?_of_find hf

theorem findRoot_eq_ok {names : List String} {entries : List (String × Tree.Node)} {bars : Tree.Bars}
    (hp : Tree.Spells root names) (ha : top.reach? names = some (.directory entries bars)) :
    findRoot top root = .ok ⟨names, .directory entries bars⟩ := by
  rw [findRoot, Tree.find_eq_ok hp ha (by simp)]
  rfl

theorem Walk.faultsAbove_eq_nil {w : Walk} (hw : w.options.respectIgnoreFiles = false) (position : List String) :
    w.faultsAbove position = [] := by
  simp [faultsAbove, ruleFaults, hw]

structure Leads (top : Tree.Node) (roots : List String) (found : List (String × Tree.Spot)) : Prop where
  roots : found.map Prod.fst = roots
  spots : ∀ f ∈ found, findRoot top f.1 = .ok f.2

theorem exists_leads (h : ∀ root ∈ roots, (findRoot top root).isOk) : ∃ found, Leads top roots found := by
  induction roots
  case nil => exact ⟨[], rfl, by simp⟩
  case cons root roots hi =>
    have ⟨hr, hrs⟩ := List.forall_mem_cons.mp h
    have ⟨found, hf⟩ := hi hrs
    cases hs : findRoot top root
    case error => rw [hs] at hr; cases hr
    case ok spot =>
      exact ⟨(root, spot) :: found, by rw [List.map_cons, hf.roots], List.forall_mem_cons.mpr ⟨hs, hf.spots⟩⟩

theorem Leads.isOk (h : Leads top roots found) : ∀ root ∈ roots, (findRoot top root).isOk := by
  rw [← h.roots, List.forall_mem_map]
  intro f hf
  rw [h.spots f hf]
  rfl

theorem mapM_findRoot (h : ∀ f ∈ found, findRoot top f.1 = .ok f.2) :
    (found.map Prod.fst).mapM (fun root => return (root, ← findRoot top root)) = Except.ok found := by
  induction found
  case nil => rfl
  case cons f found hi =>
    have ⟨hf, hfs⟩ := List.forall_mem_cons.mp h
    rw [List.map_cons, List.mapM_cons, hi hfs, hf]
    rfl

theorem search_eq_ok (here : String) (o : Options) (h : Leads top roots found) :
    search top here o roots = .ok (
      if found.isEmpty then {}
      else if o.maxFiles == some 0 then { ledger := Ledger.enterSkip {} .overFileBudget }
      else Haul.ofEvents o {} (allEvents top here o found)) := by
  rw [search, ← h.roots, mapM_findRoot h.spots]
  simp only [bind, Except.bind, pure, Except.pure]
  split <;> try split
  all_goals rfl

-- Where no name holds a backslash and no two roots have the same label, no id is returned twice. Names are text: two
-- files in one directory whose names differ only in bytes that are no text would have one name, and the tree of such a
-- directory is not proper.
theorem nodup_ids_search (here : String) (o : Options) (ht : top.Proper Path.IsPlain)
    (hr : ∀ root ∈ roots, (findRoot top root).isOk) (hl : (roots.mapIdx Path.rootLabel).Nodup) :
    ∃ haul, search top here o roots = .ok haul ∧ (haul.files.map Source.id).Nodup := by
  have ⟨found, hf⟩ := exists_leads hr
  have hs : ∀ f ∈ found, f.2.node.Proper Path.IsPlain :=
    fun f hm => Tree.proper_at? ht (at?_of_findRoot (hf.spots f hm))
  refine ⟨_, search_eq_ok here o hf, ?_⟩
  split <;> try split
  case isTrue          => exact List.nodup_nil
  case isFalse.isTrue  => exact List.nodup_nil
  case isFalse.isFalse => exact (ids_ofEvents_sublist ..).nodup (nodup_ids_allEvents top here o hs (hf.roots ▸ hl))

-- Two directories with the same name, each of which holds a file with the same name.
def forked : Tree.Node :=
  .directory [("a", .directory [("src", .directory [("x.ts", .file [])])]),
    ("b", .directory [("src", .directory [("x.ts", .file [])])])]

theorem proper_forked : forked.Proper Path.IsPlain := by
  simp [forked, Tree.proper_directory_iff, Path.IsPlain, Tree.Node.Proper.file]

theorem nodup_ids_search_forked :
    ["/a", "/b/src"].mapIdx Path.rootLabel = ["a", "src"] ∧
      ∃ haul, search forked "/" {} ["/a", "/b/src"] = .ok haul ∧ (haul.files.map Source.id).Nodup := by
  have hl : ["/a", "/b/src"].mapIdx Path.rootLabel = ["a", "src"] := by decide +kernel
  have ha : findRoot forked "/a" = .ok ⟨["a"], .directory [("src", .directory [("x.ts", .file [])])]⟩ :=
    findRoot_eq_ok (by decide +kernel) rfl
  have hb : findRoot forked "/b/src" = .ok ⟨["b", "src"], .directory [("x.ts", .file [])]⟩ :=
    findRoot_eq_ok (by decide +kernel) rfl
  have hr : ∀ root ∈ ["/a", "/b/src"], (findRoot forked root).isOk :=
    List.forall_mem_cons.mpr ⟨by rw [ha]; rfl, List.forall_mem_singleton.mpr (by rw [hb]; rfl)⟩
  exact ⟨hl, nodup_ids_search "/" {} proper_forked hr (by rw [hl]; decide)⟩

-- Roots that lead to directories, none of which is another one or lies inside it.
def Apart (top : Tree.Node) (roots : List String) : Prop :=
  ∃ found, Leads top roots found ∧ (∀ f ∈ found, ∃ entries, f.2.node = .directory entries) ∧
    found.Pairwise fun a b => ¬a.2.names <+: b.2.names ∧ ¬b.2.names <+: a.2.names

def unruled : Options :=
  { extensions := ["ts"], ignoredDirectories := [], respectIgnoreFiles := false }

def forkedRoots : List (String × Tree.Spot) :=
  [("/a/src", ⟨["a", "src"], .directory [("x.ts", .file [])]⟩),
    ("/b/src", ⟨["b", "src"], .directory [("x.ts", .file [])]⟩)]

theorem leads_forked : Leads forked ["/a/src", "/b/src"] forkedRoots := by
  refine ⟨rfl, List.forall_mem_cons.mpr ⟨?_, List.forall_mem_singleton.mpr ?_⟩⟩
  · exact findRoot_eq_ok (by decide +kernel) rfl
  · exact findRoot_eq_ok (by decide +kernel) rfl

-- A file whose name holds a backslash where the path of another one has a slash.
def doubledEntries : List (String × Tree.Node) :=
  [("a", .directory [("b.ts", .file [])]), ("a\\b.ts", .file [])]

def doubled : Tree.Node :=
  .directory [("c", .directory doubledEntries)]

theorem leads_doubled : Leads doubled ["/c"] [("/c", ⟨["c"], .directory doubledEntries⟩)] :=
  ⟨rfl, List.forall_mem_singleton.mpr (findRoot_eq_ok (by decide +kernel) rfl)⟩

theorem items_doubledEntries :
    ({ top := doubled, here := "/", root := "/c", options := unruled } : Walk).items doubledEntries =
      [.file ["a", "b.ts"], .file ["a\\b.ts"]] := by
  have hc : Tree.listingFault? doubled "/c" = none := by decide +kernel
  have ha : Tree.listingFault? doubled (Path.join "/c" (Path.joinSegments ["a"])) = none := by decide +kernel
  rw [Walk.items, Walk.entriesItems_eq, Walk.inOrder_of_pairwise (by decide +kernel)]
  simp [doubledEntries, Walk.nodeItems, Walk.entriesItems, Walk.entryItems, Walk.inOrder, Walk.level, Walk.isIgnored,
    Walk.listed, Walk.pathOf, Walk.globalRules, Ignore.verdict?, unruled, hc, ha]

theorem rootEvents_doubled :
    rootEvents doubled "/" unruled "/c" none ⟨["c"], .directory doubledEntries⟩ =
      [.file "a/b.ts" "a/b.ts" none (.file []), .file "a\\b.ts" "a/b.ts" none (.file [])] := by
  simp only [rootEvents, items_doubledEntries]
  decide +kernel

-- Neither of the two conditions can be left out: the last names of two roots may be the same, and a backslash in a
-- name becomes a slash in an id.
theorem ids_search_not_nodup :
    (forked.Proper Path.IsPlain ∧ Apart forked ["/a/src", "/b/src"] ∧
      ∃ haul, search forked "/" unruled ["/a/src", "/b/src"] = .ok haul ∧ ¬(haul.files.map Source.id).Nodup) ∧
    (doubled.Proper (fun n => '/' ∉ n.toList) ∧ Apart doubled ["/c"] ∧
      ∃ haul, search doubled "/" unruled ["/c"] = .ok haul ∧ ¬(haul.files.map Source.id).Nodup) := by
  constructor
  case left =>
    have hi : (Haul.ofEvents unruled {} (allEvents forked "/" unruled forkedRoots)).files.map Source.id =
        ["src/x.ts", "src/x.ts"] := by decide +kernel
    refine ⟨proper_forked, ⟨_, leads_forked, ?_, ?_⟩, _, search_eq_ok _ _ leads_forked, ?_⟩
    · simp [forkedRoots]
    · simp [forkedRoots]
    · exact fun hn => absurd (hi ▸ hn) (by simp)
  case right =>
    have hi : (Haul.ofEvents unruled {} (allEvents doubled "/" unruled [("/c", ⟨["c"], .directory doubledEntries⟩)])
        ).files.map Source.id = ["a/b.ts", "a/b.ts"] := by
      have he : allEvents doubled "/" unruled [("/c", ⟨["c"], .directory doubledEntries⟩)] =
          rootEvents doubled "/" unruled "/c" none ⟨["c"], .directory doubledEntries⟩ := by
        simp [allEvents]
      rw [he, rootEvents_doubled]
      decide +kernel
    refine ⟨?_, ⟨_, leads_doubled, ?_, ?_⟩, _, search_eq_ok _ _ leads_doubled, ?_⟩
    · simp [doubled, doubledEntries, Tree.proper_directory_iff, Tree.Node.Proper.file]
    · simp
    · simp
    · exact fun hn => absurd (hi ▸ hn) (by simp)

end DuplicateBlocks.Discovery
