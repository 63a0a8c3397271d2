import DuplicateBlocks.Proofs.Discovery.Ids
import DuplicateBlocks.Proofs.Discovery.Outcomes
import DuplicateBlocks.Proofs.Discovery.Origins

namespace DuplicateBlocks.Discovery

structure Leaf where
  names : List String
  content : List UInt8

variable {top node : Tree.Node} {here root : String} {o : Options} {l : Ledger} {e : Event} {es : List Event}
  {spot : Tree.Spot} {entries : List (String × Tree.Node)} {bars : Tree.Bars} {leaf : Leaf} {w : Walk}
  {items : List Item} {names : List String} {path name : String}

-- A name with one of the wanted extensions, where the case of letters and dots in front of the wanted one do not count.
def IsWantedName (o : Options) (name : String) : Prop :=
  ∃ ext, Path.HasExtension name ext ∧
    ∃ want ∈ o.extensions, Options.sameLetters (String.ofList (want.toList.dropWhile (· == '.'))) ext = true

theorem wants_iff (hf : Path.fileName? path = some name) : o.wants path = true ↔ IsWantedName o name := by
  unfold Options.wants IsWantedName
  simp only [← Path.extension?_eq_some_iff hf]
  cases Path.extension? path <;> simp

-- A file below a directory that a search is to return. It is reached by directories alone, so no link is on the way.
structure Wanted (o : Options) (directory : Tree.Node) (leaf : Leaf) : Prop where
  stands    : ∃ bar, directory.at? leaf.names = some (.file leaf.content bar)
  unignored : ∀ n ∈ leaf.names.dropLast, n ∉ o.ignoredDirectories
  named     : ∃ name ∈ leaf.names.getLast?, IsWantedName o name
  included  : o.excluded.excludes (Path.slashed (Path.joinSegments leaf.names)) = false
  size      : ∀ n ∈ o.maxFileSize, leaf.content.length ≤ n
  noZero    : 0 ∉ leaf.content

-- A file that a search of a root can come to and open. All directories from the root down to it can be listed and
-- searched, and its path is not too long to be looked up.
structure Accessible (root : String) (directory : Tree.Node) (leaf : Leaf) : Prop where
  opens    : directory.at? leaf.names = some (.file leaf.content)
  unbarred : directory.OnTheWay (· = {}) leaf.names
  length   : Tree.bytesOf (Path.join root (Path.joinSegments leaf.names)) ≤ Tree.maxPath

namespace Leaf

def source (leaf : Leaf) : Source where
  id := Path.slashed (Path.joinSegments leaf.names)
  text := Text.Utf8.decodeLossy leaf.content

def suits (o : Options) (leaf : Leaf) : Bool :=
  o.wants (Path.joinSegments leaf.names) && !o.excluded.excludes (Path.slashed (Path.joinSegments leaf.names)) &&
    !exceeds o.maxFileSize leaf.content.length && !leaf.content.contains 0

end Leaf

def Walk.leaf? (w : Walk) : Item → Option Leaf
  | .fault _ => none
  | .file names => match Finding.at w.top (w.pathOf names) with
    | .file content => some ⟨names, content⟩
    | _ => none

theorem leaf?_eq_some_iff {item : Item} :
    w.leaf? item = some leaf ↔
      item = .file leaf.names ∧ Finding.at w.top (w.pathOf leaf.names) = .file leaf.content := by
  obtain ⟨names, content⟩ := leaf
  cases item
  case fault => simp [Walk.leaf?]
  case file met =>
    rw [Walk.leaf?]
    split
    case h_1 bytes hf =>
      constructor
      case mp  => intro h; cases h; exact ⟨rfl, hf⟩
      case mpr => rintro ⟨he, hc⟩; cases he; cases hf.symm.trans hc; rfl
    case h_2 hf =>
      constructor
      case mp  => nofun
      case mpr => rintro ⟨he, hc⟩; cases he; exact absurd hc (hf content)

theorem mem_filterMap_leaf?_iff :
    leaf ∈ items.filterMap w.leaf? ↔
      leaf.names ∈ filesOf items ∧ Finding.at w.top (w.pathOf leaf.names) = .file leaf.content := by
  have hf : leaf.names ∈ filesOf items ↔ .file leaf.names ∈ items := by
    rw [filesOf, List.mem_filterMap]
    constructor
    case mp =>
      rintro ⟨item, hm, hn⟩
      cases item <;> cases hn
      exact hm
    case mpr => exact fun hm => ⟨_, hm, rfl⟩
  rw [List.mem_filterMap, hf]
  constructor
  case mp =>
    rintro ⟨item, hm, hl⟩
    obtain ⟨rfl, hc⟩ := leaf?_eq_some_iff.mp hl
    exact ⟨hm, hc⟩
  case mpr =>
    rintro ⟨hm, hc⟩
    exact ⟨_, hm, leaf?_eq_some_iff.mpr ⟨rfl, hc⟩⟩

theorem names_filterMap_leaf?_sublist (w : Walk) (items : List Item) :
    ((items.filterMap w.leaf?).map Leaf.names).Sublist (filesOf items) := by
  induction items
  case nil => exact .slnil
  case cons item items hi =>
    cases hl : w.leaf? item
    case none =>
      rw [List.filterMap_cons_none hl]
      exact hi.trans (List.Sublist.filterMap _ (List.sublist_cons_self item items))
    case some leaf =>
      obtain ⟨rfl, -⟩ := leaf?_eq_some_iff.mp hl
      rw [List.filterMap_cons_some hl]
      exact hi.cons_cons leaf.names

theorem suitable_event_iff {item : Item} {file : Source} {content : List UInt8} :
    Suitable o (w.event none item) file content ↔
      ∃ leaf ∈ w.leaf? item, leaf.suits o = true ∧ file = leaf.source ∧ content = leaf.content := by
  constructor
  case mp =>
    intro h
    cases item
    case fault => cases h
    case file names =>
      generalize he : w.event none (.file names) = e at h
      cases h
      case intro hw hx hs hz =>
        obtain ⟨rfl, rfl, rfl, hc⟩ := Event.file.inj he
        refine ⟨⟨names, content⟩, leaf?_eq_some_iff.mpr ⟨rfl, hc⟩, ?_, rfl, rfl⟩
        simp [Leaf.suits, hw, hx, hs, hz]
  case mpr =>
    rintro ⟨leaf, hl, h, rfl, rfl⟩
    obtain ⟨rfl, hc⟩ := leaf?_eq_some_iff.mp hl
    simp only [Leaf.suits, Bool.and_eq_true, Bool.not_eq_true', List.contains_eq_mem, decide_eq_false_iff_not] at h
    have ⟨⟨⟨hw, hx⟩, hs⟩, hz⟩ := h
    rw [Walk.event, hc]
    exact .intro hw hx hs hz

structure Options.Unbounded (o : Options) : Prop where
  maxFiles      : o.maxFiles = none
  maxTotalBytes : o.maxTotalBytes = none

theorem outcome?_ne_none (ho : o.Unbounded) (l : Ledger) (e : Event) : l.outcome? o e ≠ none := by
  cases e
  case fault   => nofun
  case outside => nofun
  case file path id label found =>
    have hf : l.isFull o = false := by simp [Ledger.isFull, ho.maxFiles]
    rw [Ledger.outcome?, hf]
    repeat' split
    all_goals simp_all

-- Without budgets, what becomes of a file that is met does not hang on what came before it.
theorem exists_outcome?_event (ho : o.Unbounded) (w : Walk) (l : Ledger) (item : Item) :
    ∃ out, l.outcome? o (w.event none item) = some out ∧
      out.read? = ((w.leaf? item).filter (Leaf.suits o)).map fun leaf => (leaf.source, leaf.content) := by
  have ⟨out, hout⟩ := Option.ne_none_iff_exists'.mp (outcome?_ne_none ho l (w.event none item))
  refine ⟨out, hout, ?_⟩
  cases hs : (w.leaf? item).filter (Leaf.suits o)
  case some leaf =>
    obtain ⟨hl, hs⟩ := Option.filter_eq_some_iff.mp hs
    have hf : l.isFull o = false := by simp [Ledger.isFull, ho.maxFiles]
    have hr := outcome?_eq_returned (suitable_event_iff.mpr ⟨leaf, hl, hs, rfl, rfl⟩) hf ho.maxTotalBytes
    cases hout.symm.trans hr
    rfl
  case none =>
    cases out
    case returned file content =>
      obtain ⟨leaf, hl, hleaf, -, -⟩ := suitable_event_iff.mp (of_outcome?_eq_returned hout).1
      cases hs.symm.trans (Option.filter_eq_some_iff.mpr ⟨hl, hleaf⟩)
    all_goals rfl

theorem reads_of_unbounded (ho : o.Unbounded) (w : Walk) (l : Ledger) (items : List Item) :
    reads (trace o l (items.map (w.event none))) =
      ((items.filterMap w.leaf?).filter (Leaf.suits o)).map fun leaf => (leaf.source, leaf.content) := by
  induction items generalizing l
  case nil => rfl
  case cons item items hi =>
    obtain ⟨out, hout, hr⟩ := exists_outcome?_event ho w l item
    rw [List.map_cons, trace, hout]
    simp only [reads_cons, hr, hi]
    cases hl : w.leaf? item
    case none => rw [List.filterMap_cons_none hl]; rfl
    case some leaf =>
      rw [List.filterMap_cons_some hl]
      cases hs : leaf.suits o <;> simp [Option.filter, hs]

theorem files_of_unbounded (ho : o.Unbounded) (w : Walk) (l : Ledger) (items : List Item) :
    (Haul.ofEvents o l (items.map (w.event none))).files =
      ((items.filterMap w.leaf?).filter (Leaf.suits o)).map Leaf.source := by
  rw [files_ofEvents, reads_of_unbounded ho, List.map_map]
  rfl

-- Without ignore rules, none can be faulty, and a directory is walked from the first leaf to the last.
theorem rootEvents_of_directory (hi : o.respectIgnoreFiles = false) (hd : spot.node = .directory entries bars) :
    rootEvents top here o root none spot =
      (({ top, here, root, options := o } : Walk).items entries).map
        (({ top, here, root, options := o } : Walk).event none) := by
  have hf : ({ top, here, root, options := o } : Walk).faultsAbove spot.names = [] := Walk.faultsAbove_eq_nil hi _
  simp only [rootEvents, hd, hf]
  rfl

theorem suits_iff (hne : leaf.names ≠ []) (hn : ∀ n ∈ leaf.names, Path.IsName n) :
    leaf.suits o = true ↔
      (∃ name ∈ leaf.names.getLast?, IsWantedName o name) ∧
      o.excluded.excludes (Path.slashed (Path.joinSegments leaf.names)) = false ∧
      (∀ n ∈ o.maxFileSize, leaf.content.length ≤ n) ∧ 0 ∉ leaf.content := by
  have hl : leaf.names.getLast? = some (leaf.names.getLast hne) := List.getLast?_eq_some_getLast hne
  have hw := wants_iff (o := o) ((Path.fileName?_joinSegments hne hn).trans hl)
  simp [Leaf.suits, hw, hl, exceeds_eq_false_iff, and_assoc]

theorem pathOf_eq (hne : names ≠ []) : w.pathOf names = Path.join w.root (Path.joinSegments names) := by
  rw [Walk.pathOf, if_neg (by simpa using hne)]

section

variable (hf : findRoot w.top w.root = .ok spot)

include hf

theorem list?_eq_none_of_lists (hn : ∀ n ∈ names, Path.IsName n)
    (ha : spot.node.at? names = some (.directory entries bars)) (hl : w.Lists names) : bars.list? = none := by
  unfold Walk.Lists Tree.listingFault? at hl
  have hfound : ∃ position, Tree.find w.top true (w.pathOf names) = .ok ⟨position, .directory entries bars⟩ := by
    by_cases hne : names = []
    case pos =>
      obtain ⟨position, node⟩ := spot
      subst hne
      rw [Tree.Node.at?_nil] at ha
      cases ha
      exact ⟨position, find_of_findRoot hf⟩
    case neg =>
      rw [pathOf_eq hne] at hl ⊢
      split at hl
      case h_1 h => rw [h, (Tree.find_join_eq (find_of_findRoot hf) hne ha (by simp) hn h).1]; exact ⟨_, rfl⟩
      case h_2   => cases hl
      case h_3   => cases hl
  obtain ⟨position, hfound⟩ := hfound
  rw [hfound] at hl
  exact hl

theorem lists_of_reach? (hn : ∀ n ∈ names, Tree.IsEntry n)
    (hr : spot.node.reach? names = some (.directory entries {}))
    (hb : names ≠ [] → Tree.bytesOf (Path.join w.root (Path.joinSegments names)) ≤ Tree.maxPath) : w.Lists names := by
  unfold Walk.Lists Tree.listingFault?
  by_cases hne : names = []
  case pos =>
    obtain ⟨position, node⟩ := spot
    subst hne
    have ha := Tree.at?_of_reach? hr
    rw [Tree.Node.at?_nil] at ha
    cases ha
    have hp : w.pathOf [] = w.root := rfl
    rw [hp, find_of_findRoot hf]
  case neg =>
    rw [pathOf_eq hne, Tree.find_join_eq_ok (find_of_findRoot hf) hne (by simp) hn hr (hb hne)]

theorem accessible_iff (hne : leaf.names ≠ []) (hn : ∀ n ∈ leaf.names, Tree.IsEntry n) :
    Accessible w.root spot.node leaf ↔
      w.ComesTo [] spot.node leaf.names ∧ Finding.at w.top (w.pathOf leaf.names) = .file leaf.content := by
  have hname : ∀ n ∈ leaf.names, Path.IsName n := fun n hm => (hn n hm).name
  constructor
  case mp =>
    intro ⟨ha, hw, hb⟩
    have hr := Tree.reach?_eq_some_iff.mpr ⟨ha, hw.imp fun bars he => by rw [he]⟩
    refine ⟨⟨⟨_, _, ha⟩, ?_⟩, ?_⟩
    · intro front hp hfront
      obtain ⟨entries, bars, hd⟩ := Tree.exists_directory_of_prefix ha hp hfront
      cases hw front entries bars hp hfront hd
      have hrf := Tree.reach?_eq_some_iff.mpr ⟨hd, (hw.of_prefix hp).imp fun bars he => by rw [he]⟩
      rw [List.nil_append]
      refine lists_of_reach? hf (fun n hm => hn n (hp.subset hm)) hrf fun _ => hb.trans' ?_
      have hrel : ∀ {names : List String}, names <+: leaf.names → Path.isAbsolute (Path.joinSegments names) = false :=
        fun hp => Path.isAbsolute_joinSegments fun n hm => hname n (hp.subset hm)
      exact Tree.bytesOf_join_le (hrel hp) (hrel List.prefix_rfl) (Tree.bytesOf_joinSegments_le hp)
    · rw [pathOf_eq hne]
      exact finding_at_eq_file_iff.mpr
        ⟨_, Tree.find_join_eq_ok (find_of_findRoot hf) hne (by simp) hn hr hb⟩
  case mpr =>
    intro ⟨⟨⟨bytes, bar, ha⟩, hl⟩, hc⟩
    have hr := reach?_of_finding_at hf hne hname ha hc
    have ⟨ha, hw⟩ := Tree.reach?_eq_some_iff.mp hr
    constructor
    case opens => exact ha
    case unbarred =>
      intro front entries bars hp hfront hd
      have hs : bars.search? = none := hw front entries bars hp hfront hd
      have hlist : bars.list? = none :=
        list?_eq_none_of_lists hf (fun n hm => hname n (hp.subset hm)) hd (hl front hp hfront)
      cases bars
      cases hs
      cases hlist
      rfl
    case length =>
      rw [pathOf_eq hne] at hc
      obtain ⟨position, hfind⟩ := finding_at_eq_file_iff.mp hc
      exact (Tree.lookable_of_find hfind).2

end

def Walk.found (w : Walk) (entries : List (String × Tree.Node)) : List Leaf :=
  ((w.items entries).filterMap w.leaf?).filter (Leaf.suits w.options)

theorem mem_found_iff (ht : spot.node.Proper Tree.IsEntry) (hf : findRoot w.top w.root = .ok spot)
    (hd : spot.node = .directory entries bars)
    (hv : Walk.Visits (fun file => w.ComesTo [] spot.node file ∧ w.IsOpen file) (w.items entries)) :
    leaf ∈ w.found entries ↔ Wanted w.options spot.node leaf ∧ Accessible w.root spot.node leaf := by
  have hat : ∀ {bytes bar}, spot.node.at? leaf.names = some (.file bytes bar) →
      leaf.names ≠ [] ∧ ∀ n ∈ leaf.names, Tree.IsEntry n := by
    intro bytes bar ha
    refine ⟨fun he => ?_, Tree.forall_mem_of_at? ht ha⟩
    rw [he, hd] at ha
    cases ha
  rw [Walk.found, List.mem_filter, mem_filterMap_leaf?_iff, hv.mem_iff]
  constructor
  case mp =>
    intro ⟨⟨⟨hcomes, hopen⟩, hc⟩, hs⟩
    obtain ⟨bytes, bar, ha⟩ := hcomes.stands
    obtain ⟨hne, hn⟩ := hat ha
    have hacc : Accessible w.root spot.node leaf := (accessible_iff hf hne hn).mpr ⟨hcomes, hc⟩
    obtain ⟨hnamed, hincluded, hsize, hzero⟩ := (suits_iff hne fun n hm => (hn n hm).name).mp hs
    exact ⟨⟨⟨none, hacc.opens⟩, hopen, hnamed, hincluded, hsize, hzero⟩, hacc⟩
  case mpr =>
    intro ⟨h, hacc⟩
    obtain ⟨hne, hn⟩ := hat hacc.opens
    obtain ⟨hcomes, hc⟩ := (accessible_iff hf hne hn).mp hacc
    have hs := suits_iff (o := w.options) hne fun n hm => (hn n hm).name
    exact ⟨⟨⟨hcomes, h.unignored⟩, hc⟩, hs.mpr ⟨h.named, h.included, h.size, h.noZero⟩⟩

theorem names_found_sublist (w : Walk) (entries : List (String × Tree.Node)) :
    ((w.found entries).map Leaf.names).Sublist (filesOf (w.items entries)) :=
  (List.filter_sublist.map _).trans (names_filterMap_leaf?_sublist w _)

theorem search_eq_found (here : String) (hr : findRoot top root = .ok spot)
    (hd : spot.node = .directory entries bars) (hi : o.respectIgnoreFiles = false) (ho : o.Unbounded) :
    ∃ haul, search top here o [root] = .ok haul ∧
      haul.files = (({ top, here, root, options := o } : Walk).found entries).map Leaf.source := by
  have hl : Leads top [root] [(root, spot)] := ⟨rfl, List.forall_mem_singleton.mpr hr⟩
  have hs : search top here o [root] = .ok (Haul.ofEvents o {} (rootEvents top here o root none spot)) := by
    simpa [allEvents, ho.maxFiles] using search_eq_ok here o hl
  refine ⟨_, hs, ?_⟩
  rw [rootEvents_of_directory hi hd, files_of_unbounded ho, Walk.found]

-- Below a root whose path is as long as a path may be, nothing is found.
theorem files_search_eq_nil (here : String) (ht : top.Proper Tree.IsEntry) (hr : findRoot top root = .ok spot)
    (hd : spot.node = .directory entries bars) (hi : o.respectIgnoreFiles = false) (ho : o.Unbounded)
    (hb : Tree.maxPath ≤ Tree.bytesOf root) : (search top here o [root]).map Haul.files = .ok [] := by
  let w : Walk := { top, here, root, options := o }
  have hp : spot.node.Proper Tree.IsEntry := Tree.proper_at? ht (at?_of_findRoot hr)
  have hv : Walk.Visits (fun file => w.ComesTo [] spot.node file ∧ w.IsOpen file) (w.items entries) :=
    hd ▸ Walk.visits_items hi (hd ▸ hp)
  obtain ⟨haul, hs, hfiles⟩ := search_eq_found here hr hd hi ho
  have hnil : w.found entries = [] := by
    rw [List.eq_nil_iff_forall_not_mem]
    intro leaf hm
    obtain ⟨-, hacc⟩ := (mem_found_iff (w := w) hp hr hd hv).mp hm
    have hn : ∀ n ∈ leaf.names, Path.IsName n := fun n hm => (Tree.forall_mem_of_at? hp hacc.opens n hm).name
    have hne : leaf.names ≠ [] := by
      intro he
      have ha := hacc.opens
      rw [he, hd] at ha
      cases ha
    have hj := Tree.bytesOf_lt_bytesOf_join root (Path.isAbsolute_joinSegments hn) (Path.joinSegments_ne_empty hne hn)
    exact absurd hacc.length (Nat.not_le.mpr (hb.trans_lt hj))
  rw [hs, Except.map, hfiles, hnil]
  rfl

-- A file, a link to it, a file in a directory that is ignored, and a file with a zero byte.
def thicket : List (String × Tree.Node) :=
  [("d.ts", .file [0]), ("lib", .directory [("A.TS", .file [120]), ("b.ts", .link "A.TS")]),
    ("out", .directory [("c.ts", .file [])])]

def trimmed : Options :=
  { extensions := [".ts"], ignoredDirectories := ["out"], respectIgnoreFiles := false }

theorem proper_thicket : (Tree.Node.directory [("r", .directory thicket)]).Proper Tree.IsEntry := by
  have he : ∀ n ∈ ["r", "d.ts", "lib", "A.TS", "b.ts", "out", "c.ts"], Tree.IsEntry n := by decide
  simp only [List.forall_mem_cons] at he
  simp [thicket, Tree.proper_directory_iff, he, Tree.Node.Proper.file, Tree.Node.Proper.link]

theorem wanted_thicket : Wanted trimmed (.directory thicket) ⟨["lib", "A.TS"], [120]⟩ where
  stands    := ⟨none, rfl⟩
  unignored := by simp [trimmed]
  named     := ⟨"A.TS", rfl, "TS", ⟨['A'], by decide, by decide, by decide⟩, ".ts", by simp [trimmed], by decide⟩
  included  := by decide +kernel
  size      := by simp [trimmed, defaultMaxFileSize]
  noZero    := by simp

theorem accessible_thicket : Accessible "/r" (.directory thicket) ⟨["lib", "A.TS"], [120]⟩ where
  opens    := rfl
  unbarred := (Tree.onTheWay_cons_iff rfl).mpr ⟨rfl, (Tree.onTheWay_cons_iff rfl).mpr ⟨rfl, Tree.onTheWay_nil _ _⟩⟩
  length   := by decide +kernel

-- A file that cannot be opened, and one in a directory that cannot be listed or searched.
def barred : List Tree.Node :=
  [.directory [("x.ts", .file [] (some .permissionDenied))],
    .directory [("x.ts", .file [])] { list? := some .permissionDenied },
    .directory [("x.ts", .file [])] { search? := some .permissionDenied }]

def lone : Tree.Node :=
  .directory [("x.ts", .file [])]

theorem wanted_of_at? {bar : Option Tree.Fault} (h : node.at? ["x.ts"] = some (.file [] bar)) :
    Wanted trimmed node ⟨["x.ts"], []⟩ where
  stands    := ⟨bar, h⟩
  unignored := nofun
  named     := ⟨"x.ts", rfl, "ts", ⟨['x'], by decide, by decide, by decide⟩, ".ts", by simp [trimmed], by decide⟩
  included  := by decide +kernel
  size      := by simp [trimmed, defaultMaxFileSize]
  noZero    := nofun

theorem files_search_lone :
    (search (.directory [("r", lone)]) "/" trimmed [Tree.slashes 4093 ++ "/r"]).map Haul.files = .ok [] := by
  have hlen : Tree.bytesOf (Tree.slashes 4093 ++ "/r") = Tree.maxPath := by
    rw [Tree.bytesOf_append, Tree.bytesOf_slashes]
    decide
  have hp : Tree.find (.directory [("r", lone)]) true "/r" = .ok ⟨["r"], lone⟩ :=
    find_of_findRoot (findRoot_eq_ok (by decide +kernel) rfl)
  have hr : findRoot (.directory [("r", lone)]) (Tree.slashes 4093 ++ "/r") = .ok ⟨["r"], lone⟩ := by
    have hb : 4093 + Tree.bytesOf "/r" ≤ Tree.maxPath := by decide
    rw [findRoot, Tree.find_slashes rfl hp hb]
    rfl
  have ht : (Tree.Node.directory [("r", lone)]).Proper Tree.IsEntry := by
    have he : ∀ n ∈ ["r", "x.ts"], Tree.IsEntry n := by decide
    simp only [List.forall_mem_cons] at he
    simp [lone, Tree.proper_directory_iff, he, Tree.Node.Proper.file]
  exact files_search_eq_nil "/" ht hr rfl rfl ⟨rfl, rfl⟩ hlen.ge

end DuplicateBlocks.Discovery
