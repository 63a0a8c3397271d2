import DuplicateBlocks.Discovery.Walk
import DuplicateBlocks.Proofs.Ignore
import DuplicateBlocks.Proofs.Tree
import Mathlib.Data.String.Basic

namespace DuplicateBlocks.Discovery

def Item.names? : Item → Option (List String)
  | .file names => some names
  | .fault _ => none

def filesOf (items : List Item) : List (List String) :=
  items.filterMap Item.names?

namespace Walk

variable {p : String → Prop} {w : Walk} {levels : List Level} {base names file : List String} {name : String}
  {node : Tree.Node} {entries : List (String × Tree.Node)} {bars : Tree.Bars} {items : List Item}
  {files : List (List String)} {found : List (String × List Item)}

theorem entriesItems_eq (w : Walk) (levels : List Level) (names : List String)
    (entries : List (String × Tree.Node)) :
    w.entriesItems levels names entries =
      entries.map fun e => (e.1, w.nodeItems levels (names ++ [e.1]) e.1 e.2) := by
  induction entries
  case nil => rw [entriesItems, List.map_nil]
  case cons e entries hi => rw [entriesItems, entryItems, hi, List.map_cons]

theorem inOrder_of_pairwise (h : found.Pairwise fun a b => nameLe a.1 b.1) :
    inOrder found = found.flatMap Prod.snd := by
  rw [inOrder, List.mergeSort_of_pairwise h]

theorem filesOf_inOrder (found : List (String × List Item)) :
    filesOf (inOrder found) = (found.mergeSort fun a b => nameLe a.1 b.1).flatMap fun e => filesOf e.2 := by
  simp [filesOf, inOrder, List.filterMap_flatMap]

theorem mem_filesOf_inOrder : file ∈ filesOf (inOrder found) ↔ ∃ e ∈ found, file ∈ filesOf e.2 := by
  simp [filesOf_inOrder]

theorem mem_filesOf_entriesItems :
    file ∈ filesOf (inOrder (w.entriesItems levels names entries)) ↔
      ∃ e ∈ entries, file ∈ filesOf (w.nodeItems levels (names ++ [e.1]) e.1 e.2) := by
  simp [mem_filesOf_inOrder, entriesItems_eq]

def Lists (w : Walk) (names : List String) : Prop :=
  Tree.listingFault? w.top (w.pathOf names) = none

theorem filesOf_listed (h : w.Lists names) (items : List Item) : filesOf (w.listed names items) = filesOf items := by
  rw [listed, h]

theorem filesOf_listed_of_not_lists (h : ¬w.Lists names) (items : List Item) :
    filesOf (w.listed names items) = [] := by
  unfold listed
  cases hl : Tree.listingFault? w.top (w.pathOf names)
  case none => exact absurd hl h
  case some => rfl

-- Files under different names, all of them under `base`.
structure Spread (p : String → Prop) (base : List String) (files : List (List String)) : Prop where
  nodup : files.Nodup
  below : ∀ file ∈ files, ∃ rest, file = base ++ rest ∧ ∀ n ∈ rest, p n

theorem Spread.nil : Spread p base [] :=
  ⟨List.nodup_nil, by simp⟩

theorem Spread.listed (h : Spread p base (filesOf items)) : Spread p base (filesOf (w.listed names items)) := by
  by_cases hl : w.Lists names
  case pos => rwa [filesOf_listed hl]
  case neg => rw [filesOf_listed_of_not_lists hl]; exact .nil

theorem Spread.inOrder (hn : (found.map Prod.fst).Nodup) (hp : ∀ e ∈ found, p e.1)
    (h : ∀ e ∈ found, Spread p (base ++ [e.1]) (filesOf e.2)) : Spread p base (filesOf (inOrder found)) := by
  constructor
  case nodup =>
    have hs := List.mergeSort_perm found fun a b => nameLe a.1 b.1
    have hd := List.pairwise_map.mp ((hs.map Prod.fst).nodup_iff.mpr hn)
    rw [filesOf_inOrder, List.nodup_flatMap]
    refine ⟨fun e he => (h e (hs.mem_iff.mp he)).nodup, hd.imp_of_mem ?_⟩
    intro a b ha hb hab file hfa hfb
    obtain ⟨r, rfl, _⟩ := (h a (hs.mem_iff.mp ha)).below file hfa
    obtain ⟨t, ht, _⟩ := (h b (hs.mem_iff.mp hb)).below _ hfb
    have he : a.1 :: r = b.1 :: t := by simpa using ht
    exact hab (List.cons.inj he).1
  case below =>
    intro file hf
    obtain ⟨e, he, hm⟩ := mem_filesOf_inOrder.mp hf
    obtain ⟨rest, rfl, hrp⟩ := (h e he).below file hm
    exact ⟨e.1 :: rest, by simp, List.forall_mem_cons.mpr ⟨hp e he, hrp⟩⟩

theorem spread_entriesItems (hn : (entries.map Prod.fst).Nodup) (hp : ∀ e ∈ entries, p e.1)
    (h : ∀ e ∈ entries, Spread p (names ++ [e.1]) (filesOf (w.nodeItems levels (names ++ [e.1]) e.1 e.2))) :
    Spread p names (filesOf (inOrder (w.entriesItems levels names entries))) := by
  rw [entriesItems_eq]
  refine .inOrder ?_ (List.forall_mem_map.mpr hp) (List.forall_mem_map.mpr h)
  rwa [List.map_map]

theorem spread_nodeItems (hn : node.Proper p) : Spread p names (filesOf (w.nodeItems levels names name node)) := by
  induction hn generalizing levels names name
  case link => rw [nodeItems]; exact .nil
  case file =>
    rw [nodeItems]
    split
    case isTrue  => exact .nil
    case isFalse => exact ⟨List.nodup_singleton _, by simp [filesOf, Item.names?]⟩
  case directory entries bars hd hp _ hi =>
    rw [nodeItems]
    split
    case isTrue  => exact .nil
    case isFalse => exact .listed (spread_entriesItems hd hp fun e he => hi e he)

theorem spread_items (h : (Tree.Node.directory entries bars).Proper p) : Spread p [] (filesOf (w.items entries)) := by
  have ⟨hd, hp, hs⟩ := Tree.proper_directory_iff.mp h
  exact .listed (spread_entriesItems hd hp fun e he => spread_nodeItems (hs e he))

-- Names whose directories, which are all but the last of them, are not ignored.
def IsOpen (w : Walk) (names : List String) : Prop :=
  ∀ n ∈ names.dropLast, n ∉ w.options.ignoredDirectories

-- A file below a directory under the names `base`, and below directories that can be listed.
structure ComesTo (w : Walk) (base : List String) (node : Tree.Node) (rest : List String) : Prop where
  stands : ∃ content bar, node.at? rest = some (.file content bar)
  listed : ∀ front, front <+: rest → front ≠ rest → w.Lists (base ++ front)

theorem comesTo_cons {name : String} {below : Tree.Node} {rest : List String} (hb : w.Lists base)
    (hl : entries.lookup name = some below) (h : w.ComesTo (base ++ [name]) below rest) :
    w.ComesTo base (.directory entries bars) (name :: rest) := by
  constructor
  case stands =>
    rw [Tree.Node.at?, hl]
    exact h.stands
  case listed =>
    intro front hp hne
    cases front
    case nil => rwa [List.append_nil]
    case cons n front =>
      obtain ⟨rfl, hpre⟩ := List.cons_prefix_cons.mp hp
      simpa using h.listed front hpre (by simpa using hne)

theorem ComesTo.cons_inv {name : String} {rest : List String}
    (h : w.ComesTo base (.directory entries bars) (name :: rest)) :
    ∃ below, (name, below) ∈ entries ∧ w.Lists base ∧ w.ComesTo (base ++ [name]) below rest := by
  obtain ⟨content, bar, ha⟩ := h.stands
  obtain ⟨below, he, hb⟩ := Tree.exists_mem_of_at?_cons ha
  have hbase := h.listed [] List.nil_prefix (List.cons_ne_nil _ _).symm
  rw [List.append_nil] at hbase
  refine ⟨below, he, hbase, ⟨content, bar, hb⟩, ?_⟩
  intro front hp hne
  have hf := h.listed (name :: front) ((List.prefix_cons_inj name).mpr hp) (by simpa using hne)
  simpa using hf

theorem comesTo_of_mem_nodeItems (hn : node.Proper p) (h : file ∈ filesOf (w.nodeItems levels names name node)) :
    ∃ rest, file = names ++ rest ∧ w.ComesTo names node rest ∧ w.IsOpen (name :: rest) := by
  induction hn generalizing levels names name
  case link => rw [nodeItems] at h; cases h
  case file content bar =>
    rw [nodeItems] at h
    split at h
    case isTrue  => cases h
    case isFalse =>
      cases List.mem_singleton.mp h
      refine ⟨[], (List.append_nil _).symm, ⟨⟨content, bar, rfl⟩, ?_⟩, by simp [IsOpen]⟩
      exact fun front hp hne => absurd (List.prefix_nil.mp hp) hne
  case directory entries bars hd _ _ hi =>
    rw [nodeItems] at h
    split at h
    case isTrue     => cases h
    case isFalse ho =>
      by_cases hl : w.Lists names
      case neg => rw [filesOf_listed_of_not_lists hl] at h; cases h
      case pos =>
        have hname : name ∉ w.options.ignoredDirectories := by simp_all
        rw [filesOf_listed hl] at h
        obtain ⟨e, he, hm⟩ := mem_filesOf_entriesItems.mp h
        obtain ⟨rest, rfl, hc, ho⟩ := hi e he hm
        exact ⟨e.1 :: rest, by simp, comesTo_cons hl (Tree.lookup_of_mem hd he) hc,
          List.forall_mem_cons.mpr ⟨hname, ho⟩⟩

theorem comesTo_of_mem_items (hn : (Tree.Node.directory entries bars).Proper p) (h : file ∈ filesOf (w.items entries)) :
    w.ComesTo [] (.directory entries bars) file ∧ w.IsOpen file := by
  have ⟨hd, _, hs⟩ := Tree.proper_directory_iff.mp hn
  rw [items] at h
  by_cases hl : w.Lists []
  case neg => rw [filesOf_listed_of_not_lists hl] at h; cases h
  case pos =>
    rw [filesOf_listed hl] at h
    obtain ⟨e, he, hm⟩ := mem_filesOf_entriesItems.mp h
    obtain ⟨rest, rfl, hc, ho⟩ := comesTo_of_mem_nodeItems (hs e he) hm
    exact ⟨comesTo_cons hl (Tree.lookup_of_mem hd he) hc, ho⟩

theorem ne_nil_of_mem_items (hn : (Tree.Node.directory entries bars).Proper p) (h : file ∈ filesOf (w.items entries)) :
    file ≠ [] := by
  intro he
  subst he
  obtain ⟨_, _, ha⟩ := (comesTo_of_mem_items hn h).1.stands
  cases ha

def Ruleless (levels : List Level) : Prop :=
  ∀ l ∈ levels, l.rules = [] ∧ l.weakRules = []

theorem ruleless_level (hw : w.options.respectIgnoreFiles = false) (hl : Ruleless levels) (names : List String) :
    Ruleless (w.level names :: levels) :=
  List.forall_mem_cons.mpr ⟨by simp [level, hw], hl⟩

theorem globalRules_eq_nil (hw : w.options.respectIgnoreFiles = false) : w.globalRules = [] := by
  unfold globalRules
  split <;> simp [hw]

theorem isIgnored_of_ruleless (hw : w.options.respectIgnoreFiles = false) (hl : Ruleless levels) (isDirectory : Bool)
    (names : List String) : w.isIgnored levels isDirectory names = false := by
  have hv : ∀ path, Ignore.verdict? [] isDirectory path = none := Ignore.lastDecides_verdict?.nil isDirectory
  have hr : levels.findSome?
      (fun l => Ignore.verdict? l.rules isDirectory (Path.joinSegments (names.drop l.depth))) = none :=
    List.findSome?_eq_none_iff.mpr fun l hm => by rw [(hl l hm).1, hv]
  have hweak : levels.findSome?
      (fun l => Ignore.verdict? l.weakRules isDirectory (Path.joinSegments (names.drop l.depth))) = none :=
    List.findSome?_eq_none_iff.mpr fun l hm => by rw [(hl l hm).2, hv]
  simp [isIgnored, hr, hweak, globalRules_eq_nil hw, hv]

theorem mem_nodeItems {rest : List String} (hw : w.options.respectIgnoreFiles = false) (hl : Ruleless levels)
    (hc : w.ComesTo names node rest) (ho : w.IsOpen (name :: rest)) :
    names ++ rest ∈ filesOf (w.nodeItems levels names name node) := by
  induction rest generalizing node levels names name
  case nil =>
    obtain ⟨content, bar, ha⟩ := hc.stands
    cases Option.some.inj ((Tree.Node.at?_nil node).symm.trans ha)
    simp [nodeItems, isIgnored_of_ruleless hw hl, filesOf, Item.names?]
  case cons n rest hi =>
    cases node
    case file => obtain ⟨_, _, ha⟩ := hc.stands; cases ha
    case link => obtain ⟨_, _, ha⟩ := hc.stands; cases ha
    case directory entries bars =>
      obtain ⟨below, he, hlists, hc⟩ := hc.cons_inv
      obtain ⟨hname, ho⟩ := List.forall_mem_cons.mp ho
      have hm : names ++ [n] ++ rest ∈
          filesOf (w.nodeItems (w.level names :: levels) (names ++ [n]) n below) :=
        hi (ruleless_level hw hl names) hc ho
      have hopen : ¬(w.isIgnored levels true names || w.options.ignoredDirectories.contains name) = true := by
        simp [isIgnored_of_ruleless hw hl, hname]
      rw [nodeItems, if_neg hopen, filesOf_listed hlists, mem_filesOf_entriesItems]
      exact ⟨(n, below), he, by simpa using hm⟩

-- Without rules, a walk comes to every file that lies in no ignored directory.
theorem mem_items (hw : w.options.respectIgnoreFiles = false) (hc : w.ComesTo [] (.directory entries bars) file)
    (ho : w.IsOpen file) : file ∈ filesOf (w.items entries) := by
  cases file
  case nil => obtain ⟨_, _, ha⟩ := hc.stands; cases ha
  case cons n rest =>
    obtain ⟨below, he, hlists, hc⟩ := hc.cons_inv
    have hl : Ruleless [w.level []] := ruleless_level hw (by simp [Ruleless]) []
    rw [items, filesOf_listed hlists, mem_filesOf_entriesItems]
    exact ⟨(n, below), he, mem_nodeItems hw hl hc ho⟩

-- Where two positions part, the first of them goes on with the lesser name.
def Precedes (a b : List String) : Prop :=
  ∃ common x y, x < y ∧ common ++ [x] <+: a ∧ common ++ [y] <+: b

-- Files in the order in which a search returns them: depth first, and by name within a directory.
def Ordered (files : List (List String)) : Prop :=
  files.Pairwise Precedes

theorem Ordered.listed (h : Ordered (filesOf items)) : Ordered (filesOf (w.listed names items)) := by
  by_cases hl : w.Lists names
  case pos => rwa [filesOf_listed hl]
  case neg => rw [filesOf_listed_of_not_lists hl]; exact .nil

theorem pairwise_lt_mergeSort (hn : (found.map Prod.fst).Nodup) :
    (found.mergeSort fun a b => nameLe a.1 b.1).Pairwise fun a b => a.1 < b.1 := by
  have hs := List.mergeSort_perm found fun a b => nameLe a.1 b.1
  have hd := List.pairwise_map.mp ((hs.map Prod.fst).nodup_iff.mpr hn)
  have hle : (found.mergeSort fun a b => nameLe a.1 b.1).Pairwise fun a b => nameLe a.1 b.1 = true := by
    refine List.pairwise_mergeSort ?_ ?_ found
    · simp only [nameLe, Bool.not_eq_true', decide_eq_false_iff_not, not_lt]
      exact fun a b c => le_trans
    · simp only [nameLe, Bool.or_eq_true, Bool.not_eq_true', decide_eq_false_iff_not, not_lt]
      exact fun a b => le_total a.1 b.1
  refine (hle.and hd).imp ?_
  intro a b ⟨hab, hne⟩
  simp only [nameLe, Bool.not_eq_true', decide_eq_false_iff_not, not_lt] at hab
  exact lt_of_le_of_ne hab hne

theorem Ordered.inOrder (base : List String) (hn : (found.map Prod.fst).Nodup) (h : ∀ e ∈ found, Ordered (filesOf e.2))
    (hb : ∀ e ∈ found, ∀ file ∈ filesOf e.2, base ++ [e.1] <+: file) : Ordered (filesOf (inOrder found)) := by
  have hs := List.mergeSort_perm found fun a b => nameLe a.1 b.1
  rw [filesOf_inOrder]
  refine List.pairwise_flatMap.mpr ⟨fun e he => h e (hs.mem_iff.mp he), ?_⟩
  refine (pairwise_lt_mergeSort hn).imp_of_mem ?_
  intro a b ha hb' hab x hx y hy
  exact ⟨base, a.1, b.1, hab, hb a (hs.mem_iff.mp ha) x hx, hb b (hs.mem_iff.mp hb') y hy⟩

theorem ordered_entriesItems (hn : (Tree.Node.directory entries bars).Proper p)
    (h : ∀ e ∈ entries, Ordered (filesOf (w.nodeItems levels (names ++ [e.1]) e.1 e.2))) :
    Ordered (filesOf (inOrder (w.entriesItems levels names entries))) := by
  have ⟨hd, _, hs⟩ := Tree.proper_directory_iff.mp hn
  rw [entriesItems_eq]
  refine .inOrder names ?_ (List.forall_mem_map.mpr h) (List.forall_mem_map.mpr ?_)
  · rwa [List.map_map]
  · intro e he file hf
    obtain ⟨rest, rfl, _⟩ := (spread_nodeItems (hs e he)).below file hf
    exact List.prefix_append _ rest

theorem ordered_nodeItems (hn : node.Proper p) : Ordered (filesOf (w.nodeItems levels names name node)) := by
  induction hn generalizing levels names name
  case link => rw [nodeItems]; exact .nil
  case file =>
    rw [nodeItems]
    split
    case isTrue  => exact .nil
    case isFalse => exact List.pairwise_singleton ..
  case directory entries bars hd hp hs hi =>
    rw [nodeItems]
    split
    case isTrue  => exact .nil
    case isFalse => exact .listed (ordered_entriesItems (.directory entries bars hd hp hs) fun e he => hi e he)

theorem ordered_items (h : (Tree.Node.directory entries bars).Proper p) : Ordered (filesOf (w.items entries)) := by
  have ⟨_, _, hs⟩ := Tree.proper_directory_iff.mp h
  exact .listed (ordered_entriesItems h fun e he => ordered_nodeItems (hs e he))

-- What is relied on of a walk: it meets each of some files once, in their order, and no other one.
structure Visits (isMet : List String → Prop) (items : List Item) : Prop where
  once    : (filesOf items).Nodup
  ordered : Ordered (filesOf items)
  mem_iff : ∀ file, file ∈ filesOf items ↔ isMet file

theorem visits_items (hw : w.options.respectIgnoreFiles = false) (hn : (Tree.Node.directory entries bars).Proper p) :
    Visits (fun file => w.ComesTo [] (.directory entries bars) file ∧ w.IsOpen file) (w.items entries) where
  once    := (spread_items hn).nodup
  ordered := ordered_items hn
  mem_iff := fun _ => ⟨comesTo_of_mem_items hn, fun ⟨hc, ho⟩ => mem_items hw hc ho⟩

end Walk
end DuplicateBlocks.Discovery
