import DuplicateBlocks.Tree.Lookup
import Mathlib.Data.List.Nodup

namespace DuplicateBlocks.Tree

variable {p : String → Prop} {top node around : Node} {here names : List String} {followLast : Bool} {path : String}
  {spot : Spot} {entries : List (String × Node)} {bars : Bars}

-- A tree as a file system keeps it: the names in a directory are distinct. Each of them satisfies `p`.
inductive Node.Proper (p : String → Prop) : Node → Prop
  | file (content bar) : Proper p (.file content bar)
  | link (target) : Proper p (.link target)
  | directory (entries : List (String × Node)) (bars : Bars) :
    (entries.map Prod.fst).Nodup → (∀ e ∈ entries, p e.1) → (∀ e ∈ entries, Proper p e.2) →
    Proper p (.directory entries bars)

theorem proper_directory_iff :
    (Node.directory entries bars).Proper p ↔
      (entries.map Prod.fst).Nodup ∧ (∀ e ∈ entries, p e.1) ∧ ∀ e ∈ entries, e.2.Proper p := by
  constructor
  case mp =>
    intro h
    cases h
    case directory hn hp hs => exact ⟨hn, hp, hs⟩
  case mpr => exact fun ⟨hn, hp, hs⟩ => .directory _ _ hn hp hs

theorem proper_at? (ht : top.Proper p) (ha : top.at? names = some node) : node.Proper p := by
  induction names generalizing top
  case nil =>
    rw [Node.at?_nil] at ha
    exact Option.some.inj ha ▸ ht
  case cons name names hi =>
    cases ht
    case file => cases ha
    case link => cases ha
    case directory hs =>
      have ⟨below, hl, hb⟩ := Option.bind_eq_some_iff.mp ha
      have ⟨front, rest, he, _⟩ := List.lookup_eq_some_iff.mp hl
      exact hi (hs (name, below) (by simp [he])) hb

theorem forall_mem_of_at? (ht : top.Proper p) (ha : top.at? names = some node) : ∀ n ∈ names, p n := by
  induction names generalizing top
  case nil => nofun
  case cons name names hi =>
    cases ht
    case file => cases ha
    case link => cases ha
    case directory hp hs =>
      have ⟨below, hl, hb⟩ := Option.bind_eq_some_iff.mp ha
      have ⟨front, rest, he, _⟩ := List.lookup_eq_some_iff.mp hl
      have hm : (name, below) ∈ front ++ (name, below) :: rest := List.mem_append_right _ List.mem_cons_self
      rw [← he] at hm
      exact List.forall_mem_cons.mpr ⟨hp _ hm, hi (hs _ hm) hb⟩

theorem lookup_of_mem {e : String × Node} (hn : (entries.map Prod.fst).Nodup) (he : e ∈ entries) :
    entries.lookup e.1 = some e.2 := by
  induction entries
  case nil => cases he
  case cons f entries hi =>
    have ⟨hf, hn⟩ := List.nodup_cons.mp hn
    cases he
    case head    => rw [List.lookup_cons_self]
    case tail ht =>
      have hne : e.1 ≠ f.1 := fun h => hf (h ▸ List.mem_map_of_mem ht)
      rw [List.lookup_cons, beq_false_of_ne hne]
      exact hi hn ht

theorem exists_mem_of_at?_cons {name : String} (h : (Node.directory entries bars).at? (name :: names) = some node) :
    ∃ below, (name, below) ∈ entries ∧ below.at? names = some node := by
  have ⟨below, hl, hb⟩ := Option.bind_eq_some_iff.mp h
  have ⟨front, rest, he, _⟩ := List.lookup_eq_some_iff.mp hl
  exact ⟨below, by simp [he], hb⟩

theorem at?_of_find (hf : find top followLast path = .ok spot) : top.at? spot.names = some spot.node := by
  simp only [find, bind, Except.bind, throw, throwThe, MonadExceptOf.throw, pure, Except.pure] at hf
  repeat' split at hf
  all_goals cases hf
  assumption

-- A segment that is looked up as it is written.
def IsOrdinary (seg : String) : Prop :=
  Path.isNoise seg = false ∧ seg ≠ ".." ∧ bytesOf seg ≤ maxName

instance (seg : String) : Decidable (IsOrdinary seg) :=
  inferInstanceAs (Decidable (_ ∧ _ ∧ _))

-- A path that is made of the names of a position and can be looked up.
def Spells (path : String) (names : List String) : Prop :=
  Path.segments path = "" :: names ∧ names ≠ [] ∧ (∀ seg ∈ names, IsOrdinary seg) ∧
    Char.ofNat 0 ∉ path.toList ∧ bytesOf path ≤ maxPath

instance (path : String) (names : List String) : Decidable (Spells path names) :=
  inferInstanceAs (Decidable (_ ∧ _ ∧ _ ∧ _ ∧ _))

-- What can be reached at a position: each directory on the way lets names be looked up in it.
def Node.reach? : Node → List String → Option Node
  | node, [] => some node
  | directory entries bars, name :: names =>
    if bars.search?.isSome then none else (entries.lookup name).bind (·.reach? names)
  | file _ _, _ :: _ => none
  | link _, _ :: _ => none

theorem exists_directory_of_reach?_cons {name : String} (h : around.reach? (name :: names) = some node) :
    ∃ entries bars next, around = .directory entries bars ∧ bars.search? = none ∧ entries.lookup name = some next ∧
      next.reach? names = some node := by
  cases around
  case file => cases h
  case link => cases h
  case directory entries bars =>
    rw [Node.reach?] at h
    split at h
    case isTrue  => cases h
    case isFalse hs =>
      obtain ⟨next, hl, hn⟩ := Option.bind_eq_some_iff.mp h
      exact ⟨entries, bars, next, rfl, by simpa using hs, hl, hn⟩

theorem at?_of_reach? (h : around.reach? names = some node) : around.at? names = some node := by
  induction names generalizing around
  case nil =>
    cases around <;> exact h
  case cons name names hi =>
    obtain ⟨entries, bars, next, rfl, -, hl, hn⟩ := exists_directory_of_reach?_cons h
    rw [Node.at?, hl]
    exact hi hn

-- The directories on the way to a position, from where the way starts, have bars of some kind.
def Node.OnTheWay (p : Bars → Prop) (node : Node) (names : List String) : Prop :=
  ∀ front entries bars, front <+: names → front ≠ names → node.at? front = some (.directory entries bars) → p bars

theorem Node.OnTheWay.imp {q r : Bars → Prop} (h : node.OnTheWay q names) (hi : ∀ bars, q bars → r bars) :
    node.OnTheWay r names :=
  fun front entries bars hp hne ha => hi bars (h front entries bars hp hne ha)

theorem Node.OnTheWay.of_prefix {q : Bars → Prop} {front : List String} (h : node.OnTheWay q names)
    (hf : front <+: names) : node.OnTheWay q front := by
  intro before entries bars hp hne ha
  refine h before entries bars (hp.trans hf) ?_ ha
  intro he
  subst he
  exact hne (hp.eq_of_length (Nat.le_antisymm hp.length_le hf.length_le))

theorem exists_directory_of_prefix {front : List String} (ha : around.at? names = some node) (hp : front <+: names)
    (hne : front ≠ names) : ∃ entries bars, around.at? front = some (.directory entries bars) := by
  obtain ⟨rest, rfl⟩ := hp
  rw [Node.at?_append] at ha
  obtain ⟨next, hn, hr⟩ := Option.bind_eq_some_iff.mp ha
  cases rest
  case nil => simp at hne
  case cons name rest =>
    cases next
    case file      => cases hr
    case link      => cases hr
    case directory => exact ⟨_, _, hn⟩

theorem onTheWay_nil (q : Bars → Prop) (node : Node) : node.OnTheWay q [] :=
  fun _ _ _ hp hne => absurd (List.prefix_nil.mp hp) hne

theorem onTheWay_cons_iff {q : Bars → Prop} {name : String} {next : Node} (hl : entries.lookup name = some next) :
    (Node.directory entries bars).OnTheWay q (name :: names) ↔ q bars ∧ next.OnTheWay q names := by
  constructor
  case mp =>
    intro h
    refine ⟨h [] entries bars List.nil_prefix (List.cons_ne_nil _ _).symm rfl, ?_⟩
    intro front es bs hp hne ha
    refine h (name :: front) es bs ((List.prefix_cons_inj name).mpr hp) (by simpa using hne) ?_
    rw [Node.at?, hl]
    exact ha
  case mpr =>
    rintro ⟨hb, h⟩ front es bs hp hne ha
    cases front
    case nil =>
      cases ha
      exact hb
    case cons n front =>
      obtain ⟨rfl, hpre⟩ := List.cons_prefix_cons.mp hp
      rw [Node.at?, hl] at ha
      exact h front es bs hpre (by simpa using hne) ha

theorem reach?_eq_some_iff :
    around.reach? names = some node ↔ around.at? names = some node ∧ around.OnTheWay (·.search? = none) names := by
  induction names generalizing around
  case nil =>
    have hw : around.OnTheWay (·.search? = none) [] := onTheWay_nil _ around
    cases around <;> simp [Node.reach?, Node.at?, hw]
  case cons name names hi =>
    constructor
    case mp =>
      intro h
      obtain ⟨entries, bars, next, rfl, hb, hl, hn⟩ := exists_directory_of_reach?_cons h
      obtain ⟨ha, hw⟩ := hi.mp hn
      exact ⟨at?_of_reach? h, (onTheWay_cons_iff hl).mpr ⟨hb, hw⟩⟩
    case mpr =>
      rintro ⟨ha, hw⟩
      cases around
      case file => cases ha
      case link => cases ha
      case directory entries bars =>
        obtain ⟨next, hl, hn⟩ := Option.bind_eq_some_iff.mp ha
        obtain ⟨hb, hw⟩ := (onTheWay_cons_iff hl).mp hw
        rw [Node.reach?, hb, hl]
        exact hi.mpr ⟨hn, hw⟩

theorem at?_concat_of_lookup {seg : String} (hd : top.at? here = some (.directory entries bars))
    (he : entries.lookup seg = some node) : top.at? (here ++ [seg]) = some node := by
  simp [Node.at?_append, hd, Node.at?, he]

theorem Bars.against?_eq_none {seg : String} (h : bars.search? = none) : bars.against? seg = none := by
  rw [against?, h, ite_self]

-- No link stands on the way to a position, as a link has nothing below it.
theorem advance_eq_arrived (hn : ∀ seg ∈ names, IsOrdinary seg) (hh : top.at? here = some around)
    (ha : around.reach? names = some node) (hl : ∀ target, node ≠ .link target) :
    advance top followLast here names = .ok (.arrived (here ++ names)) := by
  induction names generalizing here around
  case nil => rw [advance, List.append_nil]
  case cons seg names hi =>
    obtain ⟨⟨hnoise, hup, hlong⟩, hns⟩ := List.forall_mem_cons.mp hn
    obtain ⟨entries, bars, next, rfl, hb, he, hr⟩ := exists_directory_of_reach?_cons ha
    have hf : advance top followLast (here ++ [seg]) names = .ok (.arrived (here ++ [seg] ++ names)) :=
      hi hns (at?_concat_of_lookup hh he) hr
    rw [List.append_assoc, List.singleton_append] at hf
    have hno : ∀ target, next ≠ .link target := by
      intro target ht
      subst ht
      cases names
      case nil  => exact hl target (Option.some.inj hr).symm
      case cons => cases hr
    rw [advance, hh]
    simp only [Bars.against?_eq_none hb, hnoise, Bool.false_eq_true, if_false, beq_iff_eq, hup,
      Nat.not_lt.mpr hlong, he]
    cases next
    case link target => exact absurd rfl (hno target)
    case file        => exact hf
    case directory   => exact hf

theorem follow_of_advance {links : Nat} {segs : List String}
    (h : advance top followLast here segs = .ok (.arrived names)) :
    follow top followLast links here segs = .ok names := by
  rw [follow.eq_def, h]

theorem find_eq_ok (hp : Spells path names) (ha : top.reach? names = some node) (hl : ∀ target, node ≠ .link target) :
    find top followLast path = .ok ⟨names, node⟩ := by
  have ⟨hs, hne, hn, hz, hb⟩ := hp
  have hpath : path ≠ "" := by
    intro he
    subst he
    exact hne (List.cons.inj hs).2.symm
  have hf : follow top followLast maxLinks [] ("" :: names) = .ok names := by
    refine follow_of_advance ?_
    have ht : advance top followLast [] names = .ok (.arrived names) :=
      advance_eq_arrived hn (Node.at?_nil top) ha hl
    cases names
    case nil => exact absurd rfl hne
    case cons =>
      obtain ⟨entries, bars, next, rfl, -⟩ := exists_directory_of_reach?_cons ha
      rw [advance]
      simpa [Path.isNoise, Bars.against?] using ht
  simp [find, hs, hpath, hz, Nat.not_lt.mpr hb, hf, at?_of_reach? ha, bind, Except.bind, pure, Except.pure]

end DuplicateBlocks.Tree
