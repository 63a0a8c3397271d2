import DuplicateBlocks.Proofs.Path.Relative
import DuplicateBlocks.Proofs.Tree.Reach
import Mathlib.Algebra.GroupWithZero.Nat

namespace DuplicateBlocks.Tree

variable {top node around : Node} {followLast : Bool} {links : Nat} {here segs names : List String}
  {front back : List String} {root path : String} {base spot : Spot}

-- A name that an entry of a directory can have.
structure IsEntry (n : String) : Prop where
  name   : Path.IsName n
  length : bytesOf n ≤ maxName
  noZero : Char.ofNat 0 ∉ n.toList

instance : DecidablePred IsEntry := fun n =>
  decidable_of_iff (Path.IsName n ∧ bytesOf n ≤ maxName ∧ Char.ofNat 0 ∉ n.toList)
    ⟨fun ⟨hn, hl, hz⟩ => ⟨hn, hl, hz⟩, fun ⟨hn, hl, hz⟩ => ⟨hn, hl, hz⟩⟩

theorem isNoise_of_isName {n : String} (h : Path.IsName n) : Path.isNoise n = false := by
  have ⟨_, he, hd, _⟩ := h
  simp [Path.isNoise, he, hd]

theorem IsEntry.isOrdinary {n : String} (h : IsEntry n) : IsOrdinary n :=
  ⟨isNoise_of_isName h.name, h.name.2.2.2, h.length⟩

theorem ne_empty_of_find (h : find top followLast path = .ok spot) : path ≠ "" := by
  intro he
  subst he
  simp [find, bind, Except.bind, throw, throwThe, MonadExceptOf.throw] at h

theorem lookable_of_find (h : find top followLast path = .ok spot) :
    Char.ofNat 0 ∉ path.toList ∧ bytesOf path ≤ maxPath := by
  by_contra hn
  simp only [find, bind, Except.bind, throw, throwThe, MonadExceptOf.throw, pure, Except.pure] at h
  split at h
  case isTrue => cases h
  case isFalse hz =>
    split at h
    case isTrue => cases h
    case isFalse =>
      split at h
      case isTrue     => cases h
      case isFalse hb => exact hn ⟨by simpa using hz, Nat.not_lt.mp hb⟩

theorem segments_ne_nil (path : String) : Path.segments path ≠ [] := by
  simp [Path.segments, Text.pieces]

theorem exists_reaches_root (hr : find top true root = .ok base) (hp : Path.isAbsolute path = false) :
    ∃ front, Path.segments (Path.join root path) = front ++ Path.segments path ∧
      Reaches top true maxLinks [] front base.names := by
  obtain ⟨front, hroot, hj⟩ := Path.exists_front_of_join hp (ne_empty_of_find hr)
  have hb := reaches_of_find hr
  refine ⟨Path.segments front, by rw [hj, Path.segments_append_slash], ?_⟩
  rcases hroot with rfl | rfl
  case inl => exact hb
  case inr =>
    -- The slash at the end of the root leads no further.
    rw [← String.append_empty (s := front ++ "/"), Path.segments_append_slash] at hb
    obtain ⟨_, mid, hfront, hend⟩ := hb.of_append (segments_ne_nil "")
    exact hend.eq_of_isNoise rfl ▸ hfront

theorem reaches_of_find_join (hr : find top true root = .ok base) (hp : Path.isAbsolute path = false)
    (h : find top followLast (Path.join root path) = .ok spot) :
    ∃ links, Reaches top followLast links base.names (Path.segments path) spot.names := by
  obtain ⟨front, hj, hfront⟩ := exists_reaches_root hr hp
  have hs := reaches_of_find h
  rw [hj] at hs
  obtain ⟨links, mid, hmid, hpath⟩ := hs.of_append (segments_ne_nil path)
  exact ⟨links, hfront.unique hmid ▸ hpath⟩

theorem Reaches.append (hb : back ≠ []) (hf : Reaches top true links here front segs)
    (h : ∀ left, Reaches top followLast left segs back names) :
    Reaches top followLast links here (front ++ back) names := by
  induction hf
  case here                  => exact h _
  case noise hd hn _ hi      => exact .noise hd hn (hi h)
  case up hd _ hi            => exact .up hd (hi h)
  case name hd ho he hk _ hi => exact .name hd ho he hk (hi h)
  case last hs               => cases hs
  case link rest _ _ hd ho he _ _ hi =>
    have hr := hi h
    rw [List.append_assoc] at hr
    exact .link hd ho he (.inl (List.append_ne_nil_of_right_ne_nil rest hb)) hr

theorem Admits.eq_directory {seg : String} {entries : List (String × Node)} (h : Admits top here seg entries)
    (hn : Path.isNoise seg = false) (hh : top.at? here = some around) :
    ∃ bars, around = .directory entries bars ∧ bars.search? = none := by
  obtain ⟨bars, hd, hb⟩ := h
  have hne : seg ≠ "" := by
    intro he
    subst he
    cases hn
  refine ⟨bars, Option.some.inj (hh.symm.trans hd), ?_⟩
  simpa [Bars.against?, hne] using hb

-- Names under which something other than a link stands lead to their position, and each directory on the way lets
-- itself be searched.
theorem Reaches.eq_and_reach? (h : Reaches top followLast links here segs names) (hn : ∀ seg ∈ segs, Path.IsName seg)
    (hh : top.at? here = some around) (ha : around.at? segs = some node) (hl : ∀ target, node ≠ .link target) :
    names = here ++ segs ∧ around.reach? segs = some node := by
  induction h generalizing around
  case here =>
    rw [Node.at?_nil] at ha
    cases around <;> exact ⟨(List.append_nil _).symm, ha⟩
  case noise hno _ _ =>
    have hs := isNoise_of_isName (List.forall_mem_cons.mp hn).1
    cases hs.symm.trans hno
  case up => exact absurd rfl (List.forall_mem_cons.mp hn).1.2.2.2
  case name seg here rest names entries next hd ho he hk _ hi =>
    obtain ⟨bars, rfl, hb⟩ := hd.eq_directory ho.1 hh
    rw [Node.at?, he, Option.bind_some] at ha
    obtain ⟨hp, hr⟩ := hi (List.forall_mem_cons.mp hn).2 (at?_concat_of_lookup hh he) ha
    rw [Node.reach?, hb, he]
    exact ⟨by rw [hp, List.append_assoc, List.singleton_append], hr⟩
  case link seg target here rest names entries hd ho he _ _ _ =>
    obtain ⟨bars, rfl, hb⟩ := hd.eq_directory ho.1 hh
    rw [Node.at?, he, Option.bind_some] at ha
    cases rest
    case nil  => exact absurd (Option.some.inj ha).symm (hl target)
    case cons => cases ha
  case last seg target here entries hd ho he _ =>
    obtain ⟨bars, rfl, hb⟩ := hd.eq_directory ho.1 hh
    rw [Node.at?, he, Option.bind_some] at ha
    exact absurd (Option.some.inj ha).symm (hl target)

theorem not_mem_joinSegments {c : Char} (hc : c ≠ '/') (h : ∀ n ∈ names, c ∉ n.toList) :
    c ∉ (Path.joinSegments names).toList := by
  rw [Path.toList_joinSegments]
  cases names
  case nil => exact List.not_mem_nil
  case cons n names =>
    obtain ⟨hn, hns⟩ := List.forall_mem_cons.mp h
    rw [List.map_cons, Text.intercalate_cons]
    simpa [hn, hc] using hns

theorem byteCount_eq_sum (cs : List Char) : Text.Utf8.byteCount cs = (cs.map Char.utf8Size).sum := by
  rw [List.sum_eq_foldl, List.foldl_map]
  rfl

theorem bytesOf_append (a b : String) : bytesOf (a ++ b) = bytesOf a + bytesOf b := by
  simp [bytesOf, byteCount_eq_sum]

theorem bytesOf_joinSegments_le (h : front <+: names) :
    bytesOf (Path.joinSegments front) ≤ bytesOf (Path.joinSegments names) := by
  obtain ⟨rest, rfl⟩ := h
  rw [bytesOf, bytesOf, Path.toList_joinSegments, Path.toList_joinSegments]
  cases front
  case nil => exact Nat.zero_le _
  case cons n front =>
    simp only [List.cons_append, List.map_cons, List.map_append, Text.intercalate_cons, List.flatMap_append,
      ← List.append_assoc, byteCount_eq_sum, List.sum_append]
    exact Nat.le_add_right _ _

theorem bytesOf_join_le {p q : String} (hp : Path.isAbsolute p = false) (hq : Path.isAbsolute q = false)
    (h : bytesOf p ≤ bytesOf q) : bytesOf (Path.join root p) ≤ bytesOf (Path.join root q) := by
  unfold Path.join
  simp only [hp, hq, Bool.false_or]
  split
  case isTrue => exact h
  case isFalse =>
    split <;> simp only [bytesOf_append] <;> omega

theorem bytesOf_lt_bytesOf_join (root : String) {p : String} (hp : Path.isAbsolute p = false) (hne : p ≠ "") :
    bytesOf root < bytesOf (Path.join root p) := by
  have hpos : 0 < bytesOf p := by
    obtain ⟨c, cs, hc⟩ := List.exists_cons_of_ne_nil (show p.toList ≠ [] by simpa using hne)
    rw [bytesOf, hc, byteCount_eq_sum, List.map_cons, List.sum_cons]
    exact Nat.add_pos_left c.utf8Size_pos _
  unfold Path.join
  simp only [hp, Bool.false_or]
  split
  case isTrue he => rwa [beq_iff_eq.mp he]
  case isFalse =>
    split <;> simp only [bytesOf_append] <;> omega

def slashes (n : Nat) : String :=
  String.ofList (List.replicate n '/')

theorem bytesOf_slashes (n : Nat) : bytesOf (slashes n) = n := by
  have hc : Char.utf8Size '/' = 1 := rfl
  simp [bytesOf, byteCount_eq_sum, slashes, hc]

theorem segments_slashes (n : Nat) (path : String) :
    Path.segments (slashes n ++ path) = List.replicate n "" ++ Path.segments path := by
  induction n
  case zero => rw [slashes, List.replicate_zero, List.replicate_zero, List.nil_append, String.ofList_nil,
      String.empty_append]
  case succ n hi =>
    have hs : slashes (n + 1) ++ path = "" ++ "/" ++ (slashes n ++ path) := by
      simp [← String.toList_inj, slashes, List.replicate_succ]
    rw [hs, Path.segments_append_slash, hi, List.replicate_succ]
    rfl

theorem find_slashes {entries : List (String × Node)} {bars : Bars} {n : Nat} (hd : top = .directory entries bars)
    (h : find top followLast path = .ok spot) (hb : n + bytesOf path ≤ maxPath) :
    find top followLast (slashes n ++ path) = .ok spot := by
  have hreach : ∀ n, Reaches top followLast maxLinks [] (List.replicate n "" ++ Path.segments path) spot.names := by
    intro n
    induction n
    case zero      => exact reaches_of_find h
    case succ n hi => exact .noise ⟨bars, by rw [hd, Node.at?_nil], rfl⟩ rfl hi
  have hz := (lookable_of_find h).1
  refine find_of_reaches ?_ ?_ ?_ ?_ (at?_of_find h)
  · simp [ne_empty_of_find h]
  · simp [slashes, hz]
  · rwa [bytesOf_append, bytesOf_slashes]
  · rw [segments_slashes]
    exact hreach n

variable (hr : find top true root = .ok base) (hne : names ≠ []) (ha : base.node.at? names = some node)
  (hl : ∀ target, node ≠ .link target)

include hr hne ha hl in
theorem find_join_eq (hn : ∀ n ∈ names, Path.IsName n)
    (h : find top followLast (Path.join root (Path.joinSegments names)) = .ok spot) :
    spot = ⟨base.names ++ names, node⟩ ∧ base.node.reach? names = some node := by
  have hs : Path.segments (Path.joinSegments names) = names := Path.segments_joinSegments hne fun n hm => (hn n hm).1
  obtain ⟨links, hreach⟩ := reaches_of_find_join hr (Path.isAbsolute_joinSegments hn) h
  rw [hs] at hreach
  have ⟨hp, hreach⟩ := hreach.eq_and_reach? hn (at?_of_find hr) ha hl
  have hnode : top.at? spot.names = some node := by
    rw [hp, Node.at?_append, at?_of_find hr, Option.bind_some, ha]
  refine ⟨?_, hreach⟩
  cases spot
  cases hp
  cases hnode.symm.trans (at?_of_find h)
  rfl

include hr hne hl in
-- A path of names below a root leads to their position, if it is short enough and no directory keeps it from going on.
theorem find_join_eq_ok (hn : ∀ n ∈ names, IsEntry n) (hreach : base.node.reach? names = some node)
    (hb : bytesOf (Path.join root (Path.joinSegments names)) ≤ maxPath) :
    find top followLast (Path.join root (Path.joinSegments names)) = .ok ⟨base.names ++ names, node⟩ := by
  have hname : ∀ n ∈ names, Path.IsName n := fun n hm => (hn n hm).name
  have hp : Path.isAbsolute (Path.joinSegments names) = false := Path.isAbsolute_joinSegments hname
  obtain ⟨text, hroot, hj⟩ := Path.exists_front_of_join hp (ne_empty_of_find hr)
  have hz : Char.ofNat 0 ∉ (Path.join root (Path.joinSegments names)).toList := by
    have hz := (lookable_of_find hr).1
    have hns := not_mem_joinSegments (c := Char.ofNat 0) (by decide) fun n hm => (hn n hm).noZero
    rcases hroot with rfl | rfl <;> simp_all
  refine find_of_reaches (by simp [hj]) hz hb ?_ ?_
  · obtain ⟨front, hf, hfront⟩ := exists_reaches_root hr hp
    rw [hf, Path.segments_joinSegments hne fun n hm => (hname n hm).1]
    exact hfront.append hne fun left =>
      leads_of_advance (advance_eq_arrived (fun n hm => (hn n hm).isOrdinary) (at?_of_find hr) hreach hl) left
  · rw [Node.at?_append, at?_of_find hr, Option.bind_some, at?_of_reach? hreach]

end DuplicateBlocks.Tree
