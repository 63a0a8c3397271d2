import DuplicateBlocks.Path.Id
import Mathlib.Data.List.Basic
import Mathlib.Data.List.TakeWhile
import Mathlib.Data.Set.List

namespace DuplicateBlocks.Path

variable {p n l m x y dir : String} {segs : List String}

theorem toList_joinSegments (segs : List String) :
    (joinSegments segs).toList = List.intercalate ['/'] (segs.map String.toList) := by
  simp [joinSegments]

theorem segments_joinSegments (hn : segs ≠ []) (h : ∀ seg ∈ segs, '/' ∉ seg.toList) :
    segments (joinSegments segs) = segs := by
  have hp : Text.pieces (· == '/') (List.intercalate ['/'] (segs.map String.toList)) = segs.map String.toList :=
    Text.pieces_intercalate (by simpa using hn) (by simpa using h)
  rw [segments, toList_joinSegments, hp, List.map_map]
  exact List.map_id'' (fun _ => String.ofList_toList) segs

theorem slashed_eq_self (h : '\\' ∉ p.toList) : slashed p = p := by
  rw [← String.toList_inj, slashed, String.toList_map]
  refine List.map_congr_left ?_ |>.trans (List.map_id _)
  intro c hc
  have hb : c ≠ '\\' := fun he => h (he ▸ hc)
  simp [hb]

theorem slashed_append (p n : String) : slashed (p ++ n) = slashed p ++ slashed n := by
  simp [← String.toList_inj, slashed]

theorem slashed_joinSegments (segs : List String) : slashed (joinSegments segs) = joinSegments (segs.map slashed) := by
  have hs : slashed "/" = "/" := slashed_eq_self (by decide)
  unfold joinSegments
  induction segs
  case nil => exact slashed_eq_self (by simp)
  case cons seg segs hi =>
    cases segs
    case nil => simp
    case cons next segs =>
      rw [List.map_cons, String.intercalate_cons_cons, slashed_append, slashed_append, hi, hs, List.map_cons,
        String.intercalate_cons_cons]

-- A name that stays a segment of its own in an id.
def IsPlain (n : String) : Prop :=
  '/' ∉ n.toList ∧ '\\' ∉ n.toList

theorem slashed_joinSegments_eq_self (h : ∀ seg ∈ segs, IsPlain seg) :
    slashed (joinSegments segs) = joinSegments segs := by
  have hs : segs.map slashed = segs :=
    (List.map_congr_left fun seg hm => slashed_eq_self (h seg hm).2).trans (List.map_id segs)
  rw [slashed_joinSegments, hs]

theorem segments_slashed_joinSegments (hn : segs ≠ []) (h : ∀ seg ∈ segs, IsPlain seg) :
    segments (slashed (joinSegments segs)) = segs := by
  rw [slashed_joinSegments_eq_self h]
  exact segments_joinSegments hn fun seg hm => (h seg hm).1

theorem slash_not_mem_of_mem_segments (h : n ∈ segments p) : '/' ∉ n.toList := by
  have ⟨cs, hc, he⟩ := List.mem_map.mp h
  intro hs
  rw [← he, String.toList_ofList] at hs
  exact Text.not_sep_of_mem_pieces hc hs rfl

theorem mem_segments_of_name_mem (h : .name n ∈ components p) : n ∈ segments p := by
  have hs : ∀ seg ∈ (parts p).body, seg ∈ segments p := by
    unfold parts
    split <;> simp_all
  have hf : (parts p).start ≠ some (.name n) := by
    unfold parts
    split <;> simp
  rw [components, Parts.components, List.mem_append, Option.mem_toList, List.mem_filterMap] at h
  cases h
  case inl h => exact absurd h hf
  case inr h =>
    have ⟨seg, hm, hc⟩ := h
    unfold segmentComponent? at hc
    split at hc <;> try split at hc
    all_goals simp_all

theorem slash_not_mem_rootLabel (i : Nat) (p : String) : '/' ∉ (rootLabel i p).toList := by
  unfold rootLabel
  cases hf : fileName? p
  case none =>
    intro hs
    have hr : '/' ∈ Nat.toDigits 10 i := by simpa using hs
    have hd := Nat.isDigit_of_mem_toDigits (by decide) (Nat.le_refl 10) hr
    exact absurd hd (by decide)
  case some n =>
    unfold fileName? at hf
    split at hf
    case h_1 hl =>
      cases hf
      exact slash_not_mem_of_mem_segments (mem_segments_of_name_mem (List.mem_of_getLast? hl))
    case h_2 => cases hf

theorem labelled_injective (label : Option String) : (labelled label).Injective := by
  intro x y h
  cases label
  case none   => exact h
  case some l => simpa [labelled, ← String.toList_inj] using h

-- The label ends at the first slash.
theorem labelled_inj (hl : '/' ∉ l.toList) (hm : '/' ∉ m.toList)
    (h : labelled (some l) x = labelled (some m) y) : l = m ∧ x = y := by
  have hp : ∀ {k : String}, '/' ∉ k.toList → ∀ z : String,
      (labelled (some k) z).toList.takeWhile (· != '/') = k.toList := by
    intro k hk z
    have ha : ∀ c ∈ k.toList, (c != '/') = true := by
      intro c hc
      simpa using fun he : c = '/' => hk (he ▸ hc)
    simp [labelled, List.takeWhile_append_of_pos ha]
  have he : l.toList = m.toList := by rw [← hp hl x, ← hp hm y, h]
  cases String.toList_inj.mp he
  exact ⟨rfl, labelled_injective _ h⟩

-- A name as an entry of a directory has it.
def IsName (n : String) : Prop :=
  '/' ∉ n.toList ∧ n ≠ "" ∧ n ≠ "." ∧ n ≠ ".."

instance : DecidablePred IsName := fun _ =>
  inferInstanceAs (Decidable (_ ∧ _ ∧ _ ∧ _))

theorem segmentComponent?_of_isName (h : IsName n) : segmentComponent? n = some (.name n) := by
  have ⟨_, he, hd, hu⟩ := h
  exact segmentComponent?_eq_name (by simp [isNoise, he, hd]) hu

theorem parts_joinSegments (hn : segs ≠ []) (h : ∀ seg ∈ segs, IsName seg) :
    parts (joinSegments segs) = ⟨none, segs⟩ := by
  have hs : segments (joinSegments segs) = segs := segments_joinSegments hn fun seg hm => (h seg hm).1
  unfold parts
  rw [hs]
  cases segs
  case nil => exact absurd rfl hn
  case cons seg segs =>
    have ⟨_, he, hd, _⟩ := h seg List.mem_cons_self
    split <;> simp_all

theorem components_joinSegments (hn : segs ≠ []) (h : ∀ seg ∈ segs, IsName seg) :
    components (joinSegments segs) = segs.map .name := by
  have hc : segs.filterMap segmentComponent? = segs.map .name := by
    rw [List.filterMap_congr fun seg hm => segmentComponent?_of_isName (h seg hm), List.filterMap_eq_map']
  rw [components, parts_joinSegments hn h, Parts.components, Option.toList_none, List.nil_append, hc]

theorem fileName?_joinSegments (hn : segs ≠ []) (h : ∀ seg ∈ segs, IsName seg) :
    fileName? (joinSegments segs) = segs.getLast? := by
  rw [fileName?, components_joinSegments hn h, List.getLast?_map]
  cases segs.getLast? <;> rfl

theorem joinSegments_concat (hs : segs ≠ []) (n : String) :
    joinSegments (segs ++ [n]) = joinSegments segs ++ "/" ++ n := by
  obtain ⟨seg, segs, rfl⟩ := List.exists_cons_of_ne_nil hs
  simp [joinSegments, ← String.toList_inj, Text.intercalate_cons]

theorem joinSegments_ne_empty (hs : segs ≠ []) (h : ∀ seg ∈ segs, IsName seg) : joinSegments segs ≠ "" := by
  intro he
  have hp := parts_joinSegments hs h
  rw [he] at hp
  have hb : segs = [""] := (congrArg Parts.body hp).symm
  have ⟨_, hn, _⟩ := h "" (hb ▸ List.mem_cons_self)
  exact hn rfl

theorem ancestors_eq {ps : Parts} (hp : parts p = ps) (hs : ps.body ≠ []) (h : ∀ seg ∈ ps.body, IsName seg) :
    ancestors p =
      ((List.range (ps.body.length - 1)).reverse.map fun i => (Parts.mk ps.start (ps.body.take (i + 1))).text) ++
        match ps.start with
        | some .root => ["/"]
        | some .here => [".", ""]
        | _ => [""] := by
  have hr : (List.range ps.body.length).filter (fun i => !ps.body[i]?.all isNoise) = List.range ps.body.length := by
    refine List.filter_eq_self.mpr fun i hi => ?_
    have hi := List.mem_range.mp hi
    have ⟨_, he, hd, _⟩ := h ps.body[i] (List.getElem_mem hi)
    simp [hi, isNoise, he, hd]
  have hl : (List.range ps.body.length).dropLast = List.range (ps.body.length - 1) := by
    rw [List.dropLast_eq_take, List.take_range, List.length_range, Nat.min_eq_left (Nat.sub_le _ _)]
  have he : ¬(List.range ps.body.length).isEmpty = true := by simpa using hs
  simp only [ancestors, hp, hr, hl]
  exact if_neg he

theorem ancestors_joinSegments (hs : segs ≠ []) (h : ∀ seg ∈ segs, IsName seg) :
    ancestors (joinSegments segs) =
      ((List.range (segs.length - 1)).reverse.map fun i => joinSegments (segs.take (i + 1))) ++ [""] :=
  ancestors_eq (parts_joinSegments hs h) hs h

-- The paths above a path are the beginnings of its names, down to the empty one.
theorem mem_ancestors_joinSegments_iff (hs : segs ≠ []) (h : ∀ seg ∈ segs, IsName seg) :
    dir ∈ ancestors (joinSegments segs) ↔ ∃ top, top <+: segs.dropLast ∧ dir = joinSegments top := by
  rw [ancestors_joinSegments hs h]
  simp only [List.mem_append, List.mem_map, List.mem_reverse, List.mem_range, List.mem_singleton]
  constructor
  case mp =>
    rintro (⟨i, hi, rfl⟩ | rfl)
    case inl =>
      refine ⟨segs.take (i + 1), ?_, rfl⟩
      rw [List.dropLast_eq_take]
      exact List.take_prefix_take_left hi
    case inr => exact ⟨[], List.nil_prefix, rfl⟩
  case mpr =>
    rintro ⟨top, ht, rfl⟩
    cases top
    case nil => exact .inr rfl
    case cons seg top =>
      have hp := List.prefix_iff_eq_take.mp (ht.trans (List.dropLast_prefix segs))
      have hl := ht.length_le
      rw [List.length_dropLast] at hl
      exact .inl ⟨top.length, hl, congrArg joinSegments hp.symm⟩

-- A name ends with a dot and an extension, and something stands in front of them.
def HasExtension (n ext : String) : Prop :=
  ∃ stem, stem ≠ [] ∧ n.toList = stem ++ '.' :: ext.toList ∧ '.' ∉ ext.toList

theorem extension?_eq_some_iff {ext : String} (hf : fileName? p = some n) :
    extension? p = some ext ↔ HasExtension n ext := by
  rw [extension?, hf, Option.bind_some]
  constructor
  case mp =>
    intro h
    simp only at h
    split at h
    case h_2 => cases h
    case h_1 dot c rest hd =>
      cases h
      have hdot : dot = '.' := by
        have hh := List.head?_dropWhile_not (· != '.') n.toList.reverse
        rw [hd] at hh
        simpa using hh
      have hback : n.toList.reverse = n.toList.reverse.takeWhile (· != '.') ++ '.' :: c :: rest := by
        have hsplit := List.takeWhile_append_dropWhile (p := (· != '.')) (l := n.toList.reverse)
        rw [hd, hdot] at hsplit
        exact hsplit.symm
      refine ⟨(c :: rest).reverse, by simp, ?_, ?_⟩
      · rw [String.toList_ofList, ← List.reverse_inj, List.reverse_append, List.reverse_cons, List.reverse_reverse,
          List.reverse_reverse, List.append_assoc, List.singleton_append]
        exact hback
      · rw [String.toList_ofList, List.mem_reverse]
        exact fun hm => absurd (List.mem_takeWhile_imp hm) (by simp)
  case mpr =>
    intro ⟨stem, hs, hn, he⟩
    have hall : ∀ c ∈ ext.toList.reverse, (c != '.') = true := by
      intro c hc
      simpa using fun h : c = '.' => he (h ▸ List.mem_reverse.mp hc)
    have hback : n.toList.reverse = ext.toList.reverse ++ '.' :: stem.reverse := by simp [hn]
    have ⟨c, rest, hc⟩ := List.exists_cons_of_ne_nil (List.reverse_ne_nil_iff.mpr hs)
    simp [hback, List.dropWhile_append_of_pos hall, List.takeWhile_append_of_pos hall, hc]

theorem segments_append_slash (p n : String) : segments (p ++ "/" ++ n) = segments p ++ segments n := by
  have hc : (p ++ "/" ++ n).toList = p.toList ++ '/' :: n.toList := by simp
  rw [segments, hc, Text.pieces_append_cons_sep (· == '/') rfl, List.map_append]
  rfl

-- A relative path is taken from another one behind a slash, which may be there already.
theorem exists_front_of_join (hp : isAbsolute p = false) (hn : n ≠ "") :
    ∃ front, (n = front ∨ n = front ++ "/") ∧ join n p = front ++ "/" ++ p := by
  unfold join
  rw [if_neg (by simp [hp, hn])]
  split
  case isTrue h =>
    have ⟨front, hf⟩ := List.getLast?_eq_some_iff.mp (eq_of_beq h)
    have hs : n = String.ofList front ++ "/" := by simp [← String.toList_inj, hf]
    exact ⟨String.ofList front, .inr hs, by rw [← hs]⟩
  case isFalse => exact ⟨n, .inl rfl, rfl⟩

theorem isAbsolute_of_isSafeRelative (h : isSafeRelative p = true) : isAbsolute p = false := by
  simp only [isSafeRelative, Bool.and_eq_true, Bool.not_eq_true'] at h
  exact h.1.2

theorem exists_names_of_isSafeRelative (h : isSafeRelative p = true) :
    ∃ names : List String, components p = names.map .name ∧
      (segments p).filterMap segmentComponent? = names.map .name := by
  have ha : ∀ c ∈ components p, ∃ n, Component.name n = c := by
    simp only [isSafeRelative, Bool.and_eq_true, List.all_eq_true] at h
    intro c hc
    have hname := h.2 c hc
    cases c
    case name n => exact ⟨n, rfl⟩
    all_goals cases hname
  have ⟨names, hn⟩ : components p ∈ Set.range (List.map Component.name) := Set.range_list_map Component.name ▸ ha
  refine ⟨names, hn.symm, ?_⟩
  -- A path that starts at the root, or with a dot, has a component that is no name.
  have hs : parts p = ⟨none, segments p⟩ := by
    rw [components, Parts.components] at ha
    unfold parts at ha ⊢
    split at ha <;> simp_all
  rw [hn, components, hs]
  rfl

end DuplicateBlocks.Path
