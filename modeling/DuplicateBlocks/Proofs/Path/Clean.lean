import DuplicateBlocks.Proofs.Path

namespace DuplicateBlocks.Path

variable {p raw root base dir n : String} {cs ds : List Component} {names stack : List String}

theorem segmentComponent?_eq_some_name_iff {seg : String} :
    segmentComponent? seg = some (.name n) ↔ seg = n ∧ isNoise seg = false ∧ seg ≠ ".." := by
  unfold segmentComponent?
  split <;> try split
  all_goals simp_all

theorem exists_segments_of_isAbsolute (h : isAbsolute p = true) : ∃ seg segs, segments p = "" :: seg :: segs := by
  have ⟨cs, hc⟩ : ∃ cs, p.toList = '/' :: cs := by
    have hh : p.toList.head? = some '/' := eq_of_beq h
    exact ⟨_, List.eq_cons_of_mem_head? hh⟩
  have ⟨first, others, hp⟩ := List.exists_cons_of_ne_nil (Text.pieces_ne_nil (· == '/') cs)
  refine ⟨String.ofList first, others.map String.ofList, ?_⟩
  rw [segments, hc, Text.pieces_cons_sep (· == '/') rfl, hp]
  rfl

-- What stands in front of the first slash is no component, so it makes no difference that the root is one.
theorem components_of_isAbsolute (h : isAbsolute p = true) :
    components p = .root :: (segments p).filterMap segmentComponent? := by
  have ⟨seg, segs, hs⟩ := exists_segments_of_isAbsolute h
  have hp : parts p = ⟨some .root, seg :: segs⟩ := by
    rw [parts, hs]
    rfl
  rw [components, hp, hs, List.filterMap_cons_none (segmentComponent?_of_isNoise rfl)]
  rfl

theorem isName_of_mem_components (hp : isAbsolute p = true) (h : .name n ∈ components p) : IsName n := by
  rw [components_of_isAbsolute hp] at h
  cases List.mem_cons.mp h
  case inl h => cases h
  case inr h =>
    have ⟨seg, hm, hs⟩ := List.mem_filterMap.mp h
    obtain ⟨rfl, hn, hu⟩ := segmentComponent?_eq_some_name_iff.mp hs
    have hn : seg ≠ "" ∧ seg ≠ "." := by simpa [isNoise] using hn
    exact ⟨slash_not_mem_of_mem_segments hm, hn.left, hn.right, hu⟩

theorem ne_empty_of_isAbsolute (h : isAbsolute p = true) : p ≠ "" := by
  rintro rfl
  cases h

theorem isAbsolute_append (h : isAbsolute p = true) (q : String) : isAbsolute (p ++ q) = true := by
  have hh : p.toList.head? = some '/' := eq_of_beq h
  simp [isAbsolute, hh]

theorem isAbsolute_join (hb : isAbsolute base = true) (p : String) : isAbsolute (join base p) = true := by
  unfold join
  split <;> try split
  case isTrue h          => simpa [ne_empty_of_isAbsolute hb] using h
  case isFalse.isTrue    => exact isAbsolute_append hb p
  case isFalse.isFalse   => exact String.append_assoc .. ▸ isAbsolute_append hb _

theorem components_join (hb : isAbsolute base = true) (hp : isAbsolute p = false) :
    components (join base p) = components base ++ (segments p).filterMap segmentComponent? := by
  have ⟨front, hf, hj⟩ := exists_front_of_join hp (ne_empty_of_isAbsolute hb)
  -- A slash at the end leaves an empty segment, which is no component.
  have hs : (segments base).filterMap segmentComponent? = (segments front).filterMap segmentComponent? := by
    obtain rfl | rfl := hf
    case inl => rfl
    case inr =>
      have he : segments (front ++ "/") = segments front ++ [""] := by
        rw [← String.append_empty (s := front ++ "/"), segments_append_slash]
        rfl
      rw [he, List.filterMap_append]
      exact List.append_nil _
  rw [components_of_isAbsolute (isAbsolute_join hb p), components_of_isAbsolute hb, hj, segments_append_slash,
    List.filterMap_append, hs, List.cons_append]

-- The stack of names after one more component, the latest name first: `..` takes one off if there is one.
def climb : List String → Component → List String
  | stack, .name n => n :: stack
  | stack, .up => stack.tail
  | stack, _ => stack

-- The names that remain of a list of components once every `..` has taken one off.
def resolve (cs : List Component) : List String :=
  (cs.foldl climb []).reverse

theorem foldl_climb_names (stack names : List String) :
    (names.map Component.name).foldl climb stack = names.reverse ++ stack := by
  induction names generalizing stack
  case nil => rfl
  case cons n names hi =>
    rw [List.map_cons, List.foldl_cons, hi]
    simp [climb]

theorem resolve_append_names (cs : List Component) (names : List String) :
    resolve (cs ++ names.map .name) = resolve cs ++ names := by
  simp [resolve, foldl_climb_names]

theorem mem_foldl_climb (h : n ∈ cs.foldl climb stack) : n ∈ stack ∨ .name n ∈ cs := by
  induction cs generalizing stack
  case nil => exact .inl h
  case cons c cs hi =>
    cases hi h
    case inr h => exact .inr (List.mem_cons_of_mem c h)
    case inl h =>
      cases c
      case root   => exact .inl h
      case here   => exact .inl h
      case up     => exact .inl (List.mem_of_mem_tail h)
      case name m =>
        obtain rfl | h := List.mem_cons.mp h
        · exact .inr List.mem_cons_self
        · exact .inl h

theorem mem_of_mem_resolve (h : n ∈ resolve cs) : .name n ∈ cs := by
  have hs := mem_foldl_climb (List.mem_reverse.mp h)
  simpa using hs

theorem isName_of_mem_resolve (hp : isAbsolute p = true) : ∀ n ∈ resolve (components p), IsName n :=
  fun _ h => isName_of_mem_components hp (mem_of_mem_resolve h)

theorem isAbsolute_rooted (names : List String) : isAbsolute ("/" ++ joinSegments names) = true :=
  isAbsolute_append rfl _

theorem parts_rooted (h : ∀ n ∈ names, IsName n) :
    parts ("/" ++ joinSegments names) = ⟨some .root, if names = [] then [""] else names⟩ := by
  have hs : segments ("/" ++ joinSegments names) = "" :: segments (joinSegments names) :=
    segments_append_slash "" (joinSegments names)
  by_cases he : names = []
  case pos =>
    subst he
    rw [parts, hs]
    rfl
  case neg =>
    have ⟨n, rest, hn⟩ := List.exists_cons_of_ne_nil he
    rw [parts, hs, segments_joinSegments he fun n hn => (h n hn).1, if_neg he, hn]
    rfl

theorem components_rooted (h : ∀ n ∈ names, IsName n) :
    components ("/" ++ joinSegments names) = .root :: names.map .name := by
  rw [components, parts_rooted h, Parts.components]
  split
  case isTrue he => subst he; rfl
  case isFalse   =>
    rw [List.filterMap_congr fun n hn => segmentComponent?_of_isName (h n hn), List.filterMap_eq_map']
    rfl

theorem isAbsolute_of_isName (h : IsName n) : isAbsolute n = false := by
  rw [← Bool.not_eq_true]
  intro ha
  have hh : n.toList.head? = some '/' := eq_of_beq ha
  exact h.1 (List.mem_of_mem_head? hh)

theorem getLast?_joinSegments_ne (hs : names ≠ []) (h : ∀ n ∈ names, IsName n) :
    (joinSegments names).toList.getLast? ≠ some '/' := by
  obtain ⟨front, n, rfl⟩ := names.eq_nil_or_concat'.resolve_left hs
  have ⟨hslash, he, _⟩ := h n (List.mem_append_right front List.mem_cons_self)
  have hl : (joinSegments (front ++ [n])).toList.getLast? = n.toList.getLast? := by
    by_cases hf : front = []
    case pos => simp [hf, joinSegments]
    case neg => simp [joinSegments_concat hf, List.getLast?_eq_some_getLast, he]
  rw [hl]
  exact fun hn => hslash (List.mem_of_getLast? hn)

theorem join_rooted (h : ∀ m ∈ names, IsName m) (hn : IsName n) :
    join ("/" ++ joinSegments names) n = "/" ++ joinSegments (names ++ [n]) := by
  have ha := isAbsolute_of_isName hn
  by_cases hs : names = []
  case pos => simp [hs, join, ha, joinSegments]
  case neg =>
    have hr : ("/" ++ joinSegments names).toList.getLast? = (joinSegments names).toList.getLast? := by
      simp [List.getLast?_eq_some_getLast, joinSegments_ne_empty hs h]
    have hl : ¬(("/" ++ joinSegments names).toList.getLast? == some '/') = true := by
      rw [hr, beq_iff_eq]
      exact getLast?_joinSegments_ne hs h
    rw [join, if_neg (by simp [ha]), if_neg hl, joinSegments_concat hs, String.append_assoc, String.append_assoc,
      String.append_assoc]

theorem parent_rooted (h : ∀ m ∈ names ++ [n], IsName m) :
    parent ("/" ++ joinSegments (names ++ [n])) = "/" ++ joinSegments names := by
  have hp : parts ("/" ++ joinSegments (names ++ [n])) = ⟨some .root, names ++ [n]⟩ := by
    rw [parts_rooted h, if_neg (by simp)]
  rw [parent, ancestors_eq hp (by simp) h]
  cases hl : names.length
  case zero =>
    rw [List.length_eq_zero_iff.mp hl]
    rfl
  case succ k =>
    have ht : (names ++ [n]).take (k + 1) = names := by rw [← hl, List.take_left]
    simp [hl, List.range_succ, ht, Parts.text]

theorem isName_climb {c : Component} (hs : ∀ n ∈ stack, IsName n) (hc : ∀ n, c = .name n → IsName n) :
    ∀ n ∈ climb stack c, IsName n := by
  cases c
  case root   => exact hs
  case here   => exact hs
  case up     => exact fun n hn => hs n (List.mem_of_mem_tail hn)
  case name m => exact List.forall_mem_cons.mpr ⟨hc m rfl, hs⟩

-- A path below the root is a stack of names, and what a component does to the one it does to the other.
theorem advance_rooted {c : Component} (hs : ∀ n ∈ stack, IsName n) (hr : c ≠ .root)
    (hc : ∀ n, c = .name n → IsName n) :
    advance ("/" ++ joinSegments stack.reverse) c = "/" ++ joinSegments (climb stack c).reverse := by
  have hrev : ∀ n ∈ stack.reverse, IsName n := fun n hn => hs n (List.mem_reverse.mp hn)
  cases c
  case root   => exact absurd rfl hr
  case here   => rfl
  case name n => rw [advance, join_rooted hrev (hc n rfl), climb, List.reverse_cons]
  case up =>
    rw [advance, components_rooted hrev]
    cases stack
    case nil => rfl
    case cons n stack =>
      rw [List.reverse_cons] at hrev
      have hl : (Component.root :: (stack.reverse ++ [n]).map Component.name).getLast? = some (.name n) := by
        simp [List.getLast?_cons]
      simp only [List.reverse_cons, hl]
      exact parent_rooted hrev

theorem foldl_advance (hs : ∀ n ∈ stack, IsName n) (hr : .root ∉ cs) (hn : ∀ n, .name n ∈ cs → IsName n) :
    cs.foldl advance ("/" ++ joinSegments stack.reverse) = "/" ++ joinSegments (cs.foldl climb stack).reverse := by
  induction cs generalizing stack
  case nil => rfl
  case cons c cs hi =>
    have ⟨hr, hrs⟩ := List.ne_and_not_mem_of_not_mem_cons hr
    have hc : ∀ n, c = .name n → IsName n := fun n he => hn n (he ▸ List.mem_cons_self)
    rw [List.foldl_cons, List.foldl_cons, advance_rooted hs hr.symm hc]
    exact hi (isName_climb hs hc) hrs fun n hm => hn n (List.mem_cons_of_mem c hm)

theorem clean_of_isAbsolute (h : isAbsolute p = true) : clean p = "/" ++ joinSegments (resolve (components p)) := by
  have hn : ∀ n, .name n ∈ components p → IsName n := fun n hm => isName_of_mem_components h hm
  have hc := components_of_isAbsolute h
  have hr : .root ∉ (segments p).filterMap segmentComponent? := by
    intro hm
    have ⟨seg, _, hs⟩ := List.mem_filterMap.mp hm
    unfold segmentComponent? at hs
    split at hs <;> try split at hs
    all_goals cases hs
  rw [hc] at hn
  rw [clean, resolve, hc, List.foldl_cons, List.foldl_cons]
  exact foldl_advance (List.forall_mem_nil IsName) hr fun n hm => hn n (List.mem_cons_of_mem _ hm)

theorem components_clean (h : isAbsolute p = true) :
    components (clean p) = .root :: (resolve (components p)).map .name := by
  rw [clean_of_isAbsolute h, components_rooted (isName_of_mem_resolve h)]

-- A path lies strictly below a directory.
def IsBelow (p dir : String) : Prop :=
  components dir <+: components p ∧ components p ≠ components dir

instance (p dir : String) : Decidable (IsBelow p dir) :=
  inferInstanceAs (Decidable (_ ∧ _))

theorem isBelow_of_components (hn : names ≠ []) (h : components p = components dir ++ names.map .name) :
    IsBelow p dir := by
  rw [IsBelow, h]
  exact ⟨List.prefix_append .., by simpa using hn⟩

theorem joinSegments_segments (p : String) : joinSegments (segments p) = p := by
  have hp := Text.intercalate_pieces '/' p.toList
  simp [← String.toList_inj, joinSegments, segments, Function.comp_def, hp]

theorem head?_segments_ne_empty (hn : raw ≠ "") (ha : isAbsolute raw = false) : (segments raw).head? ≠ some "" := by
  intro hh
  have ⟨segs, hs⟩ : ∃ segs, segments raw = "" :: segs := ⟨_, List.eq_cons_of_mem_head? hh⟩
  have hj := joinSegments_segments raw
  rw [hs] at hj
  cases segs
  case nil => exact hn hj.symm
  case cons seg segs =>
    have hr : raw = "/" ++ joinSegments (seg :: segs) := by
      rw [← hj]
      exact String.intercalate_cons_cons
    exact absurd (hr ▸ isAbsolute_rooted (seg :: segs)) (by simp [ha])

theorem components_of_relative (hn : raw ≠ "") (ha : isAbsolute raw = false) (hd : (segments raw).head? ≠ some ".") :
    components raw = (segments raw).filterMap segmentComponent? := by
  have he := head?_segments_ne_empty hn ha
  have hp : parts raw = ⟨none, segments raw⟩ := by
    unfold parts
    split <;> simp_all
  rw [components, hp]
  rfl

theorem filterMap_segmentComponent? {segs : List String} (h : ".." ∉ segs) :
    segs.filterMap segmentComponent? = (segs.filter (!isNoise ·)).map .name := by
  induction segs
  case nil => rfl
  case cons seg segs hi =>
    have ⟨hu, hs⟩ := List.ne_and_not_mem_of_not_mem_cons h
    cases hn : isNoise seg
    case true  => simp [hn, segmentComponent?_of_isNoise, hi hs]
    case false => simp [hn, segmentComponent?_eq_name hn (Ne.symm hu), hi hs]

theorem isSafeRelative_iff :
    isSafeRelative raw = true ↔
      raw ≠ "" ∧ isAbsolute raw = false ∧ (segments raw).head? ≠ some "." ∧ ".." ∉ segments raw := by
  constructor
  case mp =>
    intro h
    have hn : raw ≠ "" := by
      rintro rfl
      cases h
    obtain ⟨names, hc, hs⟩ := exists_names_of_isSafeRelative h
    refine ⟨hn, isAbsolute_of_isSafeRelative h, fun hd => ?_, fun hu => ?_⟩
    case refine_1 =>
      obtain ⟨segs, hs⟩ : ∃ segs, segments raw = "." :: segs := ⟨_, List.eq_cons_of_mem_head? hd⟩
      have hh : .here ∈ components raw := by
        have hp : parts raw = ⟨some .here, segs⟩ := by
          rw [parts, hs]
          rfl
        rw [components, hp]
        exact List.mem_cons_self
      simp [hc] at hh
    case refine_2 =>
      have hup : .up ∈ (segments raw).filterMap segmentComponent? := List.mem_filterMap.mpr ⟨"..", hu, rfl⟩
      simp [hs] at hup
  case mpr =>
    rintro ⟨hn, ha, hd, hu⟩
    rw [isSafeRelative, components_of_relative hn ha hd, filterMap_segmentComponent? hu]
    simp [hn, ha]

theorem filter_segments_ne_nil (hn : raw ≠ "") (ha : isAbsolute raw = false) (hd : (segments raw).head? ≠ some ".") :
    (segments raw).filter (!isNoise ·) ≠ [] := by
  have he := head?_segments_ne_empty hn ha
  obtain ⟨seg, segs, hs⟩ := List.exists_cons_of_ne_nil (show segments raw ≠ [] by simp [segments, Text.pieces_ne_nil])
  rw [hs] at he hd ⊢
  have hnoise : isNoise seg = false := by simpa [isNoise] using And.intro he hd
  simp [hnoise]

theorem components_clean_join (hr : isAbsolute root = true) (ha : isAbsolute raw = false) (hu : ".." ∉ segments raw) :
    components (clean (join root raw)) =
      components (clean root) ++ ((segments raw).filter (!isNoise ·)).map .name := by
  rw [components_clean (isAbsolute_join hr raw), components_clean hr, components_join hr ha,
    filterMap_segmentComponent? hu, resolve_append_names, List.map_append, List.cons_append]

-- A path of another program is safe exactly if it is relative, starts with no dot and has no way up. Then its own
-- names come behind those of any directory from which it is taken, and there is one at least.
theorem isSafeRelative_iff_and_isBelow (raw : String) :
    (isSafeRelative raw = true ↔
      raw ≠ "" ∧ raw.toList.head? ≠ some '/' ∧ (segments raw).head? ≠ some "." ∧ ".." ∉ segments raw) ∧
    (isSafeRelative raw = true → ∀ root, isAbsolute root = true →
      (segments raw).filter (!isNoise ·) ≠ [] ∧
      components (clean (join root raw)) =
        components (clean root) ++ ((segments raw).filter (!isNoise ·)).map .name ∧
      IsBelow (clean (join root raw)) (clean root)) := by
  constructor
  case left =>
    have ha : isAbsolute raw = false ↔ raw.toList.head? ≠ some '/' := by simp [isAbsolute]
    rw [isSafeRelative_iff, ha]
  case right =>
    intro h root hr
    have ⟨hn, ha, hd, hu⟩ := isSafeRelative_iff.mp h
    have hne := filter_segments_ne_nil hn ha hd
    have hc := components_clean_join hr ha hu
    exact ⟨hne, hc, isBelow_of_components hne hc⟩

-- Dots and slashes within a path and at its end, and a directory with a way up beyond the root.
theorem isSafeRelative_and_isBelow_dotted :
    isSafeRelative "a/.//b/." = true ∧ isAbsolute "/../r/./s/.." = true ∧
      clean "/../r/./s/.." = "/r" ∧ clean (join "/../r/./s/.." "a/.//b/.") = "/r/a/b" ∧
      components (clean (join "/../r/./s/.." "a/.//b/.")) =
        components (clean "/../r/./s/..") ++ ((segments "a/.//b/.").filter (!isNoise ·)).map .name := by
  have hs : isSafeRelative "a/.//b/." = true := by decide +kernel
  have hr : isAbsolute "/../r/./s/.." = true := by decide +kernel
  have ⟨_, hb⟩ := isSafeRelative_iff_and_isBelow "a/.//b/."
  exact ⟨hs, hr, by decide +kernel, by decide +kernel, (hb hs _ hr).right.left⟩

end DuplicateBlocks.Path
