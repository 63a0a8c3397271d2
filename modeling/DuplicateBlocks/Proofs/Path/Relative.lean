import DuplicateBlocks.Proofs.Path.Clean

namespace DuplicateBlocks.Path

variable {p seg base cwd file other : String} {dirs names : List String} {c : Char}

theorem dropWhile_isNoise (h : ∀ n ∈ names, IsName n) : names.dropWhile isNoise = names := by
  cases names
  case nil => rfl
  case cons n names =>
    have ⟨_, he, hd, _⟩ := h n List.mem_cons_self
    simp [isNoise, he, hd]

theorem dropComponents_append (h : ∀ n ∈ dirs, IsName n) (names : List String) :
    dropComponents dirs.length (dirs ++ names) = names := by
  induction dirs
  case nil => rfl
  case cons dir dirs hi =>
    have ⟨⟨_, he, hd, _⟩, hs⟩ := List.forall_mem_cons.mp h
    simp [dropComponents, isNoise, he, hd, hi hs]

theorem trimEnd_of_isName (h : ∀ n ∈ names, IsName n) (start : Option Component) :
    (Parts.mk start names).trimEnd = ⟨start, names⟩ := by
  have hr : ∀ n ∈ names.reverse, IsName n := fun n hn => h n (List.mem_reverse.mp hn)
  rw [Parts.trimEnd, dropWhile_isNoise hr, List.reverse_reverse]

theorem relativeTo?_rooted (hd : ∀ n ∈ dirs, IsName n) (hn : ∀ n ∈ names, IsName n) :
    relativeTo? ("/" ++ joinSegments (dirs ++ names)) ("/" ++ joinSegments dirs) = some (joinSegments names) := by
  have ha : ∀ n ∈ dirs ++ names, IsName n := fun n h => (List.mem_append.mp h).elim (hd n) (hn n)
  have hpre : (components ("/" ++ joinSegments dirs)).isPrefixOf
      (components ("/" ++ joinSegments (dirs ++ names))) = true := by
    rw [List.isPrefixOf_iff_prefix, components_rooted ha, components_rooted hd, List.map_append, List.prefix_cons_inj]
    exact List.prefix_append ..
  rw [components.eq_1 ("/" ++ joinSegments (dirs ++ names)), parts_rooted ha] at hpre
  simp only [relativeTo?, parts_rooted ha, hpre]
  by_cases he : dirs ++ names = []
  case pos =>
    obtain ⟨rfl, rfl⟩ := List.append_eq_nil_iff.mp he
    rfl
  case neg =>
    simp [he, components_rooted hd, dropComponents_append hd, dropWhile_isNoise hn, trimEnd_of_isName hn, Parts.text]

theorem isAbsolute_joinSegments (h : ∀ n ∈ names, IsName n) : isAbsolute (joinSegments names) = false := by
  cases names
  case nil => rfl
  case cons n names =>
    rw [← Bool.not_eq_true]
    intro ha
    have ⟨seg, segs, hs⟩ := exists_segments_of_isAbsolute ha
    rw [segments_joinSegments (List.cons_ne_nil n names) fun m hm => (h m hm).1] at hs
    have ⟨_, he, _⟩ := h n List.mem_cons_self
    exact he (List.cons.inj hs).left

theorem components_join_joinSegments (hb : isAbsolute base = true) (hne : names ≠ []) (h : ∀ n ∈ names, IsName n) :
    components (join base (joinSegments names)) = components base ++ names.map .name := by
  rw [components_join hb (isAbsolute_joinSegments h), segments_joinSegments hne fun n hn => (h n hn).1,
    List.filterMap_congr fun n hn => segmentComponent?_of_isName (h n hn), List.filterMap_eq_map']

theorem rooted_inj (hn : ∀ n ∈ names, IsName n) (hm : ∀ n ∈ dirs, IsName n)
    (h : components ("/" ++ joinSegments names) = components ("/" ++ joinSegments dirs)) : names = dirs := by
  rw [components_rooted hn, components_rooted hm, List.cons.injEq] at h
  exact List.map_injective_iff.mpr (fun _ _ he => Component.name.inj he) h.right

-- What a file below a directory comes to, once both are clean.
structure LiesUnder (cwd : String) (names : List String) (file : String) : Prop where
  isName : ∀ n ∈ names, IsName n
  nonempty : names ≠ []
  path : clean (join cwd file) = "/" ++ joinSegments (resolve (components cwd) ++ names)

theorem exists_liesUnder_of_isBelow (hc : isAbsolute cwd = true) (h : IsBelow (clean (join cwd file)) (clean cwd)) :
    ∃ names, LiesUnder cwd names file := by
  have hj := isAbsolute_join hc file
  have ⟨⟨rest, hr⟩, hne⟩ := h
  rw [components_clean hc, components_clean hj, List.cons_append, List.cons.injEq] at hr
  have ⟨front, names, hs, hf, hn⟩ := List.append_eq_map_iff.mp hr.right
  have hf : front = resolve (components cwd) :=
    List.map_injective_iff.mpr (fun _ _ he => Component.name.inj he) hf
  subst hf
  refine ⟨names, fun n hm => ?_, ?_, ?_⟩
  case refine_1 => exact isName_of_mem_resolve hj n (hs ▸ List.mem_append_right _ hm)
  case refine_2 =>
    rintro rfl
    rw [components_clean hc, components_clean hj, hs] at hne
    simp at hne
  case refine_3 => rw [clean_of_isAbsolute hj, hs]

namespace LiesUnder

theorem relativeTo?_eq (hc : isAbsolute cwd = true) (h : LiesUnder cwd names file) :
    relativeTo? (clean (join cwd file)) (clean cwd) = some (joinSegments names) := by
  rw [h.path, clean_of_isAbsolute hc]
  exact relativeTo?_rooted (isName_of_mem_resolve hc) h.isName

theorem ruleId_eq (hc : isAbsolute cwd = true) (h : LiesUnder cwd names file) :
    ruleId file cwd = slashed (joinSegments names) := by
  have hn := joinSegments_ne_empty h.nonempty h.isName
  have hr := h.relativeTo?_eq hc
  unfold ruleId
  simp only [hr]
  rw [if_pos (by simpa using hn)]

theorem relativeId_eq (hc : isAbsolute cwd = true) (h : LiesUnder cwd names file) :
    relativeId (clean cwd) (clean (join cwd file)) = slashed (joinSegments names) := by
  have hn := joinSegments_ne_empty h.nonempty h.isName
  rw [relativeId, h.relativeTo?_eq hc]
  exact if_pos (by simpa using hn)

theorem components_eq (hc : isAbsolute cwd = true) (h : LiesUnder cwd names file) :
    components (clean (join cwd file)) = components (clean cwd) ++ names.map .name := by
  have hd := isName_of_mem_resolve hc
  have ha : ∀ n ∈ resolve (components cwd) ++ names, IsName n :=
    fun n hn => (List.mem_append.mp hn).elim (hd n) (h.isName n)
  rw [h.path, clean_of_isAbsolute hc, components_rooted ha, components_rooted hd, List.map_append, List.cons_append]

end LiesUnder

theorem mem_toList_of_mem_segments (hs : seg ∈ segments p) (hc : c ∈ seg.toList) : c ∈ p.toList := by
  have ⟨piece, hp, he⟩ := List.mem_map.mp hs
  rw [← he, String.toList_ofList] at hc
  have ⟨first, others, hf⟩ := List.exists_cons_of_ne_nil (Text.pieces_ne_nil (· == '/') p.toList)
  have hi := Text.intercalate_pieces '/' p.toList
  rw [hf, Text.intercalate_cons] at hi
  rw [← hi, List.mem_append, List.mem_flatMap]
  rw [hf] at hp
  obtain rfl | hp := List.mem_cons.mp hp
  · exact .inl hc
  · exact .inr ⟨piece, hp, List.mem_cons_of_mem _ hc⟩

theorem isPlain_of_mem_resolve (hb : '\\' ∉ p.toList) :
    ∀ n ∈ resolve (components p), IsPlain n := by
  intro n hn
  have hm : n ∈ segments p := mem_segments_of_name_mem (mem_of_mem_resolve hn)
  exact ⟨slash_not_mem_of_mem_segments hm, fun hc => hb (mem_toList_of_mem_segments hm hc)⟩

theorem backslash_not_mem_join (hb : '\\' ∉ cwd.toList) (hf : '\\' ∉ file.toList) :
    '\\' ∉ (join cwd file).toList := by
  unfold join
  split <;> try split
  all_goals simp [hb, hf]

-- A clean path is told by its names, and so are the names by it.
theorem resolve_components_clean (h : isAbsolute p = true) :
    resolve (components (clean p)) = resolve (components p) := by
  rw [components_clean h, resolve, List.foldl_cons]
  simp [climb, foldl_climb_names]

namespace LiesUnder

theorem resolve_eq (hc : isAbsolute cwd = true) (h : LiesUnder cwd names file) :
    resolve (components (join cwd file)) = resolve (components cwd) ++ names := by
  rw [← resolve_components_clean (isAbsolute_join hc file), h.components_eq hc, resolve_append_names,
    resolve_components_clean hc]

theorem isPlain (hc : isAbsolute cwd = true) (hb : '\\' ∉ cwd.toList) (hf : '\\' ∉ file.toList)
    (h : LiesUnder cwd names file) : ∀ n ∈ names, IsPlain n := by
  intro n hn
  refine isPlain_of_mem_resolve (backslash_not_mem_join hb hf) n ?_
  rw [h.resolve_eq hc]
  exact List.mem_append_right _ hn

theorem segments_ruleId (hc : isAbsolute cwd = true) (hb : '\\' ∉ cwd.toList) (hf : '\\' ∉ file.toList)
    (h : LiesUnder cwd names file) : segments (ruleId file cwd) = names := by
  rw [h.ruleId_eq hc]
  exact segments_slashed_joinSegments h.nonempty (h.isPlain hc hb hf)

theorem isAbsolute_ruleId (hc : isAbsolute cwd = true) (hb : '\\' ∉ cwd.toList) (hf : '\\' ∉ file.toList)
    (h : LiesUnder cwd names file) : isAbsolute (ruleId file cwd) = false := by
  rw [h.ruleId_eq hc, slashed_joinSegments_eq_self (h.isPlain hc hb hf)]
  exact isAbsolute_joinSegments h.isName

theorem components_ruleId (hc : isAbsolute cwd = true) (hb : '\\' ∉ cwd.toList) (hf : '\\' ∉ file.toList)
    (h : LiesUnder cwd names file) : components (ruleId file cwd) = names.map .name := by
  rw [h.ruleId_eq hc, slashed_joinSegments_eq_self (h.isPlain hc hb hf), components_joinSegments h.nonempty h.isName]

end LiesUnder

theorem ruleId_of_not_isBelow (hc : isAbsolute cwd = true) (hb : '\\' ∉ cwd.toList) (hf : '\\' ∉ file.toList)
    (h : ¬IsBelow (clean (join cwd file)) (clean cwd)) : ruleId file cwd = clean (join cwd file) := by
  have hj := isAbsolute_join hc file
  have hs : slashed (clean (join cwd file)) = clean (join cwd file) := by
    have hn := isPlain_of_mem_resolve (backslash_not_mem_join hb hf)
    have hr : slashed "/" = "/" := slashed_eq_self (by decide)
    rw [clean_of_isAbsolute hj, slashed_append, hr, slashed_joinSegments_eq_self hn]
  by_cases hp : components (clean cwd) <+: components (clean (join cwd file))
  case neg =>
    have hn : (!(components (clean cwd)).isPrefixOf (components (clean (join cwd file)))) = true := by
      rwa [Bool.not_eq_true', ← Bool.not_eq_true, List.isPrefixOf_iff_prefix]
    have hr : relativeTo? (clean (join cwd file)) (clean cwd) = none := by
      rw [relativeTo?]
      exact if_pos hn
    unfold ruleId
    simp only [hr, hs]
  case pos =>
    -- Then it is the directory itself.
    have he : components (clean (join cwd file)) = components (clean cwd) := not_not.mp fun he => h ⟨hp, he⟩
    have he : clean (join cwd file) = clean cwd := by
      rw [clean_of_isAbsolute hj, clean_of_isAbsolute hc] at he ⊢
      rw [rooted_inj (isName_of_mem_resolve hj) (isName_of_mem_resolve hc) he]
    have hr : relativeTo? (clean cwd) (clean cwd) = some "" := by
      have hr := relativeTo?_rooted (isName_of_mem_resolve hc) (List.forall_mem_nil IsName)
      rwa [List.append_nil, ← clean_of_isAbsolute hc] at hr
    rw [he] at hs
    unfold ruleId
    simp only [he, hr]
    exact hs

-- The id tells a file that lies below the directory, however it and other files are spelled.
theorem ruleId_eq_iff (hc : isAbsolute cwd = true) (hb : '\\' ∉ cwd.toList) (hf : '\\' ∉ file.toList)
    (ho : '\\' ∉ other.toList) (h : IsBelow (clean (join cwd file)) (clean cwd)) :
    ruleId other cwd = ruleId file cwd ↔ clean (join cwd other) = clean (join cwd file) := by
  have ⟨names, hn⟩ := exists_liesUnder_of_isBelow hc h
  constructor
  case mpr =>
    intro he
    unfold ruleId
    rw [he]
  case mp =>
    intro he
    by_cases hbelow : IsBelow (clean (join cwd other)) (clean cwd)
    case pos =>
      have ⟨others, hm⟩ := exists_liesUnder_of_isBelow hc hbelow
      have hs : others = names := by
        rw [← hm.segments_ruleId hc hb ho, he, hn.segments_ruleId hc hb hf]
      rw [hm.path, hn.path, hs]
    case neg =>
      have ha : isAbsolute (ruleId other cwd) = true := by
        rw [ruleId_of_not_isBelow hc hb ho hbelow, clean_of_isAbsolute (isAbsolute_join hc other)]
        exact isAbsolute_rooted _
      rw [he, hn.isAbsolute_ruleId hc hb hf] at ha
      cases ha

end DuplicateBlocks.Path
