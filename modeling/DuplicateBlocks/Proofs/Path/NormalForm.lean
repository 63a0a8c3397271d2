import DuplicateBlocks.Proofs.Path.Relative

namespace DuplicateBlocks.Path

variable {p q seg : String} {cs ds : List Component} {names : List String}

theorem isAbsolute_clean (h : isAbsolute p = true) : isAbsolute (clean p) = true :=
  clean_of_isAbsolute h ▸ isAbsolute_rooted _

theorem clean_clean (h : isAbsolute p = true) : clean (clean p) = clean p := by
  rw [clean_of_isAbsolute (isAbsolute_clean h), resolve_components_clean h, ← clean_of_isAbsolute h]

theorem resolve_append_congr (h : resolve cs = resolve ds) (es : List Component) :
    resolve (cs ++ es) = resolve (ds ++ es) := by
  have hs : cs.foldl climb [] = ds.foldl climb [] := List.reverse_inj.mp h
  rw [resolve, resolve, List.foldl_append, List.foldl_append, hs]

theorem join_of_isAbsolute (h : isAbsolute q = true) (base : String) : join base q = q := by
  simp [join, h]

theorem clean_join_clean (h : isAbsolute p = true) (q : String) : clean (join (clean p) q) = clean (join p q) := by
  cases hq : isAbsolute q
  case true  => rw [join_of_isAbsolute hq, join_of_isAbsolute hq]
  case false =>
    have hc := isAbsolute_clean h
    rw [clean_of_isAbsolute (isAbsolute_join hc q), clean_of_isAbsolute (isAbsolute_join h q), components_join hc hq,
      components_join h hq, resolve_append_congr (resolve_components_clean h)]

theorem mem_segments_rooted (h : ∀ n ∈ names, IsName n) (hs : seg ∈ segments ("/" ++ joinSegments names)) :
    seg = "" ∨ seg ∈ names := by
  have hr : segments ("/" ++ joinSegments names) = "" :: segments (joinSegments names) :=
    segments_append_slash "" (joinSegments names)
  rw [hr, List.mem_cons] at hs
  by_cases hn : names = []
  case pos =>
    subst hn
    exact .inl (hs.elim id List.mem_singleton.mp)
  case neg => rwa [segments_joinSegments hn fun n hm => (h n hm).1] at hs

-- What cleaning makes of a path.
structure Normalizes (p : String) : Prop where
  absolute : isAbsolute (clean p) = true
  undotted : (∀ c ∈ components (clean p), c ≠ .here ∧ c ≠ .up) ∧
              ∀ seg ∈ segments (clean p), seg ≠ "." ∧ seg ≠ ".."
  again    : clean (clean p) = clean p
  joined   : ∀ q, clean (join p q) = clean (join (clean p) q)
  names    : components (clean p) = .root :: (resolve (components p)).map .name

theorem normalizes_of_isAbsolute (h : isAbsolute p = true) : Normalizes p where
  absolute := isAbsolute_clean h
  undotted := by
    refine ⟨by simp [components_clean h], fun seg hs => ?_⟩
    rw [clean_of_isAbsolute h] at hs
    have hn := isName_of_mem_resolve h
    obtain rfl | hm := mem_segments_rooted hn hs
    case inl => decide
    case inr =>
      have ⟨_, _, hd, hu⟩ := hn seg hm
      exact ⟨hd, hu⟩
  again    := clean_clean h
  joined q := (clean_join_clean h q).symm
  names    := components_clean h

-- More ways up than names, right behind the root and again after a join.
theorem normalizes_climbing :
    isAbsolute "/../a//./b/../../../c/." = true ∧ Normalizes "/../a//./b/../../../c/." ∧
      resolve (components "/../a//./b/../../../c/.") = ["c"] ∧ clean "/../a//./b/../../../c/." = "/c" ∧
      clean (join "/../a//./b/../../../c/." "../../d/..//e/") = "/e" := by
  have ha : isAbsolute "/../a//./b/../../../c/." = true := by decide +kernel
  have hn := normalizes_of_isAbsolute ha
  have hc : clean "/../a//./b/../../../c/." = "/c" := by decide +kernel
  have he : clean (join "/c" "../../d/..//e/") = "/e" := by decide +kernel
  exact ⟨ha, hn, by decide +kernel, hc, by rw [hn.joined, hc, he]⟩

end DuplicateBlocks.Path
