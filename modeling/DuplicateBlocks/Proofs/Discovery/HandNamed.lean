import DuplicateBlocks.Proofs.Discovery.Origins
import DuplicateBlocks.Proofs.Path.Relative

namespace DuplicateBlocks.Discovery

open DuplicateBlocks.Path

variable {top : Tree.Node} {here cwd file path id : String} {o : Options} {label given : Option String}
  {spot : Tree.Spot} {what : Finding} {names : List String}

theorem id_eq_of_liesUnder (hc : isAbsolute cwd = true) (hs : spot.node.Proper IsName)
    (h : .file path id given what ∈ rootEvents top here o (clean cwd) label spot)
    (hp : join (clean cwd) path = clean (join cwd file)) (hn : LiesUnder cwd names file) :
    id = slashed (joinSegments names) := by
  have ha : isAbsolute (clean cwd) = true := clean_of_isAbsolute hc ▸ isAbsolute_rooted _
  have hnames := congrArg components hp
  rw [hn.components_eq hc] at hnames
  rcases (file_mem_rootEvents h).right with ⟨entries, bars, found, hm, hd, rfl, rfl, _⟩ | ⟨rfl, _, _⟩
  case inl =>
    have hproper : (Tree.Node.directory entries bars).Proper IsName := hd ▸ hs
    have hfound : ∀ n ∈ found, IsName n := by
      obtain ⟨rest, rfl, hp⟩ := (Walk.spread_items hproper).below found hm
      exact hp
    rw [components_join_joinSegments ha (Walk.ne_nil_of_mem_items hproper hm) hfound] at hnames
    have he : found = names :=
      List.map_injective_iff.mpr (fun _ _ he => Component.name.inj he) (List.append_cancel_left hnames)
    rw [he]
  case inr =>
    -- The file is not the directory itself.
    have hj : join (clean cwd) (clean cwd) = clean cwd := by simp [join, ha]
    rw [hj] at hnames
    exact absurd hnames (by simp [hn.nonempty])

-- How the id of a file named by hand agrees with the one that the file has on a walk of the working directory.
structure Agrees (cwd file : String) : Prop where
  relative : ruleId file cwd = relativeId (clean cwd) (clean (join cwd file))
  -- The id is made of the names that lead to the file, so that it has no dots in their place and no slash in front.
  names    : ∃ names : List String, names ≠ [] ∧ (∀ n ∈ names, IsName n) ∧ segments (ruleId file cwd) = names ∧
              components (ruleId file cwd) = names.map .name ∧
              components (clean (join cwd file)) = components (clean cwd) ++ names.map .name
  inside   : isAbsolute (ruleId file cwd) = false
  spelled  : ∀ other : String, '\\' ∉ other.toList →
              (ruleId other cwd = ruleId file cwd ↔ clean (join cwd other) = clean (join cwd file))
  walked   : ∀ {top : Tree.Node} {here path id : String} {o : Options} {label given : Option String}
              {spot : Tree.Spot} {what : Finding}, spot.node.Proper IsName →
              .file path id given what ∈ rootEvents top here o (clean cwd) label spot →
              join (clean cwd) path = clean (join cwd file) →
              id = ruleId file cwd ∧ o.excluded.excludes id = o.excluded.excludes (ruleId file cwd)

-- A file below the working directory has one id, however it is come by. (A backslash would become a slash in it.)
theorem agrees_of_isBelow (hc : isAbsolute cwd = true) (hb : '\\' ∉ cwd.toList) (hf : '\\' ∉ file.toList)
    (h : IsBelow (clean (join cwd file)) (clean cwd)) : Agrees cwd file := by
  have ⟨names, hn⟩ := exists_liesUnder_of_isBelow hc h
  constructor
  case relative => rw [hn.ruleId_eq hc, hn.relativeId_eq hc]
  case names    =>
    exact ⟨names, hn.nonempty, hn.isName, hn.segments_ruleId hc hb hf, hn.components_ruleId hc hb hf,
      hn.components_eq hc⟩
  case inside   => exact hn.isAbsolute_ruleId hc hb hf
  case spelled  => exact fun other ho => ruleId_eq_iff hc hb hf ho h
  case walked   =>
    intro top here path id o label given spot what hs hm hp
    have he : id = ruleId file cwd := (id_eq_of_liesUnder hc hs hm hp hn).trans (hn.ruleId_eq hc).symm
    exact ⟨he, he ▸ rfl⟩

-- A way beyond the root and back, and a walk that meets the same file.
theorem agrees_climbing :
    isAbsolute "/x/../c" = true ∧ '\\' ∉ "/x/../c".toList ∧ '\\' ∉ "../../../c//a/src/./../b.ts".toList ∧
      IsBelow (clean (join "/x/../c" "../../../c//a/src/./../b.ts")) (clean "/x/../c") ∧
      Agrees "/x/../c" "../../../c//a/src/./../b.ts" ∧
      .file "a/b.ts" "a/b.ts" none (.file []) ∈
        rootEvents doubled "/" unruled (clean "/x/../c") none ⟨["c"], .directory doubledEntries⟩ ∧
      "a/b.ts" = ruleId "../../../c//a/src/./../b.ts" "/x/../c" := by
  have hc : isAbsolute "/x/../c" = true := by decide +kernel
  have hb : '\\' ∉ "/x/../c".toList := by decide +kernel
  have hf : '\\' ∉ "../../../c//a/src/./../b.ts".toList := by decide +kernel
  have h : IsBelow (clean (join "/x/../c" "../../../c//a/src/./../b.ts")) (clean "/x/../c") := by decide +kernel
  have ha := agrees_of_isBelow hc hb hf h
  have hm : .file "a/b.ts" "a/b.ts" none (.file []) ∈
      rootEvents doubled "/" unruled (clean "/x/../c") none ⟨["c"], .directory doubledEntries⟩ := by
    have hr : clean "/x/../c" = "/c" := by decide +kernel
    rw [hr, rootEvents_doubled]
    exact List.mem_cons_self
  have hp : (Tree.Node.directory doubledEntries).Proper IsName := by
    simp [doubledEntries, Tree.proper_directory_iff, IsName, Tree.Node.Proper.file]
  exact ⟨hc, hb, hf, h, ha, hm, (ha.walked hp hm (by decide +kernel)).left⟩

end DuplicateBlocks.Discovery
