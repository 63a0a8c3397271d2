import DuplicateBlocks.Proofs.Discovery.Origins

namespace DuplicateBlocks.Discovery

variable {top : Tree.Node} {root path : String} {o : Options} {t : Toolbox} {base spot : Tree.Spot} {file : Source}
  {content : List UInt8} {paths : List String}

theorem at?_iff_of_stagedOrigin (hr : Tree.find top true root = .ok base)
    (h : StagedOrigin top root paths file content) :
    ∃ names : List String, Path.components file.id = names.map .name ∧
      (top.at? (base.names ++ names) = some (.file content) ↔ Tree.Unlinked top base.names names) := by
  cases h
  case intro path position listed safe leads =>
    have ⟨names, hc, hs⟩ := Path.exists_names_of_isSafeRelative safe
    refine ⟨names, hc, fun ha => Tree.unlinked_of_isSome (by simp [ha]), ?_⟩
    intro hu
    have ⟨links, hreach⟩ := Tree.reaches_of_find_join hr (Path.isAbsolute_of_isSafeRelative safe) leads
    have hfile : top.at? position = some (.file content) := Tree.at?_of_find leads
    have he : position = base.names ++ names := hreach.eq_append hs hu (by simp [hfile])
    exact he ▸ hfile

-- A staged file that is returned was listed, and its path leads to a file that is no link. The file lies below the
-- root, under the names in that path, if and only if no directory on the way to it is a link.
theorem stands_searchStaged_iff_unlinked (top : Tree.Node) (o : Options) (hp : t.stagedPaths root = .ok paths)
    (hr : Tree.find top true root = .ok base) :
    ∃ haul, searchStaged top t o root = .ok haul ∧ ∀ file ∈ haul.files, ∃ names content,
      StagedOrigin top root paths file content ∧ Path.components file.id = names.map .name ∧
      (top.at? (base.names ++ names) = some (.file content) ↔ Tree.Unlinked top base.names names) := by
  refine ⟨_, searchStaged_eq_ok top o hp, ?_⟩
  intro file hf
  have ⟨content, hm⟩ := exists_mem_reads_of_mem_files hf
  have ho : StagedOrigin top root paths file content := stagedOrigin_of_mem_reads hm
  have ⟨names, hc, ha⟩ := at?_iff_of_stagedOrigin hr ho
  exact ⟨names, content, ho, hc, ha⟩

theorem stands_searchStaged_forked :
    ∃ haul, searchStaged forked (listing ["src/x.ts"]) unruled "/a" = .ok haul ∧ haul.files = [⟨"src/x.ts", []⟩] ∧
      ∀ file ∈ haul.files, ∃ names content,
        StagedOrigin forked "/a" ["src/x.ts"] file content ∧ Path.components file.id = names.map .name ∧
        (forked.at? (["a"] ++ names) = some (.file content) ↔ Tree.Unlinked forked ["a"] names) := by
  have hp : (listing ["src/x.ts"]).stagedPaths "/a" = .ok ["src/x.ts"] := rfl
  have hr : Tree.find forked true "/a" = .ok ⟨["a"], .directory [("src", .directory [("x.ts", .file [])])]⟩ :=
    Tree.find_eq_ok (by decide +kernel) rfl (by simp)
  have ⟨haul, hs, hf⟩ := stands_searchStaged_iff_unlinked forked unruled hp hr
  refine ⟨haul, hs, ?_, hf⟩
  cases hs.symm.trans (searchStaged_eq_ok forked unruled hp)
  decide +kernel

def strayed : Tree.Node :=
  .directory [("out", .directory [("x.ts", .file [])]), ("repo", .directory [("d", .link "../out")])]

theorem at?_strayed_ne_file (names : List String) (content : List UInt8) :
    strayed.at? ("repo" :: names) ≠ some (.file content) := by
  intro h
  have hd : (Tree.Node.directory [("d", .link "../out")]).at? names = some (.file content) := h
  cases names
  case nil => cases hd
  case cons name rest =>
    have ⟨below, hm, hb⟩ := Tree.exists_mem_of_at?_cons hd
    cases List.mem_singleton.mp hm
    cases rest <;> cases hb

-- The root holds no file, and yet one is returned.
theorem searchStaged_strayed :
    Tree.find strayed true "/repo" = .ok ⟨["repo"], .directory [("d", .link "../out")]⟩ ∧
      (∀ names content, strayed.at? (["repo"] ++ names) ≠ some (.file content)) ∧
      ∃ haul, searchStaged strayed (listing ["d/x.ts"]) unruled "/repo" = .ok haul ∧ haul.files = [⟨"d/x.ts", []⟩] := by
  have hp : (listing ["d/x.ts"]).stagedPaths "/repo" = .ok ["d/x.ts"] := rfl
  refine ⟨Tree.find_eq_ok (by decide +kernel) rfl (by simp), at?_strayed_ne_file, _, searchStaged_eq_ok _ _ hp, ?_⟩
  decide +kernel

end DuplicateBlocks.Discovery
