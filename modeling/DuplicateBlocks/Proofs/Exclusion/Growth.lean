import DuplicateBlocks.Proofs.Exclusion
import DuplicateBlocks.Proofs.Ignore
import Mathlib.Data.List.DropRight

namespace DuplicateBlocks

namespace Ignore

variable {rules : List Rule} {r : Rule} {line : List Char}

theorem significant_prefix (line : List Char) : significant line <+: line := by
  unfold significant
  split
  case isTrue  => exact List.prefix_rfl
  case isFalse => exact List.rdropWhile_prefix Text.isBlank line

theorem fst_unmark_of_head? (h : line.head? ≠ some '!') : (unmark line).1 = false := by
  unfold unmark
  split <;> simp_all

theorem isException_of_ofLine (hl : line.head? ≠ some '!') (h : Rule.ofLine line = .ok (some r)) :
    r.isException = false := by
  have hk : (significant line).head? ≠ some '!' := by
    intro hs
    have ⟨rest, hk⟩ := List.head?_eq_some_iff.mp hs
    have ⟨blanks, he⟩ := significant_prefix line
    rw [← he, hk] at hl
    exact hl rfl
  unfold Rule.ofLine at h
  simp only at h
  split at h
  case isTrue => cases h
  case isFalse =>
    split at h
    case isTrue => cases h
    case isFalse =>
      split at h <;> cases h
      exact fst_unmark_of_head? hk

-- One rule that nests too deep is enough to keep all of them from being used.
theorem setFault?_ne_none {fixesExtension : Bool} (hr : r ∈ rules)
    (hk : Glob.kind r.glob = .expression fixesExtension) (hd : Glob.isTooDeep r.glob = true) :
    setFault? rules ≠ none := by
  have hm : r.glob ∈ (rules.map Rule.glob).filter fun glob => Glob.kind glob == .expression fixesExtension :=
    List.mem_filter.mpr ⟨List.mem_map_of_mem hr, by simp [hk]⟩
  intro h
  unfold setFault? at h
  simp only at h
  split at h
  case h_1 => cases h
  case h_2 hf =>
    cases fixesExtension
    case true  => exact List.find?_eq_none.mp hf _ hm hd
    case false =>
      have hi := List.findIdx?_eq_none_iff.mp (Option.map_eq_none_iff.mp h) _ hm
      rw [hd] at hi
      cases hi

end Ignore

namespace Exclusion

variable {e e' : Exclusion} {q id : String} {ps : List String}

theorem excludes_of_forall_ignored
    (hr : ∀ isDirectory path, Ignore.verdict? e.rules isDirectory path = some .ignored →
      Ignore.verdict? e'.rules isDirectory path = some .ignored)
    (h : e.excludes id = true) : e'.excludes id = true := by
  simp only [excludes, Bool.and_eq_true, Bool.or_eq_true, List.any_eq_true, beq_iff_eq] at h ⊢
  refine ⟨h.1, h.2.imp (hr _ _) ?_⟩
  rintro ⟨dir, hd, hn, hv⟩
  exact ⟨dir, hd, hn, hr _ _ hv⟩

def rule? (p : String) : Option Ignore.Rule :=
  (Ignore.Rule.ofLine p.toList).toOption.join

theorem rules_add (e : Exclusion) (p : String) : (e.add p).1.rules = e.rules ++ (rule? p).toList := by
  unfold add rule?
  cases Ignore.Rule.ofLine p.toList
  case error => simp [Except.toOption]
  case ok    => rfl

theorem rules_addAll (e : Exclusion) (ps : List String) : (e.addAll ps).1.rules = e.rules ++ ps.filterMap rule? := by
  induction ps generalizing e
  case nil => simp [addAll]
  case cons p ps hi =>
    simp only [addAll, hi, rules_add, List.append_assoc]
    cases hr : rule? p <;> simp [hr]

theorem rules_compiled (ps : List String) : (compiled ps).rules = (suitable (entries ps)).filterMap rule? := by
  rw [compiled, rules_addAll]
  rfl

theorem entries_concat (ps : List String) (q : String) :
    entries (ps ++ [q]) = entries ps ++ if ps.length < maxPatterns then [(q, ps.length)] else [] := by
  unfold entries
  split
  case isTrue hl =>
    have hq : (ps ++ [q]).length ≤ maxPatterns := by rw [List.length_append]; exact hl
    rw [List.take_of_length_le hq, List.take_of_length_le (Nat.le_of_lt hl), List.zipIdx_append, Nat.zero_add]
    rfl
  case isFalse hl => rw [List.take_append_of_le_length (Nat.not_lt.mp hl), List.append_nil]

theorem suitable_append (es more : List (String × Nat)) : suitable (es ++ more) = suitable es ++ suitable more := by
  simp [suitable]

-- One more pattern adds its own rule, or none.
theorem exists_rules_compiled_concat (ps : List String) (q : String) :
    ∃ more, (compiled (ps ++ [q])).rules = (compiled ps).rules ++ more ∧ ∀ r ∈ more, rule? q = some r := by
  simp only [rules_compiled, entries_concat, suitable_append, List.filterMap_append]
  refine ⟨_, rfl, ?_⟩
  intro r hr
  have ⟨p, hp, hr⟩ := List.mem_filterMap.mp hr
  have hm := (suitable_sublist _).subset hp
  split at hm
  case isTrue  => cases List.mem_singleton.mp hm; exact hr
  case isFalse => cases hm

theorem isException_of_rule? {r : Ignore.Rule} (hq : q.toList.head? ≠ some '!') (h : rule? q = some r) :
    r.isException = false := by
  unfold rule? at h
  cases hl : Ignore.Rule.ofLine q.toList <;> rw [hl] at h
  case error  => cases h
  case ok one =>
    have hr : one = some r := by simpa [Except.toOption] using h
    exact Ignore.isException_of_ofLine hq (hl.trans (congrArg Except.ok hr))

theorem excludes_of_rules_eq_nil (h : e.rules = []) (id : String) : e.excludes id = false := by
  simp [excludes, h, Ignore.verdict?]

theorem Sifts.isUnusable {es : List (String × Nat)} {kept : List String} {rs : List Rejection} (h : Sifts es kept rs) :
    ∀ r ∈ rs, r.isUnusable = false := by
  induction h
  case nil            => exact nofun
  case keep hi        => exact hi
  case reject hr _ hi => exact List.forall_mem_cons.mpr ⟨by cases hr <;> rfl, hi⟩

-- The patterns are told to be unusable exactly if their rules are.
theorem isUnusable_iff :
    (∀ r ∈ (ofPatterns ps).2, r.isUnusable = false) ↔ Ignore.setFault? (compiled ps).rules = none := by
  constructor
  case mp =>
    intro h
    have hs := settle_compiled h
    unfold settle at hs
    split at hs
    case h_1    => cases congrArg Prod.snd hs
    case h_2 hf => exact hf
  case mpr =>
    intro h r hr
    have ⟨rs, hs, hp⟩ := exists_sifts (entries ps)
    rw [ofPatterns_eq, settle, h] at hr
    simp only [List.mem_append, Option.toList_none, List.not_mem_nil, or_false] at hr
    obtain (hd | hd) | hf := hr
    · exact hs.isUnusable r (hp.mem_iff.mp (List.mem_append_left _ hd))
    · unfold surplus at hd
      split at hd
      case isTrue  => cases hd
      case isFalse => cases List.mem_singleton.mp hd; rfl
    · exact hs.isUnusable r (hp.mem_iff.mp (List.mem_append_right _ hf))

-- Nothing is excluded by patterns that cannot be used together.
theorem setFault?_of_excludes (h : (ofPatterns ps).1.excludes id = true) :
    Ignore.setFault? (compiled ps).rules = none := by
  rw [ofPatterns_eq, settle] at h
  split at h
  case h_1    => rw [excludes_of_rules_eq_nil rfl] at h; cases h
  case h_2 hf => exact hf

theorem fst_ofPatterns (h : Ignore.setFault? (compiled ps).rules = none) : (ofPatterns ps).1 = compiled ps := by
  rw [ofPatterns_eq, settle, h]

-- One more pattern that is no exception leaves excluded what is so, whatever becomes of the pattern, unless it makes
-- all of them unusable.
theorem excludes_ofPatterns_concat_iff (hq : q.toList.head? ≠ some '!') (h : (ofPatterns ps).1.excludes id = true) :
    (ofPatterns (ps ++ [q])).1.excludes id = true ↔ ∀ r ∈ (ofPatterns (ps ++ [q])).2, r.isUnusable = false := by
  rw [isUnusable_iff]
  constructor
  case mp => exact setFault?_of_excludes
  case mpr =>
    intro hf
    rw [fst_ofPatterns (setFault?_of_excludes h)] at h
    rw [fst_ofPatterns hf]
    have ⟨more, hr, hm⟩ := exists_rules_compiled_concat ps q
    refine excludes_of_forall_ignored (fun isDirectory path hv => ?_) h
    rw [hr]
    exact Ignore.lastDecides_verdict?.append_eq_ignored
      (fun r hr => Ignore.ignored_of_says? (isException_of_rule? hq (hm r hr))) hv

def ruled : List String :=
  ["*.ts", "!keep.ts", "dist/"]

theorem excludes_ruled_concat :
    "*.js".toList.head? ≠ some '!' ∧ (ofPatterns ruled).1.excludes "dist/keep.ts" = true ∧
      (ofPatterns ruled).1.excludes "keep.ts" = false ∧
      (∀ r ∈ (ofPatterns (ruled ++ ["*.js"])).2, r.isUnusable = false) ∧
      (ofPatterns (ruled ++ ["*.js"])).1.excludes "dist/keep.ts" = true := by
  have hq : "*.js".toList.head? ≠ some '!' := by decide
  have h : (ofPatterns ruled).1.excludes "dist/keep.ts" = true := by decide +kernel
  have hu : ∀ r ∈ (ofPatterns (ruled ++ ["*.js"])).2, r.isUnusable = false := by decide +kernel
  exact ⟨hq, h, by decide +kernel, hu, (excludes_ofPatterns_concat_iff hq h).mpr hu⟩

-- A name in so many groups that its expression nests too deep.
def nestedChars : List Char :=
  List.replicate 250 '\x7b' ++ 'a' :: List.replicate 250 '\x7d'

def nested : String :=
  String.ofList nestedChars

theorem toList_nested : nested.toList = nestedChars :=
  String.toList_ofList

theorem exists_rule?_nested :
    ∃ r, rule? nested = some r ∧ Glob.kind r.glob = .expression false ∧ Glob.isTooDeep r.glob = true := by
  have h : (rule? nested).any (fun r => Glob.kind r.glob == .expression false && Glob.isTooDeep r.glob) = true := by
    rw [rule?, toList_nested]
    decide +kernel
  simpa [Option.any_eq_true] using h

theorem defect?_nested : defect? 1 nested = none := by
  simp only [defect?, toList_nested]
  decide +kernel

-- With such a pattern no other one is in force.
theorem excludes_nested_eq_false :
    nested.toList.head? ≠ some '!' ∧ (ofPatterns ["b"]).1.excludes "b" = true ∧
      (ofPatterns (["b"] ++ [nested])).1.excludes "b" = false := by
  refine ⟨by rw [toList_nested]; decide, by decide +kernel, ?_⟩
  have ⟨r, hr, hk, hd⟩ := exists_rule?_nested
  have hm : r ∈ (compiled ["b", nested]).rules := by
    rw [rules_compiled, List.mem_filterMap]
    have he : (nested, 1) ∈ entries ["b", nested] := List.mem_cons_of_mem _ List.mem_cons_self
    exact ⟨nested, List.mem_map.mpr ⟨_, List.mem_filter.mpr ⟨he, by simp [defect?_nested]⟩, rfl⟩, hr⟩
  by_contra hx
  exact Ignore.setFault?_ne_none hm hk hd (setFault?_of_excludes (Bool.eq_true_of_not_eq_false hx))

end Exclusion
end DuplicateBlocks
