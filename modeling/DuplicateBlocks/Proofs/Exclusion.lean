import DuplicateBlocks.Exclusion
import DuplicateBlocks.Proofs.Code.Layout
import Mathlib.Algebra.GroupWithZero.Nat

namespace DuplicateBlocks

def Rejection.dropped? : Rejection → Option Nat
  | tooMany n => some n
  | _         => none

def Rejection.isUnusable : Rejection → Bool
  | unusable .. => true
  | _           => false

namespace Exclusion

variable {e : Exclusion} {p : String} {ps kept : List String} {i : Nat} {r : Rejection} {rs : List Rejection}
  {es : List (String × Nat)} {cs : List Char}

inductive Absolute : List Char → Prop
  | slash {cs : List Char} : Absolute ('/' :: cs)
  | backslash {cs : List Char} : Absolute ('\\' :: cs)
  | drive {c : Char} {cs : List Char} : c.isAlpha = true → Absolute (c :: ':' :: cs)

-- A text with a segment `..` between slashes of either kind.
def Climbs (cs : List Char) : Prop :=
  ['.', '.'] ∈ cs.splitOnP fun c => c == '/' || c == '\\'

structure Safe (pattern : String) : Prop where
  notBlank : ∃ c ∈ pattern.toList, Text.isBlank c = false
  length   : pattern.toList.length ≤ maxLength
  relative : ¬Absolute pattern.toList
  inside   : ¬Climbs pattern.toList

-- What the pattern at a position may be rejected for. The rejection tells which pattern it is about.
inductive Rejects (index : Nat) (pattern : String) : Rejection → Prop
  | blank : (∀ c ∈ pattern.toList, Text.isBlank c = true) → Rejects index pattern (.blank index)
  | tooLong : maxLength < pattern.toList.length → Rejects index pattern (.tooLong index pattern.toList.length)
  | absolute : Absolute pattern.toList → Rejects index pattern (.absolute pattern)
  | climbing : Climbs pattern.toList → Rejects index pattern (.climbing pattern)
  | notAGlob {fault : Ignore.LineFault} :
    Safe pattern → Ignore.Rule.ofLine pattern.toList = .error fault → Rejects index pattern (.notAGlob pattern fault)

-- Each of some entries is kept if it is safe and a glob, or else it is rejected once.
inductive Sifts : List (String × Nat) → List String → List Rejection → Prop
  | nil : Sifts [] [] []
  | keep {p : String} {i : Nat} {es : List (String × Nat)} {kept : List String} {rs : List Rejection} :
    Safe p → (Ignore.Rule.ofLine p.toList).isOk → Sifts es kept rs → Sifts ((p, i) :: es) (p :: kept) rs
  | reject {p : String} {i : Nat} {r : Rejection} {es : List (String × Nat)} {kept : List String}
    {rs : List Rejection} :
    Rejects i p r → Sifts es kept rs → Sifts ((p, i) :: es) kept (r :: rs)

namespace Sifts

theorem safe (h : Sifts es kept rs) : ∀ p ∈ kept, Safe p := by
  induction h
  case nil            => exact nofun
  case keep hp _ _ hi => exact List.forall_mem_cons.mpr ⟨hp, hi⟩
  case reject hi      => exact hi

theorem length (h : Sifts es kept rs) : kept.length + rs.length = es.length := by
  induction h
  case nil       => rfl
  case keep hi   => simp only [List.length_cons]; omega
  case reject hi => simp only [List.length_cons]; omega

theorem dropped? (h : Sifts es kept rs) : ∀ r ∈ rs, r.dropped? = none := by
  induction h
  case nil            => exact nofun
  case keep hi        => exact hi
  case reject hr _ hi => exact List.forall_mem_cons.mpr ⟨by cases hr <;> rfl, hi⟩

end Sifts

theorem isAbsolute_iff : isAbsolute cs = true ↔ Absolute cs := by
  simp only [isAbsolute, Bool.or_eq_true, beq_iff_eq, or_assoc]
  constructor
  case mp =>
    intro h
    obtain h | h | h := h
    case inl        => obtain ⟨_, rfl⟩ := List.head?_eq_some_iff.mp h; exact .slash
    case inr.inl    => obtain ⟨_, rfl⟩ := List.head?_eq_some_iff.mp h; exact .backslash
    case inr.inr    =>
      unfold hasDrive at h
      split at h
      case h_1 => exact .drive h
      case h_2 => cases h
  case mpr =>
    intro h
    cases h
    case slash     => exact .inl rfl
    case backslash => exact .inr (.inl rfl)
    case drive hc  => exact .inr (.inr hc)

theorem isClimbing_iff : isClimbing cs = true ↔ Climbs cs := by
  rw [isClimbing, Text.pieces_eq_splitOnP, List.contains_iff_mem]
  rfl

theorem rejects_or_safe (i : Nat) (p : String) :
    (∃ r, defect? i p = some r ∧ Rejects i p r) ∨ defect? i p = none ∧ Safe p := by
  simp only [defect?]
  split
  case isTrue hb => exact .inl ⟨_, rfl, .blank (List.all_eq_true.mp hb)⟩
  case isFalse hb =>
    split
    case isTrue hl => exact .inl ⟨_, rfl, .tooLong hl⟩
    case isFalse hl =>
      split
      case isTrue ha => exact .inl ⟨_, rfl, .absolute (isAbsolute_iff.mp ha)⟩
      case isFalse ha =>
        split
        case isTrue hc => exact .inl ⟨_, rfl, .climbing (isClimbing_iff.mp hc)⟩
        case isFalse hc =>
          refine .inr ⟨rfl, ?notBlank, Nat.not_lt.mp hl, isAbsolute_iff.not.mp ha, isClimbing_iff.not.mp hc⟩
          case notBlank => simpa using hb

def fault? (p : String) : Option Rejection :=
  match Ignore.Rule.ofLine p.toList with
  | .error f => some (.notAGlob p f)
  | .ok _    => none

theorem rejects_of_fault? (hs : Safe p) (h : fault? p = some r) : Rejects i p r := by
  unfold fault? at h
  split at h
  case h_1 hf => exact Option.some.inj h ▸ .notAGlob hs hf
  case h_2    => cases h

theorem isOk_of_fault? (h : fault? p = none) : (Ignore.Rule.ofLine p.toList).isOk := by
  unfold fault? at h
  cases hl : Ignore.Rule.ofLine p.toList <;> rw [hl] at h
  case error => cases h
  case ok    => rfl

theorem snd_add (e : Exclusion) (p : String) : (e.add p).2 = fault? p := by
  unfold add fault?
  cases Ignore.Rule.ofLine p.toList <;> rfl

theorem patterns_add (e : Exclusion) (p : String) :
    (e.add p).1.patterns = e.patterns ++ [p].filter fun p => (fault? p).isNone := by
  unfold add fault?
  cases h : Ignore.Rule.ofLine p.toList <;> simp [h]

theorem snd_addAll (e : Exclusion) (ps : List String) : (e.addAll ps).2 = ps.filterMap fault? := by
  induction ps generalizing e
  case nil => rfl
  case cons p ps hi =>
    simp only [addAll, snd_add, hi]
    cases hf : fault? p <;> simp [hf]

theorem patterns_addAll (e : Exclusion) (ps : List String) :
    (e.addAll ps).1.patterns = e.patterns ++ ps.filter fun p => (fault? p).isNone := by
  induction ps generalizing e
  case nil => simp [addAll]
  case cons p ps hi =>
    simp only [addAll, hi, patterns_add, List.append_assoc, ← List.filter_append, List.singleton_append]

def suitable (es : List (String × Nat)) : List String :=
  (es.filter fun e => (defect? e.2 e.1).isNone).map Prod.fst

-- Defects are found first and faulty globs after them all, but taken together they go entry by entry.
theorem exists_sifts (es : List (String × Nat)) :
    ∃ rs, Sifts es ((suitable es).filter fun p => (fault? p).isNone) rs ∧
      (es.filterMap (fun e => defect? e.2 e.1) ++ (suitable es).filterMap fault?).Perm rs := by
  induction es
  case nil => exact ⟨[], .nil, .nil⟩
  case cons e es hi =>
    have ⟨p, i⟩ := e
    have ⟨rs, hs, hp⟩ := hi
    obtain ⟨r, hd, hr⟩ | ⟨hd, hsafe⟩ := rejects_or_safe i p
    case inl =>
      have he : suitable ((p, i) :: es) = suitable es := by simp [suitable, hd]
      rw [he, List.filterMap_cons_some (by exact hd)]
      exact ⟨r :: rs, .reject hr hs, hp.cons r⟩
    case inr =>
      have he : suitable ((p, i) :: es) = p :: suitable es := by simp [suitable, hd]
      rw [he, List.filterMap_cons_none (by exact hd)]
      cases hf : fault? p
      case none =>
        rw [List.filterMap_cons_none hf, List.filter_cons_of_pos (by simp [hf])]
        exact ⟨rs, .keep hsafe (isOk_of_fault? hf) hs, hp⟩
      case some r =>
        rw [List.filterMap_cons_some hf, List.filter_cons_of_neg (by simp [hf])]
        exact ⟨r :: rs, .reject (rejects_of_fault? hsafe hf) hs, List.perm_middle.trans (hp.cons r)⟩

def entries (ps : List String) : List (String × Nat) :=
  (ps.take maxPatterns).zipIdx

-- What is in force if the patterns can be used together.
def compiled (ps : List String) : Exclusion :=
  (addAll {} (suitable (entries ps))).1

def surplus (ps : List String) : List Rejection :=
  if ps.length - maxPatterns = 0 then [] else [.tooMany (ps.length - maxPatterns)]

theorem filterMap_surplus (ps : List String) :
    (surplus ps).filterMap Rejection.dropped? =
      if maxPatterns < ps.length then [ps.length - maxPatterns] else [] := by
  unfold surplus
  split
  case isTrue h  => rw [if_neg (by omega)]; rfl
  case isFalse h => rw [if_pos (by omega)]; rfl

theorem filter_surplus (ps : List String) : (surplus ps).filter (·.dropped?.isNone) = [] := by
  unfold surplus
  split <;> rfl

theorem ofPatterns_eq (ps : List String) :
    ofPatterns ps =
      ((compiled ps).settle.1,
        (entries ps).filterMap (fun e => defect? e.2 e.1) ++ surplus ps ++
          (suitable (entries ps)).filterMap fault? ++ (compiled ps).settle.2.toList) := by
  have hs : (((entries ps).map fun e => (e.1, defect? e.2 e.1)).filter (·.2.isNone)).map Prod.fst =
      suitable (entries ps) := by
    rw [List.filter_map, List.map_map]
    rfl
  have hd : ((entries ps).map fun e => (e.1, defect? e.2 e.1)).filterMap Prod.snd =
      (entries ps).filterMap fun e => defect? e.2 e.1 :=
    List.filterMap_map
  rw [← snd_addAll {}, compiled, ← hs, ← hd]
  rfl

theorem patterns_compiled (ps : List String) :
    (compiled ps).patterns = (suitable (entries ps)).filter fun p => (fault? p).isNone := by
  rw [compiled, patterns_addAll]
  rfl

theorem suitable_sublist (es : List (String × Nat)) : (suitable es).Sublist (es.map Prod.fst) :=
  List.filter_sublist.map Prod.fst

theorem patterns_ofPatterns_sublist (ps : List String) :
    (ofPatterns ps).1.patterns.Sublist (ps.take maxPatterns) := by
  have hc : (compiled ps).patterns.Sublist (ps.take maxPatterns) := by
    have hm : (entries ps).map Prod.fst = ps.take maxPatterns := List.zipIdx_map_fst ..
    rw [patterns_compiled, ← hm]
    exact List.filter_sublist.trans (suitable_sublist _)
  rw [ofPatterns_eq, settle]
  split
  case h_1 => exact List.nil_sublist _
  case h_2 => exact hc

structure Accounts (ps kept : List String) (rejections : List Rejection) : Prop where
  sublist : kept.Sublist (ps.take maxPatterns)
  safe    : ∀ p ∈ kept, Safe p
  sifted  : ∃ rs, Sifts (ps.take maxPatterns).zipIdx kept rs ∧ (rejections.filter (·.dropped?.isNone)).Perm rs
  dropped : rejections.filterMap Rejection.dropped? =
              if maxPatterns < ps.length then [ps.length - maxPatterns] else []
  balance : kept.length + (rejections.filter (·.dropped?.isNone)).length +
              (rejections.filterMap Rejection.dropped?).sum = ps.length

theorem settle_compiled (h : ∀ r ∈ (ofPatterns ps).2, r.isUnusable = false) :
    (compiled ps).settle = (compiled ps, none) := by
  rw [ofPatterns_eq] at h
  unfold settle at h ⊢
  cases hf : Ignore.setFault? (compiled ps).rules
  case none => rfl
  case some f =>
    rw [hf] at h
    cases h (.unusable (compiled ps).patterns f) (List.mem_append_right _ List.mem_cons_self)

-- If the patterns that are left can be used together, every pattern that was given is kept, rejected or dropped.
theorem accounts_ofPatterns (ps : List String) (h : ∀ r ∈ (ofPatterns ps).2, r.isUnusable = false) :
    Accounts ps (ofPatterns ps).1.patterns (ofPatterns ps).2 := by
  have hsub := patterns_ofPatterns_sublist ps
  have ⟨rs, hs, hp⟩ := exists_sifts (entries ps)
  rw [ofPatterns_eq, settle_compiled h] at hsub ⊢
  rw [← patterns_compiled] at hs
  simp only [Option.toList_none, List.append_nil]
  generalize (entries ps).filterMap (fun e => defect? e.2 e.1) = defects at hp ⊢
  generalize (suitable (entries ps)).filterMap fault? = faults at hp ⊢
  have hn : ∀ r ∈ defects ++ faults, r.dropped? = none := fun r hr => hs.dropped? r (hp.mem_iff.mp hr)
  have ⟨hnd, hnf⟩ := List.forall_mem_append.mp hn
  have hd : (defects ++ surplus ps ++ faults).filterMap Rejection.dropped? =
      if maxPatterns < ps.length then [ps.length - maxPatterns] else [] := by
    rw [List.filterMap_append, List.filterMap_append, List.filterMap_eq_nil_iff.mpr hnd,
      List.filterMap_eq_nil_iff.mpr hnf, List.nil_append, List.append_nil, filterMap_surplus]
  have hf : (defects ++ surplus ps ++ faults).filter (·.dropped?.isNone) = defects ++ faults := by
    rw [List.filter_append, List.filter_append, filter_surplus, List.append_nil, ← List.filter_append]
    exact List.filter_eq_self.mpr fun r hr => Option.isNone_iff_eq_none.mpr (hn r hr)
  constructor
  case sublist => exact hsub
  case safe    => exact hs.safe
  case sifted  => exact ⟨rs, hs, hf ▸ hp⟩
  case dropped => exact hd
  case balance =>
    have hl := hs.length
    rw [hf, hd, hp.length_eq, hl, entries, List.length_zipIdx, List.length_take]
    split <;> simp <;> omega

-- More patterns than are looked at, some of them twice, and some to be rejected, for one reason or another.
def various : List String :=
  ["dist/", " ", "/etc", "C:x", "a\\..", "\x7ba", "dist/"] ++ List.replicate 95 "gen"

theorem accounts_various :
    (∀ r ∈ (ofPatterns various).2, r.isUnusable = false) ∧
      Accounts various (ofPatterns various).1.patterns (ofPatterns various).2 ∧
      (ofPatterns various).1.patterns = ["dist/", "dist/"] ++ List.replicate 93 "gen" ∧
      (ofPatterns various).2.length = 6 := by
  have ⟨h, he⟩ : (∀ r ∈ (ofPatterns various).2, r.isUnusable = false) ∧
      (ofPatterns various).1.patterns = ["dist/", "dist/"] ++ List.replicate 93 "gen" ∧
      (ofPatterns various).2.length = 6 := by
    decide +kernel
  exact ⟨h, accounts_ofPatterns various h, he⟩

end Exclusion
end DuplicateBlocks
