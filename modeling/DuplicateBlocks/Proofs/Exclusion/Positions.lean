import DuplicateBlocks.Proofs.Settings

namespace DuplicateBlocks

variable {r : Rejection} {s : String} {i p n : Nat}

def Rejection.position? : Rejection → Option Nat
  | notAString i => some i
  | blank i      => some i
  | tooLong i _  => some i
  | _            => none

namespace Exclusion

variable {ps : List String}

def IsBlank (s : String) : Prop :=
  ∀ c ∈ s.toList, Text.isBlank c = true

theorem position?_of_mem_surplus (h : r ∈ surplus ps) : r.position? = none := by
  unfold surplus at h
  split at h
  case isTrue  => cases h
  case isFalse => cases List.mem_singleton.mp h; rfl

theorem position?_of_fault? (h : fault? s = some r) : r.position? = none := by
  unfold fault? at h
  split at h <;> cases h
  rfl

theorem position?_of_settle {e : Exclusion} (h : e.settle.2 = some r) : r.position? = none := by
  unfold settle at h
  split at h <;> cases h
  rfl

theorem defect?_of_isBlank (i : Nat) (h : IsBlank s) : defect? i s = some (.blank i) :=
  if_pos (List.all_eq_true.mpr h)

theorem defect?_of_not_isBlank (i : Nat) (h : ¬IsBlank s) :
    defect? i s =
      if maxLength < s.toList.length then some (.tooLong i s.toList.length)
      else if isAbsolute s.toList then some (.absolute s)
      else if isClimbing s.toList then some (.climbing s)
      else none :=
  if_neg (mt List.all_eq_true.mp h)

-- The defects that are told by a place. The others tell the pattern itself.
theorem defect?_eq_some_iff (hr : r.position?.isSome) :
    defect? i s = some r ↔
      IsBlank s ∧ r = .blank i ∨ ¬IsBlank s ∧ maxLength < s.toList.length ∧ r = .tooLong i s.toList.length := by
  by_cases hb : IsBlank s
  case pos => simp [defect?_of_isBlank i hb, hb, eq_comm]
  case neg =>
    simp only [defect?_of_not_isBlank i hb, hb, not_false_eq_true, false_and, true_and, false_or]
    split
    case isTrue hl => simp [hl, eq_comm]
    case isFalse hl =>
      simp only [hl, false_and, iff_false]
      split
      case isTrue => rintro ⟨⟩; cases hr
      case isFalse =>
        split
        case isTrue  => rintro ⟨⟩; cases hr
        case isFalse => exact nofun

theorem mem_entries_iff : (s, i) ∈ entries ps ↔ ps[i]? = some s ∧ i < maxPatterns := by
  rw [entries, List.mk_mem_zipIdx_iff_getElem?, List.getElem?_take]
  split <;> simp_all

theorem mem_ofPatterns_iff (hr : r.position?.isSome) :
    r ∈ (ofPatterns ps).2 ↔ ∃ s i, (ps[i]? = some s ∧ i < maxPatterns) ∧ defect? i s = some r := by
  have hn : r.position? ≠ none := Option.isSome_iff_ne_none.mp hr
  have hs : r ∉ surplus ps := mt position?_of_mem_surplus hn
  have hf : r ∉ (suitable (entries ps)).filterMap fault? := by
    rw [List.mem_filterMap]
    exact fun ⟨_, _, h⟩ => hn (position?_of_fault? h)
  have hu : r ∉ (compiled ps).settle.2.toList := fun h => hn (position?_of_settle (Option.mem_toList.mp h))
  simp only [ofPatterns_eq, List.mem_append, hs, hf, hu, or_false]
  simp only [List.mem_filterMap, Prod.exists, mem_entries_iff]

end Exclusion

namespace Options

variable {raw : Raw} {items : List Json}

-- How many strings stand in front of a place.
def rank (items : List Json) (p : Nat) : Nat :=
  (items.take p).countP (·.string?.isSome)

theorem rank_cons_succ (v : Json) (items : List Json) (p : Nat) :
    rank (v :: items) (p + 1) = rank items p + if v.string?.isSome then 1 else 0 :=
  List.countP_cons

theorem rank_eq_self_iff (hp : p ≤ items.length) : rank items p = p ↔ ∀ v ∈ items.take p, v.string?.isSome = true := by
  rw [← List.countP_eq_length, List.length_take_of_le hp]
  rfl

theorem getElem?_filterMap_eq_some_iff :
    (items.filterMap Json.string?)[i]? = some s ↔ ∃ p, items[p]? = some (.string s) ∧ i = rank items p := by
  induction items generalizing i
  case nil => simp
  case cons v items hi =>
    rw [← Nat.or_exists_add_one]
    simp only [List.getElem?_cons_zero, List.getElem?_cons_succ, rank_cons_succ]
    cases hv : v.string?
    case none =>
      have hn : v ≠ .string s := by rintro rfl; cases hv
      simp [hv, hn, hi]
    case some t =>
      have ht : v = .string t := by cases v <;> cases hv; rfl
      cases i <;> simp [ht, hi, Json.string?, rank]

theorem rejectedPattern_not_mem_minLines (default : Nat) (given : Option Json) :
    .rejectedPattern r ∉ (minLines default given).2 := by
  cases given
  case none => exact List.not_mem_nil
  case some v =>
    cases hx : number? v
    case none   => simp [minLines, hx]
    case some x =>
      rw [minLines_of_number? default hx]
      repeat' split
      all_goals simp

theorem rejectedPattern_not_mem_threshold (default : Nat) (given : Option Json) :
    .rejectedPattern r ∉ (threshold default given).2 := by
  unfold threshold
  repeat' split
  all_goals simp

theorem rejectedPattern_not_mem_ceiling (key : Key) (default : Nat) (given : Option Json) :
    .rejectedPattern r ∉ (ceiling key default given).2 := by
  unfold ceiling
  repeat' split
  all_goals simp

theorem rejectedPattern_mem_resolve_iff :
    .rejectedPattern r ∈ raw.resolve.2 ↔ .rejectedPattern r ∈ (exclusion raw.excludePatterns).2 := by
  simp only [Raw.resolve, List.mem_append, rejectedPattern_not_mem_minLines, rejectedPattern_not_mem_threshold,
    rejectedPattern_not_mem_ceiling, false_or, or_false]

theorem rejectedPattern_mem_array_iff :
    .rejectedPattern r ∈ (exclusion (some (.array items))).2 ↔
      (∃ p v, items[p]? = some v ∧ v.string? = none ∧ r = .notAString p) ∨
        r ∈ (Exclusion.ofPatterns (items.filterMap Json.string?)).2 := by
  simp only [exclusion, List.mem_map, Warning.rejectedPattern.injEq, exists_eq_right, List.mem_append,
    List.mem_filterMap, Prod.exists, List.mk_mem_zipIdx_iff_getElem?]
  refine or_congr_left ⟨?_, ?_⟩
  · rintro ⟨v, p, hp, hr⟩
    split at hr <;> cases hr
    exact ⟨p, v, hp, by simp_all, rfl⟩
  · rintro ⟨p, v, hp, hv, rfl⟩
    exact ⟨v, p, hp, by simp [hv]⟩

-- The places that warnings tell of the values in a list of patterns.
structure Positions (items : List Json) (warnings : List Warning) : Prop where
  notAString : ∀ p, .rejectedPattern (.notAString p) ∈ warnings ↔ ∃ v, items[p]? = some v ∧ v.string? = none
  blank      : ∀ i, .rejectedPattern (.blank i) ∈ warnings ↔
                ∃ p s, items[p]? = some (.string s) ∧ i = rank items p ∧ i < Exclusion.maxPatterns ∧
                  Exclusion.IsBlank s
  tooLong    : ∀ i n, .rejectedPattern (.tooLong i n) ∈ warnings ↔
                ∃ p s, items[p]? = some (.string s) ∧ i = rank items p ∧ i < Exclusion.maxPatterns ∧
                  ¬Exclusion.IsBlank s ∧ n = s.toList.length ∧ Exclusion.maxLength < n
  rank       : ∀ p ≤ items.length, rank items p = p ↔ ∀ v ∈ items.take p, v.string?.isSome = true

theorem rejectedPattern_mem_iff (h : raw.excludePatterns = some (.array items)) (hr : r.position?.isSome) :
    .rejectedPattern r ∈ raw.resolve.2 ↔
      (∃ p v, items[p]? = some v ∧ v.string? = none ∧ r = .notAString p) ∨
        ∃ p s, items[p]? = some (.string s) ∧ rank items p < Exclusion.maxPatterns ∧
          Exclusion.defect? (rank items p) s = some r := by
  rw [rejectedPattern_mem_resolve_iff, h, rejectedPattern_mem_array_iff, Exclusion.mem_ofPatterns_iff hr]
  simp only [getElem?_filterMap_eq_some_iff]
  refine or_congr_right ⟨?_, ?_⟩
  · rintro ⟨s, _, ⟨⟨p, hp, rfl⟩, hm⟩, hd⟩
    exact ⟨p, s, hp, hm, hd⟩
  · rintro ⟨p, s, hp, hm, hd⟩
    exact ⟨s, _, ⟨⟨p, hp, rfl⟩, hm⟩, hd⟩

-- A value that is no string is told by its place, a string by how many strings stand in front of it.
theorem positions_resolve (h : raw.excludePatterns = some (.array items)) : Positions items raw.resolve.2 := by
  constructor
  case notAString =>
    intro p
    rw [rejectedPattern_mem_iff h rfl]
    simp [Exclusion.defect?_eq_some_iff (r := .notAString p) rfl]
  case blank =>
    intro i
    rw [rejectedPattern_mem_iff h rfl]
    simp only [Exclusion.defect?_eq_some_iff (r := .blank i) rfl]
    grind
  case tooLong =>
    intro i n
    rw [rejectedPattern_mem_iff h rfl]
    simp only [Exclusion.defect?_eq_some_iff (r := .tooLong i n) rfl]
    grind
  case rank => exact fun p hp => rank_eq_self_iff hp

def numbered : List Json :=
  [.string " ", .nat 7, .string ""]

theorem positions_numbered :
    (Raw.excludePatterns { excludePatterns := some (.array numbered) } = some (.array numbered)) ∧
      Positions numbered (Raw.resolve { excludePatterns := some (.array numbered) }).2 ∧
      (Raw.resolve { excludePatterns := some (.array numbered) }).2 =
        [.rejectedPattern (.notAString 1), .rejectedPattern (.blank 0), .rejectedPattern (.blank 1)] :=
  ⟨rfl, positions_resolve rfl, by decide +kernel⟩

-- The first value is told as blank, but it is no string; the one that is blank comes after it.
theorem exists_blank_of_null :
    ∃ i, .rejectedPattern (.blank i) ∈ (Raw.resolve { excludePatterns := some (.array [.null, .string ""]) }).2 ∧
      ¬∃ s, [Json.null, .string ""][i]? = some (.string s) ∧ Exclusion.IsBlank s :=
  ⟨0, by decide +kernel, by simp⟩

end Options
end DuplicateBlocks
