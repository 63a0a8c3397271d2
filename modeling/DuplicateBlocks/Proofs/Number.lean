import DuplicateBlocks.Number.Binary64
import Mathlib.Data.Nat.Dist
import Mathlib.Data.Prod.Lex

namespace DuplicateBlocks.Binary64

variable {n num den num' den' c k : Nat}

theorem roundDiv_cases (num den : Nat) :
    (roundDiv num den = num / den ∧ 2 * (num % den) ≤ den) ∨
      (roundDiv num den = num / den + 1 ∧ den ≤ 2 * (num % den)) := by
  simp only [roundDiv]
  split
  case isTrue h  => exact .inl ⟨rfl, by omega⟩
  case isFalse h => exact .inr ⟨rfl, by omega⟩

theorem roundDiv_mul_mul_right (hc : 0 < c) (num den : Nat) : roundDiv (num * c) (den * c) = roundDiv num den := by
  have hr : 2 * (num % den * c) = 2 * (num % den) * c := (Nat.mul_assoc ..).symm
  simp only [roundDiv, Nat.mul_div_mul_right _ _ hc, Nat.mul_mod_mul_right, hr, Nat.mul_lt_mul_right hc,
    Nat.mul_left_inj (Nat.ne_of_gt hc)]

theorem dist_roundDiv_le (num : Nat) (hd : 0 < den) : 2 * Nat.dist (roundDiv num den * den) num ≤ den := by
  have hm := Nat.div_add_mod' num den
  have hl := Nat.mod_lt num hd
  cases roundDiv_cases num den
  case inl h =>
    rw [h.left, Nat.dist]
    omega
  case inr h =>
    rw [h.left, Nat.dist, Nat.add_mul, Nat.one_mul]
    omega

-- A rounded quotient is no more than the number itself if the rest is below one half, or one half behind an even
-- number.
theorem roundDiv_mul_le_iff (num : Nat) (hd : 0 < den) :
    roundDiv num den * den ≤ num ↔ 2 * (num % den) < den ∨ 2 * (num % den) = den ∧ num / den % 2 = 0 := by
  have hm := Nat.div_add_mod' num den
  have hl := Nat.mod_lt num hd
  simp only [roundDiv]
  split
  case isTrue h  => exact iff_of_true (Nat.div_mul_le_self num den) h
  case isFalse h => exact iff_of_false (by rw [Nat.add_mul, Nat.one_mul]; omega) h

theorem roundDiv_le (hd : 0 < den) (h : num ≤ k * den) : roundDiv num den ≤ k := by
  by_cases he : num = k * den
  case pos => exact he ▸ (roundDiv_mul_self hd k).le
  case neg =>
    have hq : num / den < k := (Nat.div_lt_iff_lt_mul hd).mpr (by omega)
    have hr := roundDiv_cases num den
    omega

theorem spacing_eq (n : Nat) : spacing n = 2 ^ (n.log2 - 52) := rfl

theorem spacing_pos (n : Nat) : 0 < spacing n := Nat.two_pow_pos (n.log2 - 52)

-- The whole number that a whole number becomes.
def nearest (n : Nat) : Nat :=
  roundDiv n (spacing n) * spacing n

-- Whole numbers that are a number of 53 bits, shifted.
def IsExact (n : Nat) : Prop :=
  ∃ m k, m < 2 ^ 53 ∧ n = m * 2 ^ k

theorem isExact_iff_spacing_dvd : IsExact n ↔ spacing n ∣ n := by
  constructor
  case mp =>
    intro ⟨m, k, hm, hn⟩
    by_cases h0 : n = 0
    case pos => exact h0 ▸ Nat.dvd_zero _
    case neg =>
      have hl : n < 2 ^ (53 + k) := by
        rw [hn, Nat.pow_add]
        exact Nat.mul_lt_mul_of_pos_right hm (Nat.two_pow_pos k)
      have hk : n.log2 - 52 ≤ k := by
        have := (Nat.log2_lt h0).mpr hl
        omega
      rw [spacing_eq, hn]
      exact hn ▸ (Nat.pow_dvd_pow 2 hk).mul_left m
  case mpr =>
    intro h
    refine ⟨n / spacing n, n.log2 - 52, ?_, (Nat.div_mul_cancel h).symm⟩
    rw [Nat.div_lt_iff_lt_mul (spacing_pos n), spacing_eq, ← Nat.pow_add]
    exact Nat.lt_of_lt_of_le Nat.lt_log2_self (Nat.pow_le_pow_right (by decide) (by omega))

theorem nearest_eq_self_iff : nearest n = n ↔ IsExact n := by
  rw [isExact_iff_spacing_dvd]
  constructor
  case mp  => exact fun h => ⟨_, h.symm.trans (Nat.mul_comm ..)⟩
  case mpr =>
    intro ⟨m, hm⟩
    have hr := roundDiv_mul_self (spacing_pos n) m
    rw [Nat.mul_comm, ← hm] at hr
    rw [nearest, hr, Nat.mul_comm]
    exact hm.symm

theorem IsExact.mul_two_pow (h : IsExact n) (k : Nat) : IsExact (n * 2 ^ k) := by
  have ⟨m, j, hm, hn⟩ := h
  exact ⟨m, j + k, hm, by rw [hn, Nat.mul_assoc, ← Nat.pow_add]⟩

theorem isExact_of_lt (h : n < 2 ^ 53) : IsExact n :=
  ⟨n, 0, h, (Nat.mul_one n).symm⟩

theorem spacing_le (h : 2 ^ 52 ≤ n) : 2 ^ 52 * spacing n ≤ n := by
  have h0 : n ≠ 0 := by omega
  have hl : 52 ≤ n.log2 := (Nat.le_log2 h0).mpr h
  rw [spacing_eq, ← Nat.pow_add, Nat.add_sub_cancel' hl]
  exact Nat.log2_self_le h0

-- A fraction that is not too small moves by no more than one part in 2^53.
theorem dist_roundUnits_le (hd : 0 < den) (h : 2 ^ 52 * den ≤ num) :
    2 ^ 53 * Nat.dist (roundUnits num den * den) num ≤ num := by
  have hs : 2 ^ 52 * spacing (num / den) ≤ num / den := spacing_le ((Nat.le_div_iff_mul_le hd).mpr h)
  have hr := dist_roundDiv_le num (Nat.mul_pos hd (spacing_pos (num / den)))
  have he : roundUnits num den * den = roundDiv num (den * spacing (num / den)) * (den * spacing (num / den)) := by
    rw [roundUnits, Nat.mul_assoc, Nat.mul_comm (spacing _)]
  rw [he]
  calc 2 ^ 53 * Nat.dist _ num
      ≤ 2 ^ 52 * (den * spacing (num / den)) := by omega
    _ = 2 ^ 52 * spacing (num / den) * den := by rw [Nat.mul_comm den, Nat.mul_assoc]
    _ ≤ num / den * den := Nat.mul_le_mul_right den hs
    _ ≤ num := Nat.div_mul_le_self num den

theorem roundUnits_one (n : Nat) : roundUnits n 1 = nearest n := by
  rw [roundUnits, Nat.div_one, Nat.one_mul]
  rfl

theorem dist_nearest_le (n : Nat) : 2 ^ 53 * Nat.dist (nearest n) n ≤ n := by
  by_cases hn : n < 2 ^ 53
  case pos => rw [nearest_eq_self_iff.mpr (isExact_of_lt hn), Nat.dist_self]; exact Nat.zero_le n
  case neg =>
    have hd : 2 ^ 53 * Nat.dist (roundUnits n 1 * 1) n ≤ n := dist_roundUnits_le Nat.one_pos (by omega)
    rwa [roundUnits_one, Nat.mul_one] at hd

theorem log2_mul_two_pow_div (hd : 0 < den) (h : num / den ≠ 0) (k : Nat) :
    (num * 2 ^ k / den).log2 = (num / den).log2 + k := by
  have hk := Nat.two_pow_pos k
  have hlow : 2 ^ (num / den).log2 * den ≤ num := (Nat.le_div_iff_mul_le hd).mp (Nat.log2_self_le h)
  have hhigh : num < 2 ^ ((num / den).log2 + 1) * den := (Nat.div_lt_iff_lt_mul hd).mp Nat.lt_log2_self
  have hle : 2 ^ ((num / den).log2 + k) ≤ num * 2 ^ k / den := by
    rw [Nat.le_div_iff_mul_le hd, Nat.pow_add, Nat.mul_right_comm]
    exact Nat.mul_le_mul_right _ hlow
  have hlt : num * 2 ^ k / den < 2 ^ ((num / den).log2 + k + 1) := by
    rw [Nat.div_lt_iff_lt_mul hd, Nat.add_right_comm, Nat.pow_add, Nat.mul_right_comm]
    exact Nat.mul_lt_mul_of_pos_right hhigh hk
  have h0 : num * 2 ^ k / den ≠ 0 := Nat.ne_of_gt (Nat.lt_of_lt_of_le (Nat.two_pow_pos _) hle)
  exact (Nat.log2_eq_iff h0).mpr ⟨hle, hlt⟩

-- Rounding looks at the leading bits only, so the scale makes no difference.
theorem roundUnits_mul_two_pow (hd : 0 < den) (h : 2 ^ 52 * den ≤ num) (k : Nat) :
    roundUnits (num * 2 ^ k) den = roundUnits num den * 2 ^ k := by
  have hq : 2 ^ 52 ≤ num / den := (Nat.le_div_iff_mul_le hd).mpr h
  have h0 : num / den ≠ 0 := by omega
  have hl : 52 ≤ (num / den).log2 := (Nat.le_log2 h0).mpr hq
  have hs : spacing (num * 2 ^ k / den) = spacing (num / den) * 2 ^ k := by
    rw [spacing_eq, spacing_eq, log2_mul_two_pow_div hd h0, ← Nat.pow_add, Nat.sub_add_comm hl]
  simp only [roundUnits]
  rw [hs, ← Nat.mul_assoc den, roundDiv_mul_mul_right (Nat.two_pow_pos k), Nat.mul_assoc]

theorem nearest_mul_two_pow (n k : Nat) : nearest (n * 2 ^ k) = nearest n * 2 ^ k := by
  by_cases hn : n < 2 ^ 53
  case pos =>
    have he := isExact_of_lt hn
    rw [nearest_eq_self_iff.mpr he, nearest_eq_self_iff.mpr (he.mul_two_pow k)]
  case neg =>
    rw [← roundUnits_one, ← roundUnits_one]
    exact roundUnits_mul_two_pow Nat.one_pos (by omega) k

theorem roundUnits_mul_mul_right (hc : 0 < c) (num den : Nat) :
    roundUnits (num * c) (den * c) = roundUnits num den := by
  simp only [roundUnits]
  rw [Nat.mul_div_mul_right _ _ hc, Nat.mul_right_comm, roundDiv_mul_mul_right hc]

theorem roundUnits_congr (hd : 0 < den) (hd' : 0 < den') (h : num * den' = num' * den) :
    roundUnits num den = roundUnits num' den' := by
  rw [← roundUnits_mul_mul_right hd', h, Nat.mul_comm den den', roundUnits_mul_mul_right hd]

theorem one_le_nearest (h : 1 ≤ n) : 1 ≤ nearest n := by
  have hd := dist_nearest_le n
  rw [Nat.dist] at hd
  omega

theorem unit_pos : 0 < unit := by
  decide +kernel

def whole (n : Nat) : Binary64 :=
  finite false (n * unit)

theorem whole_ne_nan (n : Nat) : whole n ≠ nan := nofun

theorem zero_eq_whole : zero = whole 0 := by
  rw [zero, whole, Nat.zero_mul]

theorem hundred_eq_whole : hundred = whole 100 := by
  rw [hundred, whole]

theorem signed_false (u : Nat) : signed false u = u := rfl

theorem signed_true (u : Nat) : signed true u = -u := rfl

theorem finite_le_finite {s t : Bool} {a b : Nat} :
    (finite s a).le (finite t b) = true ↔ signed s a ≤ signed t b := by
  rw [le, decide_eq_true_iff]

theorem whole_le_finite {u : Nat} : (whole n).le (.finite false u) = true ↔ n * unit ≤ u := by
  rw [whole, finite_le_finite]
  exact Int.ofNat_le

theorem whole_le_whole {m n : Nat} : (whole m).le (whole n) = true ↔ m ≤ n := by
  rw [whole.eq_1 n, whole_le_finite]
  exact Nat.mul_le_mul_right_iff unit_pos

theorem whole_lt_whole {m n : Nat} : (whole m).lt (whole n) = true ↔ m < n := by
  rw [lt, Bool.and_eq_true, Bool.not_eq_true', ← Bool.not_eq_true, whole_le_whole, whole_le_whole]
  omega

theorem floor_whole (n : Nat) : (whole n).floor = whole n := by
  rw [whole, floor, Nat.mul_div_cancel n unit_pos]

theorem wholePart_whole (n : Nat) : (whole n).wholePart = n :=
  Nat.mul_div_cancel n unit_pos

theorem ofNat_eq (h : n < 2 ^ 64) : ofNat n = whole (nearest n) := by
  have hr : roundUnits (n * unit) 1 = nearest n * unit := by
    have ⟨k, hk⟩ : ∃ k, unit = 2 ^ k := ⟨1074, by decide +kernel⟩
    rw [hk, ← nearest_mul_two_pow, roundUnits_one]
  have hb : nearest n * unit < bound := by
    have hd := dist_nearest_le n
    rw [Nat.dist] at hd
    have hl : nearest n < 2 ^ 65 := by omega
    have hu : 2 ^ 65 * unit ≤ bound := by decide +kernel
    exact Nat.lt_of_lt_of_le (Nat.mul_lt_mul_of_pos_right hl unit_pos) hu
  rw [ofNat, ofRatio, ofUnits, hr, if_pos hb]
  rfl

theorem ofNat_of_lt (h : n < 2 ^ 53) : ofNat n = whole n := by
  rw [ofNat_eq (by omega), nearest_eq_self_iff.mpr (isExact_of_lt h)]

def isUnsigned : Binary64 → Bool
  | finite s _ => !s
  | infinite s => !s
  | nan => true

theorem isUnsigned_ofUnits (num den : Nat) : (ofUnits false num den).isUnsigned = true := by
  rw [ofUnits, apply_ite isUnsigned]
  exact ite_self true

theorem isUnsigned_ofNat (n : Nat) : (ofNat n).isUnsigned = true := by
  rw [ofNat, ofRatio]
  exact isUnsigned_ofUnits ..

theorem isUnsigned_mul {x y : Binary64} (hx : x.isUnsigned = true) (hy : y.isUnsigned = true) :
    (x.mul y).isUnsigned = true := by
  cases x <;> cases y <;> simp only [isUnsigned, Bool.not_eq_true'] at hx hy <;> subst_vars <;> simp only [mul]
  case finite.finite => exact isUnsigned_ofUnits ..
  case finite.infinite => split <;> rfl
  case infinite.finite => split <;> rfl
  all_goals rfl

theorem isUnsigned_div {x y : Binary64} (hx : x.isUnsigned = true) (hy : y.isUnsigned = true) :
    (x.div y).isUnsigned = true := by
  cases x <;> cases y <;> simp only [isUnsigned, Bool.not_eq_true'] at hx hy <;> subst_vars <;> simp only [div]
  case finite.finite =>
    split
    case isTrue  => split <;> rfl
    case isFalse => exact isUnsigned_ofUnits ..
  all_goals rfl

theorem exists_units_of_le_whole {x : Binary64} (hx : x.isUnsigned = true) (h : x.le (whole n) = true) :
    ∃ u ≤ n * unit, x = finite false u := by
  cases x
  case finite s u =>
    have hs : s = false := by simpa [isUnsigned] using hx
    subst hs
    exact ⟨u, Int.ofNat_le.mp (finite_le_finite.mp h), rfl⟩
  case infinite s =>
    have hs : s = false := by simpa [isUnsigned] using hx
    subst hs
    cases h
  case nan => cases h

variable {x y z m : Binary64} {xs : List Binary64}

-- The place of a number in the order: between the two infinities, and there among the integers, counted in units.
def rank : Binary64 → Lex (Int × Int)
  | finite s a     => toLex (0, signed s a)
  | infinite true  => toLex (-1, 0)
  | infinite false => toLex (1, 0)
  | nan            => toLex (-1, 0)

theorem le_iff_rank_le (hx : x ≠ nan) (hy : y ≠ nan) : x.le y = true ↔ x.rank ≤ y.rank := by
  cases x <;> cases y
  case finite.finite s a t b => simp [le, rank, Prod.Lex.toLex_le_toLex]
  case finite.infinite s a t => cases t <;> simp [le, rank, Prod.Lex.toLex_le_toLex]
  case infinite.finite s t b => cases s <;> simp [le, rank, Prod.Lex.toLex_le_toLex]
  case infinite.infinite s t => cases s <;> cases t <;> simp [le, rank, Prod.Lex.toLex_le_toLex]
  all_goals contradiction

theorem ne_nan_of_le (h : x.le y = true) : x ≠ nan ∧ y ≠ nan := by
  constructor
  case left  => rintro rfl; simp [le] at h
  case right => rintro rfl; simp [not_le_nan] at h

protected theorem le_refl (hx : x ≠ nan) : x.le x = true :=
  (le_iff_rank_le hx hx).mpr (le_refl _)

protected theorem le_total (hx : x ≠ nan) (hy : y ≠ nan) : x.le y = true ∨ y.le x = true := by
  rw [le_iff_rank_le hx hy, le_iff_rank_le hy hx]
  exact le_total ..

protected theorem le_trans (h : x.le y = true) (h' : y.le z = true) : x.le z = true := by
  have ⟨hx, hy⟩ := ne_nan_of_le h
  have ⟨_, hz⟩ := ne_nan_of_le h'
  rw [le_iff_rank_le hx hy] at h
  rw [le_iff_rank_le hy hz] at h'
  exact (le_iff_rank_le hx hz).mpr (h.trans h')

protected theorem le_of_not_lt (hx : x ≠ nan) (hy : y ≠ nan) (h : ¬y.lt x = true) : x.le y = true := by
  have hl : y.le x = true → x.le y = true := by simpa [lt] using h
  exact (Binary64.le_total hx hy).elim id hl

theorem min_spec (hx : x ≠ nan) (hy : y ≠ nan) :
    (x.min y = x ∨ x.min y = y) ∧ (x.min y).le x = true ∧ (x.min y).le y = true := by
  rw [min, if_neg hx]
  split
  case isTrue h  => exact ⟨.inr rfl, (Bool.and_eq_true_iff.mp h).left, Binary64.le_refl hy⟩
  case isFalse h => exact ⟨.inl rfl, Binary64.le_refl hx, Binary64.le_of_not_lt hx hy h⟩

theorem clamp_spec (hx : x ≠ nan) (h : y.le z = true) : y.le (x.clamp y z) = true ∧ (x.clamp y z).le z = true := by
  have ⟨hy, hz⟩ := ne_nan_of_le h
  unfold clamp
  split
  case isTrue => exact ⟨Binary64.le_refl hy, h⟩
  case isFalse hl =>
    split
    case isTrue     => exact ⟨h, Binary64.le_refl hz⟩
    case isFalse hg => exact ⟨Binary64.le_of_not_lt hy hx hl, Binary64.le_of_not_lt hx hz hg⟩

theorem ne_nan_of_isFinite (h : x.isFinite = true) : x ≠ nan := by
  rintro rfl
  cases h

theorem isFinite_floor (h : x.isFinite = true) : x.floor.isFinite = true := by
  cases x
  case finite s u => cases s <;> rfl
  all_goals cases h

-- The integer part of a number that is not below zero lies between the same whole numbers as the number itself.
theorem le_wholePart (hx : x.isFinite = true) (h : (whole n).le x = true) : n ≤ x.wholePart := by
  cases x
  case finite s u =>
    have h : signed false (n * unit) ≤ signed s u := finite_le_finite.mp h
    have hu : n * unit ≤ u := by
      cases s <;> simp only [signed_false, signed_true] at h <;> omega
    exact (Nat.le_div_iff_mul_le unit_pos).mpr hu
  all_goals cases hx

theorem wholePart_le {k : Nat} (hx : x.isFinite = true) (h : (whole k).le x = true) (hn : x.le (whole n) = true) :
    x.wholePart ≤ n := by
  cases x
  case finite s u =>
    have h : signed false (k * unit) ≤ signed s u := finite_le_finite.mp h
    have hn : signed s u ≤ signed false (n * unit) := finite_le_finite.mp hn
    have hu : u ≤ n * unit := by
      cases s <;> simp only [signed_false, signed_true] at h hn <;> omega
    exact Nat.div_le_of_le_mul (Nat.mul_comm n unit ▸ hu)
  all_goals cases hx

structure IsLeast (m : Binary64) (xs : List Binary64) : Prop where
  mem : m ∈ xs
  le  : ∀ x ∈ xs, m.le x = true

theorem isLeast_foldl_min (hm : m ≠ nan) (hx : ∀ x ∈ xs, x ≠ nan) : IsLeast (xs.foldl min m) (m :: xs) := by
  induction xs generalizing m
  case nil => exact ⟨List.mem_cons_self, by simpa using Binary64.le_refl hm⟩
  case cons x xs hi =>
    have ⟨hx, hxs⟩ := List.forall_mem_cons.mp hx
    have ⟨he, hl, hr⟩ := min_spec hm hx
    have ⟨hmem, hle⟩ := hi (ne_nan_of_le hl).left hxs
    have ⟨hmin, hle⟩ := List.forall_mem_cons.mp hle
    rw [List.foldl_cons]
    constructor
    case le  =>
      refine List.forall_mem_cons.mpr ⟨Binary64.le_trans hmin hl, ?_⟩
      exact List.forall_mem_cons.mpr ⟨Binary64.le_trans hmin hr, hle⟩
    case mem =>
      cases List.mem_cons.mp hmem
      case inl h => rw [h]; cases he <;> simp [*]
      case inr h => exact List.mem_cons_of_mem m (List.mem_cons_of_mem x h)

end DuplicateBlocks.Binary64
