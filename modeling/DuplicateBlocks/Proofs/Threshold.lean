import DuplicateBlocks.Proofs.Difference
import DuplicateBlocks.Proofs.Grouping.Clusters
import DuplicateBlocks.Proofs.Number

namespace DuplicateBlocks

namespace Similarity

open Text Binary64

variable {a b : List Char} {m n t u : Nat}

def share (m n : Nat) : Nat :=
  roundUnits (m * unit) n

-- The share in percent, in units. It is rounded for the second time.
def percentage (m n : Nat) : Nat :=
  nearest (100 * share m n)

-- Texts have far fewer lines than this.
def maxLines : Nat := 2 ^ 45

theorem dist_share_le (hn : 0 < n) (hl : n ≤ maxLines) : 2 ^ 53 * Nat.dist (share m n * n) (m * unit) ≤ m * unit := by
  by_cases hm : m = 0
  case pos =>
    have hz : share 0 n = 0 := by simp [share, roundUnits, roundDiv, Nat.mul_pos hn (spacing_pos 0)]
    simp [hm, hz]
  case neg =>
    have hu : 2 ^ 52 * maxLines ≤ unit := by decide +kernel
    apply dist_roundUnits_le hn
    calc 2 ^ 52 * n
      _ ≤ 2 ^ 52 * maxLines := Nat.mul_le_mul_left _ hl
      _ ≤ unit              := hu
      _ ≤ m * unit          := Nat.le_mul_of_pos_left unit (Nat.pos_of_ne_zero hm)

theorem share_le (hn : 0 < n) (hl : n ≤ maxLines) (hm : m ≤ n) : share m n ≤ 2 * unit := by
  have hd := dist_share_le (m := m) hn hl
  have hu : m * unit ≤ n * unit := Nat.mul_le_mul_right unit hm
  have hs : share m n * n ≤ 2 * unit * n := by
    rw [Nat.dist] at hd
    rw [Nat.mul_assoc, Nat.mul_comm unit n]
    omega
  exact Nat.le_of_mul_le_mul_right hs hn

theorem percentage_lt (hn : 0 < n) (hl : n ≤ maxLines) (hm : m ≤ n) : percentage m n < bound := by
  have hs := share_le hn hl hm
  have hd := dist_nearest_le (100 * share m n)
  have hb : 400 * unit < bound := by decide +kernel
  rw [Nat.dist] at hd
  rw [percentage]
  omega

theorem div_ofNat (hn : 0 < n) (hl : n ≤ maxLines) (hm : m ≤ n) :
    (Binary64.ofNat m).div (.ofNat n) = .finite false (share m n) := by
  have hmax : maxLines < 2 ^ 53 := by decide
  have hs := share_le hn hl hm
  have hb : 2 * unit < bound := by decide +kernel
  have hq : roundUnits (m * unit * unit) (n * unit) = share m n := roundUnits_mul_mul_right unit_pos ..
  have hz : n * unit ≠ 0 := Nat.ne_of_gt (Nat.mul_pos hn unit_pos)
  rw [ofNat_of_lt (by omega), ofNat_of_lt (by omega), whole, whole, div, if_neg hz, ofUnits, hq, if_pos (by omega)]
  rfl

theorem mul_hundred (h : nearest (100 * u) < bound) :
    (Binary64.finite false u).mul .hundred = .finite false (nearest (100 * u)) := by
  have hq : roundUnits (u * (100 * unit)) unit = nearest (100 * u) := by
    have hr := roundUnits_mul_mul_right unit_pos (u * 100) 1
    rwa [Nat.one_mul, Nat.mul_assoc, roundUnits_one, Nat.mul_comm u 100] at hr
  rw [hundred, mul, ofUnits, hq, if_pos h]
  rfl

theorem longest_pos (h : a ≠ b) : 0 < longest a b := by
  have hd : longest a b - matching a b ≠ 0 := difference_eq_zero_iff.not.mpr h
  omega

theorem score_eq (h : a ≠ b) (hl : longest a b ≤ maxLines) :
    score a b = .finite false (percentage (matching a b) (longest a b)) := by
  have hn := longest_pos h
  have hm := matching_le_longest a b
  have he : (a.isEmpty && b.isEmpty) = false := by
    cases a <;> cases b <;> simp_all
  rw [score, he, if_neg Bool.false_ne_true, if_neg (by simpa using h), div_ofNat hn hl hm]
  exact mul_hundred (percentage_lt hn hl hm)

-- A percentage that is missed is missed by a line at least, and two roundings do not come to so much.
theorem le_percentage_iff_of_ne (hl : n ≤ maxLines) (hm : m ≤ n) (h : t * n ≠ 100 * m) :
    t * unit ≤ percentage m n ↔ t * n < 100 * m := by
  have hn : 0 < n := by
    apply Nat.pos_of_ne_zero
    rintro rfl
    omega
  have hs := dist_share_le (m := m) hn hl
  have hp : 2 ^ 53 * Nat.dist (percentage m n * n) (100 * (share m n * n)) ≤ 100 * (share m n * n) := by
    rw [← Nat.mul_assoc 100, Nat.dist_mul_right, ← Nat.mul_assoc]
    exact Nat.mul_le_mul_right n (dist_nearest_le (100 * share m n))
  have hu : m * unit ≤ 2 ^ 45 * unit := Nat.mul_le_mul_right unit (hm.trans hl)
  have hpos := unit_pos
  rw [Nat.dist] at hs hp
  rw [← Nat.mul_le_mul_right_iff hn, Nat.mul_right_comm]
  constructor
  case mp =>
    intro hle
    by_contra hlt
    have hover : (100 * m + 1) * unit ≤ t * n * unit := Nat.mul_le_mul_right unit (by omega)
    rw [Nat.add_mul, Nat.one_mul, Nat.mul_assoc] at hover
    omega
  case mpr =>
    intro hlt
    have hover : (t * n + 1) * unit ≤ 100 * m * unit := Nat.mul_le_mul_right unit hlt
    rw [Nat.add_mul, Nat.one_mul, Nat.mul_assoc 100] at hover
    omega

theorem percentage_of_eq (hn : 0 < n) (h : t * n = 100 * m) : percentage m n = percentage t 100 := by
  have hs : share m n = share t 100 := by
    apply roundUnits_congr hn (by decide)
    rw [Nat.mul_right_comm, Nat.mul_comm m, ← h, Nat.mul_right_comm]
  rw [percentage, hs, percentage]

-- The percentages that are not reached again once they have been divided by a hundred.
def undershot : List Nat := [29, 57, 58]

-- A number of 60 bits has all the bits that count, so the percentages are gone through with such a unit.
theorem le_percentage_hundred_iff (ht : t ≤ 100) : t * unit ≤ percentage t 100 ↔ t ∉ undershot := by
  have ⟨k, hk⟩ : ∃ k, unit = 2 ^ 60 * 2 ^ k := ⟨1014, by decide +kernel⟩
  have hall : ∀ t ≤ 100, t ≠ 0 → (t * 2 ^ 60 ≤ nearest (100 * roundUnits (t * 2 ^ 60) 100) ↔ t ∉ undershot) := by
    decide +kernel
  by_cases h0 : t = 0
  case pos => simp [h0, undershot]
  case neg =>
    have hs : share t 100 = roundUnits (t * 2 ^ 60) 100 * 2 ^ k := by
      rw [share, hk, ← Nat.mul_assoc]
      exact roundUnits_mul_two_pow (by decide) (by omega) k
    rw [← hall t ht h0, percentage, hs, ← Nat.mul_assoc 100, nearest_mul_two_pow, hk, ← Nat.mul_assoc]
    exact Nat.mul_le_mul_right_iff (Nat.two_pow_pos k)

theorem le_score_iff (h : a ≠ b) (hl : longest a b ≤ maxLines) (ht : t ≤ 100) :
    (Binary64.ofNat t).le (score a b) = true ↔
      t * longest a b ≤ 100 * matching a b ∧ (t * longest a b = 100 * matching a b → t ∉ undershot) := by
  rw [ofNat_of_lt (by omega), score_eq h hl, whole_le_finite]
  by_cases he : t * longest a b = 100 * matching a b
  case pos => simp [percentage_of_eq (longest_pos h) he, le_percentage_hundred_iff ht, he]
  case neg =>
    rw [le_percentage_iff_of_ne hl (matching_le_longest a b) he]
    omega

end Similarity

namespace Bucket

open Similarity

variable {x y : Block} {t : Nat}

-- Whether two blocks with different texts are similar enough is decided by their lines. It is decided exactly, unless
-- they lie just at a threshold of 29, 57 or 58 percent: then they are told apart.
theorem isSimilar_grouping_iff (w maxComparisons : Nat) (h : x.normal ≠ y.normal)
    (hl : longest x.normal y.normal ≤ maxLines) (ht : t ≤ 100) :
    (grouping w (.ofNat t) maxComparisons).isSimilar x y = true ↔
      t * longest x.normal y.normal ≤ 100 * matching x.normal y.normal ∧
        (t * longest x.normal y.normal = 100 * matching x.normal y.normal → t ∉ undershot) := by
  simp only [Grouping.isSimilar, grouping]
  exact le_score_iff h hl ht

def quarterly : Block × Block :=
  (⟨"a", 1, 4, [], "a\nb\nc\nd".toList⟩, ⟨"b", 1, 4, [], "a\nx\nc\nd".toList⟩)

theorem isSimilar_grouping_quarterly :
    matching quarterly.1.normal quarterly.2.normal = 3 ∧ longest quarterly.1.normal quarterly.2.normal = 4 ∧
      (grouping 4 (.ofNat 75) 1).isSimilar quarterly.1 quarterly.2 = true ∧
      (grouping 4 (.ofNat 76) 1).isSimilar quarterly.1 quarterly.2 = false := by
  have hm : matching quarterly.1.normal quarterly.2.normal = 3 := by decide +kernel
  have hn : longest quarterly.1.normal quarterly.2.normal = 4 := by decide +kernel
  have hd : quarterly.1.normal ≠ quarterly.2.normal := by decide +kernel
  have hl : longest quarterly.1.normal quarterly.2.normal ≤ maxLines := by rw [hn]; decide
  refine ⟨hm, hn, ?reached, ?missed⟩
  case reached =>
    rw [isSimilar_grouping_iff 4 1 hd hl (by decide), hm, hn]
    decide
  case missed =>
    rw [← Bool.not_eq_true, isSimilar_grouping_iff 4 1 hd hl (by decide), hm, hn]
    decide

-- A hundred lines of which the first 29 are the same whatever the others are.
def hundredLines (source : String) (other : Char) : Block :=
  let text := Text.unlines (List.replicate 29 ['s'] ++ List.replicate 71 [other])
  ⟨source, 1, 100, text, text⟩

-- Two such texts are similar by 29 percent and no less, and a threshold of 29 percent keeps them apart.
theorem not_isSimilar_hundredLines :
    (hundredLines "a" 'a').normal ≠ (hundredLines "b" 'b').normal ∧
      matching (hundredLines "a" 'a').normal (hundredLines "b" 'b').normal = 29 ∧
      longest (hundredLines "a" 'a').normal (hundredLines "b" 'b').normal = 100 ∧
      (grouping 100 (.ofNat 29) 1).isSimilar (hundredLines "a" 'a') (hundredLines "b" 'b') = false := by
  decide +kernel

end Bucket
end DuplicateBlocks
