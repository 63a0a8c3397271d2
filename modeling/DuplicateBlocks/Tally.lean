namespace DuplicateBlocks

@[ext]
structure Tally where
  toNat : Nat
  le_cap : toNat ≤ 0xFFFFFFFFFFFFFFFF
  deriving DecidableEq

namespace Tally

def cap : Nat := 0xFFFFFFFFFFFFFFFF

-- A number as a counter, the greatest one if it is too large.
def ofNat (n : Nat) : Tally where
  toNat := min n cap
  le_cap := Nat.min_le_right n cap

instance : Zero Tally := ⟨⟨0, by decide⟩⟩

instance : Inhabited Tally := ⟨0⟩

instance : Add Tally := ⟨fun a b => ofNat (a.toNat + b.toNat)⟩

def succ (a : Tally) : Tally := a + ofNat 1

theorem toNat_add (a b : Tally) : (a + b).toNat = min (a.toNat + b.toNat) cap := rfl

@[simp]
theorem toNat_zero : (0 : Tally).toNat = 0 := rfl

@[simp]
theorem toNat_ofNat (n : Nat) : (ofNat n).toNat = min n cap := rfl

theorem toNat_succ (a : Tally) : a.succ.toNat = min (a.toNat + 1) cap := rfl

theorem toNat_succ_of_lt {a : Tally} (h : a.toNat < cap) : a.succ.toNat = a.toNat + 1 := Nat.min_eq_left h

theorem toNat_add_ofNat_of_le {a : Tally} {n : Nat} (h : a.toNat + n ≤ cap) : (a + ofNat n).toNat = a.toNat + n := by
  rw [toNat_add, toNat_ofNat]
  omega

-- Stopping along the way comes to the same as stopping at the end.
theorem ofNat_add (m n : Nat) : ofNat (m + n) = ofNat m + ofNat n := by
  ext
  simp only [toNat_add, toNat_ofNat]
  omega

theorem add_ofNat_eq_zero {a : Tally} {n : Nat} : a + ofNat n = 0 ↔ a = 0 ∧ n = 0 := by
  simp only [Tally.ext_iff, toNat_add, toNat_ofNat, toNat_zero, cap]
  omega

protected theorem add_comm (a b : Tally) : a + b = b + a := by
  ext
  simp only [toNat_add, Nat.add_comm]

protected theorem add_assoc (a b c : Tally) : a + b + c = a + (b + c) := by
  ext
  simp only [toNat_add]
  omega

protected theorem add_zero (a : Tally) : a + 0 = a := by
  ext
  have := a.le_cap
  simp only [toNat_add, toNat_zero, cap]
  omega

end Tally
end DuplicateBlocks
