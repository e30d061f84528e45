import Mathlib

namespace Exfat.Lib

/-! Integers of a fixed width. An operation on signed ones whose exact result does not fit has no
result. -/

/-- The values of a signed type. -/
def Fits (bits : Nat) (x : Int) : Prop := -2 ^ (bits - 1) ≤ x ∧ x < 2 ^ (bits - 1)

instance (bits : Nat) (x : Int) : Decidable (Fits bits x) := inferInstanceAs (Decidable (_ ∧ _))

/-- The result of a signed operation. -/
def signed (bits : Nat) (x : Int) : Option Int := if Fits bits x then some x else none

/-- A shift to the left: of a negative value, or by the width, it is undefined. -/
def signedShl (bits : Nat) (x : Int) (k : Nat) : Option Int :=
  if 0 ≤ x ∧ k < bits then signed bits (x * 2 ^ k) else none

/-- An arithmetic shift to the right. -/
def signedShr (bits : Nat) (x : Int) (k : Nat) : Option Int :=
  if k < bits then some (x / 2 ^ k) else none

variable {bits a n k : Nat}

theorem fits_cast (h : n < 2 ^ (bits - 1)) : Fits bits n := by
  have hcast : ((n : Nat) : Int) < ((2 ^ (bits - 1) : Nat) : Int) := Int.ofNat_lt.mpr h
  push_cast at hcast
  have hneg : (0 : Int) < 2 ^ (bits - 1) := by positivity
  exact ⟨by omega, hcast⟩

theorem signed_cast (h : n < 2 ^ (bits - 1)) : signed bits n = some (n : Int) := if_pos (fits_cast h)

/-- A value of `a` bits may be shifted as long as its highest bit stays below the sign. -/
theorem signedShl_cast (hn : n < 2 ^ a) (hfit : a + k < bits) :
    signedShl bits n k = some ((n * 2 ^ k : Nat) : Int) := by
  have hlt : n * 2 ^ k < 2 ^ (bits - 1) := by
    calc n * 2 ^ k < 2 ^ a * 2 ^ k := Nat.mul_lt_mul_of_pos_right hn (by positivity)
      _ = 2 ^ (a + k) := (Nat.pow_add 2 a k).symm
      _ ≤ 2 ^ (bits - 1) := Nat.pow_le_pow_right (by decide) (by omega)
  rw [signedShl, if_pos ⟨Int.natCast_nonneg n, by omega⟩, ← signed_cast hlt]
  push_cast
  rfl

theorem signedShr_cast (hk : k < bits) : signedShr bits n k = some ((n / 2 ^ k : Nat) : Int) := by
  rw [signedShr, if_pos hk]
  push_cast
  rfl

/-- An unsigned value below the sign is the same number when taken for a signed one. -/
theorem bmod_cast (h : n < 2 ^ 63) : Int.bmod n (2 ^ 64) = n := by
  rw [Int.bmod_eq_emod_of_lt] <;> omega

end Exfat.Lib
