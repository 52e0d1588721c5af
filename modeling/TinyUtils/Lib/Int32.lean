import Mathlib.Algebra.Group.Int.Defs
import Mathlib.Algebra.Group.Nat.Defs
/-!
# What a 32-bit `int` holds

`i32 z` is what a 32-bit two's complement `int` gets when `z` is stored to it. Sums and products may be
narrowed as often as one likes on the way. A value that is not below the range can only get smaller
(`i32_le`), and it stays at or above zero exactly if its residue is in the lower half (`i32_nonneg_iff`).
-/

namespace Int32Bit

def i32 (z : Int) : Int := Int.bmod z (2 ^ 32)

theorem i32_range (z : Int) : -2 ^ 31 ≤ i32 z ∧ i32 z < 2 ^ 31 := by
  have hle : -((2 ^ 32 : Nat) / 2 : Int) ≤ i32 z := Int.le_bmod (by decide)
  have hlt : i32 z < ((2 ^ 32 : Nat) + 1 : Int) / 2 := Int.bmod_lt (by decide)
  constructor
  · omega
  · omega

theorem i32_eq {z : Int} (hlow : -2 ^ 31 ≤ z) (hhigh : z < 2 ^ 31) : i32 z = z :=
  Int.bmod_eq_of_le (by omega) (by omega)

@[simp] theorem i32_add_i32 (a b : Int) : i32 (a + i32 b) = i32 (a + b) := Int.add_bmod_bmod

@[simp] theorem i32_mul_i32 (a b : Int) : i32 (a * i32 b) = i32 (a * b) := Int.mul_bmod_bmod

theorem i32_eq_emod {z : Int} (h : z % 2 ^ 32 < 2 ^ 31) : i32 z = z % 2 ^ 32 := Int.bmod_eq_emod_of_lt h

theorem i32_emod (z : Int) : i32 z % 2 ^ 32 = z % 2 ^ 32 := Int.bmod_emod

theorem i32_nonneg_iff (z : Int) : 0 ≤ i32 z ↔ z % 2 ^ 32 < 2 ^ 31 := by
  have hrange := i32_range z
  have hemod := i32_emod z
  constructor
  · intro h
    omega
  · intro h
    rw [i32_eq_emod h]
    exact Int.emod_nonneg z (by decide)

/-- Narrowing adds nothing to a value above the lower end of the range. -/
theorem i32_le {z : Int} (h : -2 ^ 31 ≤ z) : i32 z ≤ z := by
  have hrange := i32_range z
  have hemod := i32_emod z
  by_cases hlt : z < 2 ^ 31
  · exact Int.le_of_eq (i32_eq h hlt)
  · omega

end Int32Bit
