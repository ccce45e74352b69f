import Mathlib.Data.Nat.Bitwise
import Mathlib.Tactic.Common

/-! # Rounding to an alignment

Rounding up and down by division, and the masks that do it for powers of two. -/

namespace Alignment

variable {a x y e : ℕ}

/-- The largest multiple of `a` up to `x`. -/
def roundDown (a x : ℕ) : ℕ := x / a * a

/-- The smallest multiple of `a` from `x` on. -/
def roundUp (a x : ℕ) : ℕ := roundDown a (x + (a - 1))

theorem dvd_roundDown (a x : ℕ) : a ∣ roundDown a x := Nat.dvd_mul_left a (x / a)

theorem dvd_roundUp (a x : ℕ) : a ∣ roundUp a x := dvd_roundDown a _

theorem roundDown_le (a x : ℕ) : roundDown a x ≤ x := Nat.div_mul_le_self x a

theorem lt_roundDown_add (ha : 0 < a) (x : ℕ) : x < roundDown a x + a := Nat.lt_div_mul_add ha

theorem le_roundUp (ha : 0 < a) (x : ℕ) : x ≤ roundUp a x := by
  have hlt := lt_roundDown_add ha (x + (a - 1))
  rw [roundUp]
  omega

theorem roundUp_lt (ha : 0 < a) (x : ℕ) : roundUp a x < x + a := by
  have hle := roundDown_le a (x + (a - 1))
  rw [roundUp]
  omega

theorem sub_mod_eq (a x : ℕ) : x - x % a = roundDown a x := by
  have hsplit := Nat.div_add_mod' x a
  rw [roundDown]
  omega

/-- A range from `x` to `y` whose start is rounded up and whose length is rounded down may end
behind `y`, but not behind a multiple. -/
theorem roundUp_add_roundDown_le (ha : 0 < a) (he : a ∣ e) (hxy : x ≤ y) (hye : y ≤ e) :
    roundUp a x + roundDown a (y - x) ≤ e := by
  have hup := roundUp_lt ha x
  have hdown := roundDown_le a (y - x)
  have hlt : roundUp a x + roundDown a (y - x) < e + a := by omega
  exact Nat.le_of_lt_add_of_dvd hlt (Nat.dvd_add (dvd_roundUp a x) (dvd_roundDown a (y - x))) he

/-! ## Masks -/

theorem and_shiftLeft (n m k : ℕ) : n &&& (m <<< k) = ((n >>> k) &&& m) <<< k := by
  apply Nat.eq_of_testBit_eq
  intro i
  simp only [Nat.testBit_and, Nat.testBit_shiftLeft, Nat.testBit_shiftRight]
  by_cases hi : k ≤ i
  · simp [hi]
  · simp [hi]

/-- The complement of the mask of the `k` low bits rounds down. -/
theorem and_high_eq {w k n : ℕ} (hk : k ≤ w) (hn : n < 2 ^ w) :
    n &&& (2 ^ w - 2 ^ k) = roundDown (2 ^ k) n := by
  have hmask : 2 ^ w - 2 ^ k = (2 ^ (w - k) - 1) <<< k := by
    rw [Nat.shiftLeft_eq, Nat.sub_mul, ← pow_add, Nat.sub_add_cancel hk, Nat.one_mul]
  have hlt : n >>> k < 2 ^ (w - k) := by
    rw [Nat.shiftRight_eq_div_pow]
    apply Nat.div_lt_of_lt_mul
    rwa [← pow_add, Nat.add_sub_cancel' hk]
  rw [hmask, and_shiftLeft, Nat.and_two_pow_sub_one_eq_mod, Nat.mod_eq_of_lt hlt,
    Nat.shiftLeft_eq, Nat.shiftRight_eq_div_pow, roundDown]

/-- Taking the low bits away rounds down. -/
theorem sub_and_low_eq (k n : ℕ) : n - (n &&& (2 ^ k - 1)) = roundDown (2 ^ k) n := by
  rw [Nat.and_two_pow_sub_one_eq_mod, sub_mod_eq]

end Alignment
