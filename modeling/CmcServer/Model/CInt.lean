import Mathlib.Algebra.Group.Int.Defs
import Mathlib.Algebra.Group.Nat.Defs
import Mathlib.Data.Int.Basic
import Mathlib.Tactic.Common

/-! # Machine integers

`int` and `int32_t` values are integers wrapped to 32 bits, `size_t` values are naturals
wrapped to 64 bits. -/

namespace CmcServer

/-- Conversion to `int`. -/
def toInt32 (x : ℤ) : ℤ := Int.bmod x (2 ^ 32)

/-- Conversion to `int64_t`. -/
def toInt64 (x : ℤ) : ℤ := Int.bmod x (2 ^ 64)

/-- Conversion to `size_t`. -/
def toSize (x : ℤ) : ℕ := (x % 2 ^ 64).toNat

/-- Addition of two `size_t` values. -/
def sizeAdd (x y : ℕ) : ℕ := (x + y) % 2 ^ 64

/-- Subtraction of two `size_t` values. -/
def sizeSub (x y : ℕ) : ℕ := (x + (2 ^ 64 - y % 2 ^ 64)) % 2 ^ 64

/-- `(b & 0x7F) << shift`, an `int`. The processor takes the count modulo 32. -/
def shlGroup (b : UInt8) (shift : ℕ) : BitVec 32 :=
  BitVec.ofNat 32 (b &&& 0x7F).toNat <<< (shift % 32)

/-- `value |= (b & 0x7F) << shift` on an `int32_t`. -/
def orGroup (value : ℤ) (b : UInt8) (shift : ℕ) : ℤ :=
  (BitVec.ofInt 32 value ||| shlGroup b shift).toInt

/-- `value |= (b & 0x7F) << shift` on an `int64_t`, to which the `int` is sign extended. -/
def orGroupLong (value : ℤ) (b : UInt8) (shift : ℕ) : ℤ :=
  (BitVec.ofInt 64 value ||| (shlGroup b shift).signExtend 64).toInt

theorem toInt32_of_range {x : ℤ} (hlo : -(2 ^ 31) ≤ x) (hhi : x < 2 ^ 31) : toInt32 x = x := by
  unfold toInt32
  rw [Int.bmod_eq_of_le] <;> omega

theorem toInt32_bounds (x : ℤ) : -(2 ^ 31) ≤ toInt32 x ∧ toInt32 x < 2 ^ 31 := by
  unfold toInt32
  have hlo := Int.le_bmod (x := x) (m := 2 ^ 32) (by omega)
  have hhi := Int.bmod_lt (x := x) (m := 2 ^ 32) (by omega)
  omega

/-- A number that is too large for an `int` by less than `2 ^ 31` wraps to a negative one. -/
theorem toInt32_of_wrap {x : ℤ} (hlo : 2 ^ 31 ≤ x) (hhi : x < 2 ^ 32) :
    toInt32 x = x - 2 ^ 32 := by
  rw [toInt32, Int.bmod_eq_emod, Int.emod_eq_of_lt (by omega) (by exact_mod_cast hhi),
    if_pos (by omega)]
  rfl

theorem toInt32_of_nonneg {x : ℤ} (hlo : 0 ≤ x) (hhi : x < 2 ^ 32) :
    x < 2 ^ 31 ∧ toInt32 x = x ∨ 2 ^ 31 ≤ x ∧ toInt32 x = x - 2 ^ 32 := by
  by_cases h : x < 2 ^ 31
  · exact Or.inl ⟨h, toInt32_of_range (by omega) h⟩
  · have hge : 2 ^ 31 ≤ x := Int.not_lt.mp h
    exact Or.inr ⟨hge, toInt32_of_wrap hge hhi⟩

theorem toInt32_neg_iff {x : ℤ} (hlo : 0 ≤ x) (hhi : x < 2 ^ 32) : toInt32 x < 0 ↔ 2 ^ 31 ≤ x := by
  have hcases := toInt32_of_nonneg hlo hhi
  omega

theorem toInt64_bounds (x : ℤ) : -(2 ^ 63) ≤ toInt64 x ∧ toInt64 x < 2 ^ 63 := by
  unfold toInt64
  have hlo := Int.le_bmod (x := x) (m := 2 ^ 64) (by omega)
  have hhi := Int.bmod_lt (x := x) (m := 2 ^ 64) (by omega)
  omega

theorem toInt64_of_range {x : ℤ} (hlo : -(2 ^ 63) ≤ x) (hhi : x < 2 ^ 63) : toInt64 x = x := by
  unfold toInt64
  rw [Int.bmod_eq_of_le] <;> omega

theorem toSize_of_nonneg {x : ℤ} (hlo : 0 ≤ x) (hhi : x < 2 ^ 64) : toSize x = x.toNat := by
  unfold toSize
  rw [Int.emod_eq_of_lt hlo hhi]

theorem sizeSub_of_le {x y : ℕ} (hle : y ≤ x) (hlt : x < 2 ^ 64) : sizeSub x y = x - y := by
  unfold sizeSub
  omega

theorem sizeAdd_of_lt {x y : ℕ} (h : x + y < 2 ^ 64) : sizeAdd x y = x + y :=
  Nat.mod_eq_of_lt h

end CmcServer
