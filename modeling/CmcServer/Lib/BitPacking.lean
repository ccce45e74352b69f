import Mathlib.Data.List.Basic
import Mathlib.Algebra.Order.Ring.Nat
import Mathlib.Tactic.Common
import Mathlib.Tactic.Ring

/-! # Numbers packed into a word

Numbers of given widths side by side, the first one in the lowest bits. -/

namespace BitPacking

/-- The word of some widths and numbers, of which only the bits that fit are kept. -/
def word : List (ℕ × ℕ) → ℕ
  | [] => 0
  | field :: fields => field.2 % 2 ^ field.1 + 2 ^ field.1 * word fields

variable (field : ℕ × ℕ) (fields : List (ℕ × ℕ))

theorem word_lt : word fields < 2 ^ (fields.map Prod.fst).sum := by
  induction fields with
  | nil => simp [word]
  | cons field fields ih =>
      have hlow : field.2 % 2 ^ field.1 < 2 ^ field.1 := Nat.mod_lt _ (Nat.two_pow_pos _)
      have hhigh : word fields + 1 ≤ 2 ^ (fields.map Prod.fst).sum := ih
      rw [List.map_cons, List.sum_cons, pow_add, word]
      calc field.2 % 2 ^ field.1 + 2 ^ field.1 * word fields
          < 2 ^ field.1 + 2 ^ field.1 * word fields := Nat.add_lt_add_right hlow _
        _ = 2 ^ field.1 * (word fields + 1) := by ring
        _ ≤ 2 ^ field.1 * 2 ^ (fields.map Prod.fst).sum := Nat.mul_le_mul_left _ hhigh

/-- The first number is in the lowest bits. -/
theorem word_cons_mod : word (field :: fields) % 2 ^ field.1 = field.2 % 2 ^ field.1 := by
  rw [word, Nat.add_mul_mod_self_left, Nat.mod_mod]

/-- The others are above it. -/
theorem word_cons_div : word (field :: fields) / 2 ^ field.1 = word fields := by
  have hlow : field.2 % 2 ^ field.1 < 2 ^ field.1 := Nat.mod_lt _ (Nat.two_pow_pos _)
  rw [word, Nat.add_mul_div_left _ _ (Nat.two_pow_pos _), Nat.div_eq_of_lt hlow, Nat.zero_add]

/-- A number shifted behind the bits that are taken is added to them. -/
theorem or_shiftLeft {packed offset : ℕ} (h : packed < 2 ^ offset) (value : ℕ) :
    packed ||| value <<< offset = packed + 2 ^ offset * value := by
  rw [Nat.shiftLeft_eq, Nat.or_comm, Nat.mul_comm, ← Nat.two_pow_add_eq_or_of_lt h, Nat.add_comm]

end BitPacking
