import Mathlib.Data.List.Basic
import Mathlib.Tactic.Common
import Mathlib.Tactic.Ring

/-! # Bytes in memory

A memory is a total function from offsets to bytes. -/

namespace Bytes

/-- The memory holds `bytes` from offset `off` on. -/
def At (mem : ℕ → UInt8) (off : ℕ) (bytes : List UInt8) : Prop :=
  ∀ i (h : i < bytes.length), mem (off + i) = bytes[i]

@[simp] theorem at_nil (mem : ℕ → UInt8) (off : ℕ) : At mem off [] := by
  intro i h
  simp at h

theorem at_cons {mem : ℕ → UInt8} {off : ℕ} {b : UInt8} {bytes : List UInt8} :
    At mem off (b :: bytes) ↔ mem off = b ∧ At mem (off + 1) bytes := by
  constructor
  · intro h
    refine ⟨h 0 (Nat.zero_lt_succ _), ?_⟩
    intro i hi
    rw [Nat.add_assoc, Nat.add_comm 1 i]
    exact h (i + 1) (Nat.succ_lt_succ hi)
  · rintro ⟨hb, h⟩ i hi
    cases i with
    | zero => exact hb
    | succ i =>
        have hnext := h i (Nat.lt_of_succ_lt_succ hi)
        have hoff : off + (i + 1) = off + 1 + i := by omega
        rw [hoff]
        exact hnext

theorem at_append {mem : ℕ → UInt8} {off : ℕ} {xs ys : List UInt8} :
    At mem off (xs ++ ys) ↔ At mem off xs ∧ At mem (off + xs.length) ys := by
  induction xs generalizing off with
  | nil => simp
  | cons x xs ih =>
      simp [at_cons, ih, Nat.add_assoc, Nat.add_comm 1 xs.length, and_assoc]

/-- A list seen as a memory, with `junk` after its end. -/
def ofList (bytes : List UInt8) (junk : ℕ → UInt8) (i : ℕ) : UInt8 :=
  bytes.getD i (junk i)

theorem at_ofList (bytes : List UInt8) (junk : ℕ → UInt8) : At (ofList bytes junk) 0 bytes := by
  intro i h
  simp [ofList, h]

/-! ## Loads and stores -/

/-- The `n` bytes from `off` on. -/
def load (mem : ℕ → UInt8) (off n : ℕ) : List UInt8 :=
  (List.range n).map fun i => mem (off + i)

/-- The memory with `bytes` from `off` on. -/
def store (mem : ℕ → UInt8) (off : ℕ) (bytes : List UInt8) (i : ℕ) : UInt8 :=
  if off ≤ i ∧ i < off + bytes.length then bytes.getD (i - off) 0 else mem i

@[simp] theorem length_load (mem : ℕ → UInt8) (off n : ℕ) : (load mem off n).length = n := by
  simp [load]

theorem load_eq_of_at {mem : ℕ → UInt8} {off : ℕ} {bytes : List UInt8} (h : At mem off bytes) :
    load mem off bytes.length = bytes := by
  apply List.ext_getElem
  · simp
  · intro i hi hi'
    simpa [load] using h i hi'

@[simp] theorem store_nil (mem : ℕ → UInt8) (off : ℕ) : store mem off [] = mem := by
  funext i
  rw [store, if_neg]
  simp only [List.length_nil]
  omega

/-- Two adjacent stores are one. -/
theorem store_append (mem : ℕ → UInt8) (off : ℕ) (xs ys : List UInt8) :
    store (store mem off xs) (off + xs.length) ys = store mem off (xs ++ ys) := by
  funext i
  simp only [store, List.length_append, List.getD_eq_getElem?_getD]
  by_cases hxs : i < off + xs.length
  · rw [if_neg (by omega)]
    by_cases hoff : off ≤ i
    · rw [if_pos ⟨hoff, hxs⟩, if_pos ⟨hoff, by omega⟩, List.getElem?_append_left (by omega)]
    · rw [if_neg (by omega), if_neg (by omega)]
  · rw [if_neg (show ¬ (off ≤ i ∧ i < off + xs.length) by omega)]
    by_cases hys : i < off + xs.length + ys.length
    · rw [if_pos ⟨by omega, hys⟩, if_pos ⟨by omega, by omega⟩,
        List.getElem?_append_right (by omega), Nat.sub_sub]
    · rw [if_neg (by omega), if_neg (by omega)]

theorem at_store (mem : ℕ → UInt8) (off : ℕ) (bytes : List UInt8) :
    At (store mem off bytes) off bytes := by
  intro i h
  simp [store, h]

/-! ## Numbers -/

/-- A number in `w` bytes, the most significant one first. -/
def be : ℕ → ℕ → List UInt8
  | 0, _ => []
  | w + 1, n => UInt8.ofNat (n / 256 ^ w) :: be w n

/-- The number that bytes stand for, the most significant one first. -/
def ofBe : List UInt8 → ℕ
  | [] => 0
  | b :: bytes => b.toNat * 256 ^ bytes.length + ofBe bytes

@[simp] theorem length_be (w n : ℕ) : (be w n).length = w := by
  induction w with
  | zero => rfl
  | succ w ih => simp [be, ih]

theorem ofBe_be (w n : ℕ) : ofBe (be w n) = n % 256 ^ w := by
  induction w with
  | zero => simp [be, ofBe, Nat.mod_one]
  | succ w ih =>
      have hsplit : n % 256 ^ (w + 1) = n % 256 ^ w + 256 ^ w * (n / 256 ^ w % 256) := by
        rw [pow_succ]
        exact Nat.mod_mul
      rw [be, ofBe, length_be, ih, UInt8.toNat_ofNat', hsplit, Nat.add_comm, Nat.mul_comm]

theorem ofBe_lt (bytes : List UInt8) : ofBe bytes < 256 ^ bytes.length := by
  induction bytes with
  | nil => simp [ofBe]
  | cons b bytes ih =>
      rw [ofBe, List.length_cons, pow_succ]
      have hb : b.toNat * 256 ^ bytes.length ≤ 255 * 256 ^ bytes.length :=
        Nat.mul_le_mul_right _ (by have := b.toNat_lt; omega)
      omega

theorem div_pow_add (w k n : ℕ) : (k * 256 ^ w + n) / 256 ^ w = k + n / 256 ^ w := by
  rw [Nat.add_comm, Nat.add_mul_div_right _ _ (Nat.pow_pos (by decide)), Nat.add_comm]

theorem be_add_mul (w k n : ℕ) : be w (k * 256 ^ w + n) = be w n := by
  induction w generalizing k with
  | zero => rfl
  | succ w ih =>
      have hsplit : k * 256 ^ (w + 1) + n = k * 256 * 256 ^ w + n := by ring
      have hbyte : UInt8.ofNat (k * 256 + n / 256 ^ w) = UInt8.ofNat (n / 256 ^ w) := by
        rw [← UInt8.toNat_inj, UInt8.toNat_ofNat', UInt8.toNat_ofNat']
        omega
      rw [be, be, hsplit, ih, div_pow_add, hbyte]

/-- The bytes of the number that bytes stand for. -/
theorem be_ofBe (bytes : List UInt8) : be bytes.length (ofBe bytes) = bytes := by
  induction bytes with
  | nil => rfl
  | cons b bytes ih =>
      rw [List.length_cons, ofBe, be, be_add_mul, ih, div_pow_add, Nat.div_eq_of_lt (ofBe_lt bytes),
        Nat.add_zero, UInt8.ofNat_toNat]

end Bytes
