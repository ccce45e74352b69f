import Mathlib.Algebra.BigOperators.Ring.Finset
import Mathlib.Data.List.Basic
import Mathlib.Tactic.Common
import Mathlib.Tactic.Ring

/-! # Base-128 numerals

Little-endian groups of seven bits, with the top bit of a byte set when another group follows. -/

namespace Base128

/-- The numeral of `n`. -/
def encode (n : ℕ) : List UInt8 :=
  if n < 128 then [UInt8.ofNat n]
  else UInt8.ofNat (n % 128 + 128) :: encode (n / 128)
  termination_by n
  decreasing_by omega

theorem encode_of_lt {n : ℕ} (h : n < 128) : encode n = [UInt8.ofNat n] := by
  rw [encode, if_pos h]

theorem encode_of_ge {n : ℕ} (h : 128 ≤ n) :
    encode n = UInt8.ofNat (n % 128 + 128) :: encode (n / 128) := by
  rw [encode, if_neg (Nat.not_lt.mpr h)]

theorem encode_ne_nil (n : ℕ) : encode n ≠ [] := by
  rw [encode]
  split <;> simp

theorem encode_length_pos (n : ℕ) : 0 < (encode n).length :=
  List.length_pos_iff.mpr (encode_ne_nil n)

/-- A number below `128 ^ (k + 1)` has a numeral of at most `k + 1` bytes. -/
theorem encode_length_le {k n : ℕ} (h : n < 128 ^ (k + 1)) : (encode n).length ≤ k + 1 := by
  induction k generalizing n with
  | zero => simp [encode_of_lt (by simpa using h)]
  | succ k ih =>
      by_cases hn : n < 128
      · simp [encode_of_lt hn]
      · rw [encode_of_ge (Nat.not_lt.mp hn), List.length_cons]
        have hdiv : n / 128 < 128 ^ (k + 1) := by
          rw [Nat.div_lt_iff_lt_mul (by omega), ← pow_succ]
          exact h
        exact Nat.succ_le_succ (ih hdiv)

/-! ## Numerals at the start of a list -/

/-- The number that the groups of some bytes stand for. -/
def value : List UInt8 → ℕ
  | [] => 0
  | b :: bytes => b.toNat % 128 + 128 * value bytes

/-- The numeral that a list starts with, if it has at most the given length, and what follows. -/
def split : ℕ → List UInt8 → Option (List UInt8 × List UInt8)
  | 0, _ => none
  | _ + 1, [] => none
  | n + 1, b :: bytes =>
      if b.toNat < 128 then some ([b], bytes)
      else (split n bytes).map fun parts => (b :: parts.1, parts.2)

/-- The bytes of a numeral, canonical or not: another group follows all but the last. -/
def IsNumeral (bytes : List UInt8) : Prop :=
  ∃ front last, bytes = front ++ [last] ∧ (∀ b ∈ front, 128 ≤ b.toNat) ∧ last.toNat < 128

theorem not_isNumeral_nil : ¬ IsNumeral [] := by
  rintro ⟨front, last, h, -⟩
  simp at h

theorem isNumeral_cons {b : UInt8} {bytes : List UInt8} :
    IsNumeral (b :: bytes) ↔ b.toNat < 128 ∧ bytes = [] ∨ 128 ≤ b.toNat ∧ IsNumeral bytes := by
  constructor
  · rintro ⟨front, last, h, hfront, hlast⟩
    cases front with
    | nil =>
        cases h
        exact Or.inl ⟨hlast, rfl⟩
    | cons c front =>
        cases h
        exact Or.inr ⟨hfront b List.mem_cons_self, front, last, rfl,
          fun c hc => hfront c (List.mem_cons_of_mem b hc), hlast⟩
  · rintro (⟨hb, rfl⟩ | ⟨hb, front, last, rfl, hfront, hlast⟩)
    · exact ⟨[], b, rfl, by simp, hb⟩
    · refine ⟨b :: front, last, rfl, ?_, hlast⟩
      intro c hc
      rcases List.mem_cons.mp hc with rfl | hc
      · exact hb
      · exact hfront c hc

/-- A list is split behind the numeral that it starts with. -/
theorem split_eq_some_iff {n : ℕ} {data id rest : List UInt8} :
    split n data = some (id, rest) ↔ IsNumeral id ∧ id.length ≤ n ∧ data = id ++ rest := by
  induction n generalizing data id with
  | zero =>
      rw [split]
      constructor
      · intro h
        cases h
      · rintro ⟨hid, hlength, -⟩
        rw [List.length_eq_zero_iff.mp (Nat.le_zero.mp hlength)] at hid
        exact absurd hid not_isNumeral_nil
  | succ n ih =>
      cases data with
      | nil =>
          rw [split]
          constructor
          · intro h
            cases h
          · rintro ⟨hid, -, hdata⟩
            rw [(List.append_eq_nil_iff.mp hdata.symm).1] at hid
            exact absurd hid not_isNumeral_nil
      | cons b bytes =>
          rw [split]
          by_cases hb : b.toNat < 128
          · rw [if_pos hb]
            constructor
            · intro h
              cases h
              exact ⟨isNumeral_cons.mpr (Or.inl ⟨hb, rfl⟩), by simp, rfl⟩
            · rintro ⟨hid, -, hdata⟩
              cases id with
              | nil => exact absurd hid not_isNumeral_nil
              | cons c id =>
                  cases hdata
                  rcases isNumeral_cons.mp hid with ⟨-, rfl⟩ | ⟨hge, -⟩
                  · rfl
                  · omega
          · rw [if_neg hb]
            constructor
            · intro h
              rcases Option.map_eq_some_iff.mp h with ⟨⟨front, back⟩, hsplit, hparts⟩
              cases hparts
              rcases ih.mp hsplit with ⟨hfront, hlength, rfl⟩
              exact ⟨isNumeral_cons.mpr (Or.inr ⟨Nat.not_lt.mp hb, hfront⟩),
                Nat.succ_le_succ hlength, rfl⟩
            · rintro ⟨hid, hlength, hdata⟩
              cases id with
              | nil => exact absurd hid not_isNumeral_nil
              | cons c id =>
                  cases hdata
                  rcases isNumeral_cons.mp hid with ⟨hlt, -⟩ | ⟨-, hid⟩
                  · exact absurd hlt hb
                  · exact Option.map_eq_some_iff.mpr ⟨(id, rest),
                      ih.mpr ⟨hid, Nat.le_of_succ_le_succ hlength, rfl⟩, rfl⟩

/-- The groups of a numeral, each at its weight. -/
theorem value_eq_sum (bytes : List UInt8) :
    value bytes = ∑ i ∈ Finset.range bytes.length, (bytes.getD i 0).toNat % 128 * 2 ^ (7 * i) := by
  induction bytes with
  | nil => rfl
  | cons b bytes ih =>
      rw [value, ih, List.length_cons, Finset.sum_range_succ', Finset.mul_sum, Nat.add_comm]
      congr 1
      · refine Finset.sum_congr rfl fun i _ => ?_
        rw [List.getD_cons_succ]
        ring
      · simp

end Base128
