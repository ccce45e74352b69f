import CmcServer.Verification.Varint.Correctness

/-! # Varints of every `int32_t`

The writer shifts arithmetically, so a negative value never becomes zero. -/

namespace CmcServer

open Bytes

/-- The writer ends with one to five bytes, and the reader takes exactly those bytes from anything
that starts with them, for the value. -/
def VarintRoundTrips (v : ℤ) : Prop :=
  ∃ bytes, protocolWriteVarint v = some bytes ∧ 1 ≤ bytes.length ∧ bytes.length ≤ 5 ∧
    ∀ (suffix : List UInt8) (beyond : ℕ → UInt8),
      let read := protocolReadVarint (ofList (bytes ++ suffix) beyond) (bytes ++ suffix).length 0
      read.ret = bytes.length ∧ read.value = v

theorem varintRoundTrips_nat {n : ℕ} (h : n < 2 ^ 31) : VarintRoundTrips n := by
  have hpos := Base128.encode_length_pos n
  have hle : (Base128.encode n).length ≤ 5 := Base128.encode_length_le (k := 4) (by omega)
  refine ⟨Base128.encode n, protocolWriteVarint_nat (by omega), hpos, hle, ?_⟩
  intro suffix beyond
  have hbytes : At (ofList (Base128.encode n ++ suffix) beyond) 0 (Base128.encode n) :=
    (at_append.mp (at_ofList (Base128.encode n ++ suffix) beyond)).1
  have hsize : (Base128.encode n).length ≤ (Base128.encode n ++ suffix).length := by simp
  simp only [protocolReadVarint_encode h hbytes hsize, and_self]

/-- A varint is read back as it was written exactly when it is not negative. The loop of the
writer does not end for a negative one. -/
theorem varint_roundTrips_iff (v : BitVec 32) :
    (VarintRoundTrips v.toInt ↔ 0 ≤ v.toInt) ∧
      (v.toInt < 0 → ∀ fuel, writeLoop fuel v.toInt = none) := by
  have hwrites : v.toInt < 0 → ∀ fuel, writeLoop fuel v.toInt = none :=
    fun hneg fuel => writeLoop_of_neg fuel hneg
  refine ⟨⟨?_, ?_⟩, hwrites⟩
  · rintro ⟨bytes, hwrite, -⟩
    by_contra hneg
    have hnone : protocolWriteVarint v.toInt = none := hwrites (by omega) 10
    rw [hnone] at hwrite
    cases hwrite
  · intro hnonneg
    have hlt : v.toInt < 2 ^ 31 := v.toInt_lt
    have hvalue : (v.toInt.toNat : ℤ) = v.toInt := Int.toNat_of_nonneg hnonneg
    rw [← hvalue]
    exact varintRoundTrips_nat (by omega)

/-- The varint of -1 is never finished. -/
theorem varint_minus_one_diverges : ¬ ∀ v : BitVec 32, VarintRoundTrips v.toInt := by
  intro h
  rcases h (-1) with ⟨bytes, hwrite, -⟩
  have hnone : protocolWriteVarint (-1) = none := by decide
  have hvalue : (-1 : BitVec 32).toInt = -1 := by decide
  rw [hvalue, hnone] at hwrite
  cases hwrite

end CmcServer
