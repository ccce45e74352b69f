import CmcServer.Verification.Varint.Correctness

/-! # Varlongs

The reader shifts a group as an `int`, whose sign is extended when it is added to the `int64_t`.
What it collects is the value of an `int`, from however many groups. -/

namespace CmcServer

open Bytes

/-! ## Collecting groups -/

/-- The value that a reader collects from the bytes of a numeral, from a shift on. -/
def collect (orInto : ℤ → UInt8 → ℕ → ℤ) : ℕ → ℤ → List UInt8 → ℤ
  | _, value, [] => value
  | shift, value, b :: bytes => collect orInto (shift + 7) (orInto value b shift) bytes

/-- A reader takes the whole numeral when its last group is below the limit. -/
theorem readLoop_collect (orInto : ℤ → UInt8 → ℕ → ℤ) (limit shift : ℕ) (value : ℤ)
    {n i size : ℕ} {buffer : ℕ → UInt8} (hbytes : At buffer i (Base128.encode n))
    (hsize : (Base128.encode n).length ≤ size)
    (hlimit : shift + 7 * (Base128.encode n).length ≤ limit + 6) :
    readLoop orInto limit buffer size i shift value =
      { ret := (i + (Base128.encode n).length : ℕ)
        value := collect orInto shift value (Base128.encode n)
        inspected := i + (Base128.encode n).length } := by
  induction n using Nat.strongRecOn generalizing i shift size value with
  | ind n ih =>
      obtain ⟨size, rfl⟩ : ∃ m, size = m + 1 :=
        ⟨size - 1, by have := Base128.encode_length_pos n; omega⟩
      by_cases hn : n < 128
      · rcases at_encode_of_lt hn hbytes with ⟨hencode, hnat⟩
        rw [readLoop_stop (by omega), hencode]
        rfl
      · rcases at_encode_of_ge (Nat.not_lt.mp hn) hbytes with ⟨hencode, hnat, hrest⟩
        have hpos := Base128.encode_length_pos (n / 128)
        rw [hencode, List.length_cons] at hsize hlimit
        have hrec := ih (n / 128) (by omega) (shift + 7) (orInto value (buffer i) shift) hrest
          (Nat.le_of_succ_le_succ hsize) (by omega)
        rw [readLoop_go (by omega) (by omega), hrec, hencode]
        simp only [collect, List.length_cons, VarintRead.mk.injEq, true_and]
        omega

theorem orGroup_bounds (value : ℤ) (b : UInt8) (shift : ℕ) :
    -(2 ^ 31) ≤ orGroup value b shift ∧ orGroup value b shift < 2 ^ 31 :=
  ⟨BitVec.le_toInt _, BitVec.toInt_lt⟩

/-- On the value of an `int`, a group added to an `int64_t` is one added to an `int`. -/
theorem orGroupLong_eq {value : ℤ} (hlo : -(2 ^ 31) ≤ value) (hhi : value < 2 ^ 31) (b : UInt8)
    (shift : ℕ) : orGroupLong value b shift = orGroup value b shift := by
  have hint : (BitVec.ofInt 32 value).toInt = value := by
    rw [BitVec.toInt_ofInt]
    exact toInt32_of_range hlo hhi
  have hvalue : BitVec.ofInt 64 value = (BitVec.ofInt 32 value).signExtend 64 := by
    rw [BitVec.signExtend, hint]
  rw [orGroupLong, hvalue, ← BitVec.signExtend_or, BitVec.toInt_signExtend_of_le (by decide),
    orGroup]

/-- What is collected into an `int64_t` stays the value of an `int`. -/
theorem collect_orGroupLong (bytes : List UInt8) (shift : ℕ) {value : ℤ}
    (hlo : -(2 ^ 31) ≤ value) (hhi : value < 2 ^ 31) :
    collect orGroupLong shift value bytes = collect orGroup shift value bytes ∧
      -(2 ^ 31) ≤ collect orGroup shift value bytes ∧
      collect orGroup shift value bytes < 2 ^ 31 := by
  induction bytes generalizing shift value with
  | nil => simp only [collect, hlo, hhi, and_self]
  | cons b bytes ih =>
      have hbounds := orGroup_bounds value b shift
      simp only [collect, orGroupLong_eq hlo hhi]
      exact ih _ hbounds.1 hbounds.2

theorem collect_encode {n : ℕ} (h : n < 2 ^ 31) :
    collect orGroup 0 0 (Base128.encode n) = n := by
  have hbytes := at_ofList (Base128.encode n) fun _ => 0
  have hle : (Base128.encode n).length ≤ 5 := Base128.encode_length_le (k := 4) (by omega)
  have hread := protocolReadVarint_encode h hbytes le_rfl
  have hcollect := readLoop_collect orGroup 32 0 0 hbytes le_rfl (by omega)
  rw [protocolReadVarint, Int.toNat_natCast, hcollect] at hread
  exact congrArg VarintRead.value hread

/-! ## Negative values -/

theorem encode_ones (k : ℕ) :
    Base128.encode (2 ^ (7 * k + 1) - 1) = List.replicate k 0xFF ++ [1] := by
  induction k with
  | zero => exact Base128.encode_of_lt (by decide)
  | succ k ih =>
      have hpow : 2 ^ (7 * (k + 1) + 1) = 128 * 2 ^ (7 * k + 1) := by ring
      have hpos : 2 ≤ 2 ^ (7 * k + 1) := Nat.le_self_pow (by omega) 2
      have hgroup : (2 ^ (7 * (k + 1) + 1) - 1) % 128 + 128 = 255 := by omega
      have hrest : (2 ^ (7 * (k + 1) + 1) - 1) / 128 = 2 ^ (7 * k + 1) - 1 := by omega
      rw [Base128.encode_of_ge (by omega), hgroup, hrest, ih, List.replicate_succ]
      rfl

/-- The groups of the upper half of a small negative value set all bits but the lowest three,
since their shifts are counted modulo 32. -/
theorem collect_ones (value : ℤ) :
    -8 ≤ collect orGroup 35 value [0xFF, 0xFF, 0xFF, 0xFF, 1] := by
  have hones : collect orGroup 35 value [0xFF, 0xFF, 0xFF, 0xFF, 1] =
      (BitVec.ofInt 32 value ||| 0xFFFFFFF8#32).toInt := by
    simp only [collect, orGroup, BitVec.ofInt_toInt, BitVec.or_assoc]
    rfl
  have hle : 2 ^ 32 - 8 ≤ (BitVec.ofInt 32 value ||| 0xFFFFFFF8#32).toNat := by
    rw [BitVec.toNat_or]
    exact Nat.right_le_or
  have hlt := (BitVec.ofInt 32 value ||| 0xFFFFFFF8#32).isLt
  rw [hones, BitVec.toInt_eq_toNat_cond, if_neg (by omega)]
  omega

theorem collect_encode_of_neg {n : ℕ} (hlo : 2 ^ 64 - 2 ^ 31 ≤ n) (hhi : n < 2 ^ 64) :
    -8 ≤ collect orGroup 0 0 (Base128.encode n) := by
  have hrest : n / 128 / 128 / 128 / 128 / 128 = 2 ^ (7 * 4 + 1) - 1 := by omega
  rw [Base128.encode_of_ge (by omega), Base128.encode_of_ge (by omega),
    Base128.encode_of_ge (by omega), Base128.encode_of_ge (by omega),
    Base128.encode_of_ge (by omega), hrest, encode_ones]
  exact collect_ones _

/-- The last eight values have all other bits set. -/
theorem collect_encode_of_last {r : ℕ} (h : r < 8) :
    collect orGroup 0 0 (Base128.encode (2 ^ 64 - 8 + r)) = -8 + r := by
  have hrest : (2 ^ 64 - 8 + r) / 128 = 2 ^ (7 * 8 + 1) - 1 := by omega
  have hgroup : (2 ^ 64 - 8 + r) % 128 + 128 = 248 + r := by omega
  rw [Base128.encode_of_ge (by omega), hrest, encode_ones, hgroup]
  clear hrest hgroup
  revert r
  decide +kernel

/-! ## Reading back -/

/-- The reader takes exactly the given bytes from anything that starts with them, for the
value. -/
def VarlongReads (bytes : List UInt8) (v : ℤ) : Prop :=
  ∀ (suffix : List UInt8) (beyond : ℕ → UInt8),
    let read := protocolReadVarlong (ofList (bytes ++ suffix) beyond) (bytes ++ suffix).length 0
    read.ret = bytes.length ∧ read.value = v

/-- The numeral of a value is read as the value, and so is what the writer makes of it when it is
not negative. -/
def VarlongDecodes (v : BitVec 64) : Prop :=
  VarlongReads (Base128.encode v.toNat) v.toInt ∧
    (0 ≤ v.toInt → ∃ bytes, protocolWriteVarlong v.toInt = some bytes ∧ VarlongReads bytes v.toInt)

/-- The reader returns the length of every numeral of 64 bits. -/
theorem protocolReadVarlong_encode {n : ℕ} (hn : n < 2 ^ 64) (suffix : List UInt8)
    (beyond : ℕ → UInt8) :
    protocolReadVarlong (ofList (Base128.encode n ++ suffix) beyond)
        (Base128.encode n ++ suffix).length 0 =
      { ret := (Base128.encode n).length
        value := collect orGroup 0 0 (Base128.encode n)
        inspected := (Base128.encode n).length } := by
  have hbytes : At (ofList (Base128.encode n ++ suffix) beyond) 0 (Base128.encode n) :=
    (at_append.mp (at_ofList (Base128.encode n ++ suffix) beyond)).1
  have hle : (Base128.encode n).length ≤ 10 := Base128.encode_length_le (k := 9) (by omega)
  have hread := readLoop_collect orGroupLong 64 0 0 hbytes
    (show _ ≤ (Base128.encode n ++ suffix).length by simp) (by omega)
  have hvalue : collect orGroupLong 0 0 (Base128.encode n) =
      collect orGroup 0 0 (Base128.encode n) :=
    (collect_orGroupLong _ 0 (by decide) (by decide)).1
  rw [protocolReadVarlong, Int.toNat_natCast, hread, hvalue, Nat.zero_add]

theorem varlongReads_encode_iff {n : ℕ} (hn : n < 2 ^ 64) (v : ℤ) :
    VarlongReads (Base128.encode n) v ↔ collect orGroup 0 0 (Base128.encode n) = v := by
  simp only [VarlongReads, protocolReadVarlong_encode hn, true_and, forall_const]

theorem collect_encode_iff (v : BitVec 64) :
    collect orGroup 0 0 (Base128.encode v.toNat) = v.toInt ↔ -8 ≤ v.toInt ∧ v.toInt < 2 ^ 31 := by
  have hlt := v.isLt
  have hint := BitVec.toInt_eq_toNat_cond v
  constructor
  · intro h
    have hbounds := (collect_orGroupLong (Base128.encode v.toNat) 0
      (show -(2 ^ 31) ≤ (0 : ℤ) by decide) (by decide)).2
    rw [h] at hbounds
    refine ⟨?_, hbounds.2⟩
    by_contra hneg
    have hlow := collect_encode_of_neg (show 2 ^ 64 - 2 ^ 31 ≤ v.toNat by grind) hlt
    omega
  · rintro ⟨hlo, hhi⟩
    by_cases hneg : v.toInt < 0
    · obtain ⟨r, hr⟩ : ∃ r, v.toNat = 2 ^ 64 - 8 + r := ⟨v.toNat - (2 ^ 64 - 8), by grind⟩
      have hr8 : r < 8 := by omega
      rw [hr, collect_encode_of_last hr8]
      grind
    · have hnat : v.toInt = v.toNat := by grind
      rw [collect_encode (by omega), hnat]

/-- A varlong is decoded exactly when it is the value of an `int` and, if it is negative, one of
the last eight. -/
theorem varlong_decodes_iff (v : BitVec 64) :
    VarlongDecodes v ↔ -8 ≤ v.toInt ∧ v.toInt < 2 ^ 31 := by
  rw [VarlongDecodes, varlongReads_encode_iff v.isLt, collect_encode_iff]
  refine and_iff_left_of_imp fun h hnonneg => ⟨Base128.encode v.toNat, ?_, ?_⟩
  · have hnat : v.toInt = v.toNat := by
      have hlt := v.isLt
      have hint := BitVec.toInt_eq_toNat_cond v
      grind
    rw [hnat]
    exact protocolWriteVarint_nat (by omega)
  · exact (varlongReads_encode_iff v.isLt _).mpr ((collect_encode_iff v).mpr h)

/-- The varlong of 2 ^ 31 is read as -2 ^ 31. -/
theorem varlong_sign_extended : ¬ ∀ v : BitVec 64, VarlongDecodes v := by
  intro h
  have hread := (h 0x80000000#64).1 [] fun _ => 0
  have hvalue := hread.2
  have hencode : Base128.encode (0x80000000#64).toNat = [0x80, 0x80, 0x80, 0x80, 0x08] := by
    simp [Base128.encode]
  rw [hencode] at hvalue
  revert hvalue
  decide

end CmcServer
