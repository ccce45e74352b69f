import CmcServer.Model.Varint
import CmcServer.Lib.Base128
import CmcServer.Lib.Bytes

/-! # The varint codec on non-negative values

The writer emits base-128 numerals, the reader decodes them back. -/

namespace CmcServer

open Bytes

/-! ## Single bytes -/

theorem and_group_toNat (b : UInt8) : (b &&& 0x7F).toNat = b.toNat % 128 := by
  rw [UInt8.toNat_and]
  exact Nat.and_two_pow_sub_one_eq_mod b.toNat 7

theorem and_continue_eq_zero_iff (b : UInt8) : b &&& 0x80 = 0 ↔ b.toNat < 128 := by
  have hall : ∀ n : Fin 256, UInt8.ofNat n &&& 0x80 = 0 ↔ (n : ℕ) < 128 := by
    decide +kernel
  have hb := hall ⟨b.toNat, b.toNat_lt⟩
  simpa using hb

theorem ofNat_or_continue {g : ℕ} (h : g < 128) :
    UInt8.ofNat g ||| 0x80 = UInt8.ofNat (g + 128) := by
  have hall : ∀ n : Fin 128, UInt8.ofNat n ||| 0x80 = UInt8.ofNat (n + 128) := by
    decide +kernel
  exact hall ⟨g, h⟩

/-- Adding a group of seven bits above the bits collected so far. -/
theorem orGroup_eq {v shift : ℕ} {b : UInt8} (hv : v < 2 ^ shift) (hshift : shift < 32) :
    orGroup v b shift = toInt32 (v + b.toNat % 128 * 2 ^ shift : ℕ) := by
  have hpow : (2 : ℕ) ^ 32 = 2 ^ (32 - shift) * 2 ^ shift := by
    rw [← pow_add, Nat.sub_add_cancel hshift.le]
  have hlow : v < 2 ^ 32 := hv.trans_le (Nat.pow_le_pow_right (by omega) hshift.le)
  have hgroup : (b.toNat % 128 * 2 ^ shift) % 2 ^ 32 =
      2 ^ shift * (b.toNat % 128 % 2 ^ (32 - shift)) := by
    rw [hpow, Nat.mul_mod_mul_right, Nat.mul_comm]
  have hcast : ((v : ℤ) % (2 ^ 32 : ℕ)).toNat = v := by
    rw [Int.emod_eq_of_lt (by omega) (by exact_mod_cast hlow)]
    rfl
  have hbits : (BitVec.ofInt 32 v ||| shlGroup b shift).toNat =
      v + b.toNat % 128 * 2 ^ shift % 2 ^ 32 := by
    rw [BitVec.toNat_or, shlGroup, Nat.mod_eq_of_lt hshift, BitVec.toNat_shiftLeft,
      BitVec.toNat_ofNat, and_group_toNat, BitVec.toNat_ofInt, Nat.shiftLeft_eq,
      Nat.mod_eq_of_lt (show b.toNat % 128 < 2 ^ 32 by omega), hcast, hgroup, Nat.or_comm,
      ← Nat.two_pow_add_eq_or_of_lt hv, Nat.add_comm]
  have hsame : ((v + b.toNat % 128 * 2 ^ shift % 2 ^ 32 : ℕ) : ℤ) % (2 ^ 32 : ℕ) =
      ((v + b.toNat % 128 * 2 ^ shift : ℕ) : ℤ) % (2 ^ 32 : ℕ) := by
    generalize b.toNat % 128 * 2 ^ shift = g
    omega
  rw [orGroup, BitVec.toInt_eq_toNat_bmod, hbits, toInt32, Int.bmod_eq_emod, hsame,
    ← Int.bmod_eq_emod]

theorem orGroup_add {v shift : ℕ} {b : UInt8} (hv : v < 2 ^ shift) (hshift : shift < 32)
    (hfit : v + b.toNat % 128 * 2 ^ shift < 2 ^ 31) :
    orGroup v b shift = ((v + b.toNat % 128 * 2 ^ shift : ℕ) : ℤ) := by
  rw [orGroup_eq hv hshift, toInt32_of_range (by omega) (by omega)]

/-! ## The writer -/

theorem writeLoop_eq_encode {fuel : ℕ} (n : ℕ) (h : n < 128 ^ fuel) (hfuel : 0 < fuel) :
    writeLoop fuel n = some (Base128.encode n) := by
  induction fuel generalizing n with
  | zero => omega
  | succ fuel ih =>
      have hgroup : ((n : ℤ) % 128).toNat = n % 128 := by omega
      have hrest : (n : ℤ) / 128 = ((n / 128 : ℕ) : ℤ) := by omega
      by_cases hn : n < 128
      · have hzero : (n : ℤ) / 128 = 0 := by omega
        rw [Base128.encode_of_lt hn]
        simp [writeLoop, hzero, hgroup, Nat.mod_eq_of_lt hn]
      · have hne : (n : ℤ) / 128 ≠ 0 := by omega
        have hlt : n / 128 < 128 ^ fuel := by
          rw [Nat.div_lt_iff_lt_mul (by omega), ← pow_succ]
          exact h
        have hpos : 0 < fuel := by
          by_contra hzero
          have : fuel = 0 := by omega
          subst this
          omega
        have hloop := ih (n / 128) hlt hpos
        rw [Base128.encode_of_ge (by omega)]
        simp only [writeLoop, hgroup]
        rw [if_pos hne, hrest, hloop, ← ofNat_or_continue (by omega)]
        rfl

/-- A negative value keeps the loop running. -/
theorem writeLoop_of_neg (fuel : ℕ) {value : ℤ} (h : value < 0) : writeLoop fuel value = none := by
  induction fuel generalizing value with
  | zero => rfl
  | succ fuel ih =>
      have hne : value / 128 ≠ 0 := by omega
      simp [writeLoop, hne, ih (show value / 128 < 0 by omega)]

theorem protocolWriteVarint_nat {n : ℕ} (h : n < 2 ^ 63) :
    protocolWriteVarint n = some (Base128.encode n) :=
  writeLoop_eq_encode n (Nat.lt_trans h (by decide)) (by decide)

/-- A run of the loop that ends leaves the numeral of its value. -/
theorem writeLoop_some {fuel n : ℕ} {bytes : List UInt8} (h : writeLoop fuel n = some bytes) :
    bytes = Base128.encode n := by
  induction fuel generalizing n bytes with
  | zero => cases h
  | succ fuel ih =>
      by_cases hn : n < 128
      · have hloop : writeLoop (fuel + 1) n = some (Base128.encode n) := writeLoop_eq_encode n
          (Nat.lt_of_lt_of_le hn (Nat.le_self_pow (Nat.succ_ne_zero fuel) 128)) (Nat.succ_pos fuel)
        rw [hloop] at h
        exact (Option.some.inj h).symm
      · have hgroup : ((n : ℤ) % 128).toNat = n % 128 := by omega
        have hrest : (n : ℤ) / 128 = ((n / 128 : ℕ) : ℤ) := by omega
        have hne : (n : ℤ) / 128 ≠ 0 := by omega
        simp only [writeLoop, hgroup] at h
        rw [if_pos hne, hrest] at h
        rcases Option.map_eq_some_iff.mp h with ⟨rest, hloop, rfl⟩
        rw [Base128.encode_of_ge (by omega), ih hloop, ← ofNat_or_continue (by omega)]

/-- A varint that is written is the numeral of a value that is not negative. -/
theorem protocolWriteVarint_some {value : ℤ} {bytes : List UInt8}
    (h : protocolWriteVarint value = some bytes) :
    0 ≤ value ∧ bytes = Base128.encode value.toNat := by
  have hnonneg : 0 ≤ value := by
    by_contra hneg
    rw [protocolWriteVarint, protocolWriteVarlong, writeLoop_of_neg _ (not_le.mp hneg)] at h
    cases h
  refine ⟨hnonneg, ?_⟩
  rw [← Int.toNat_of_nonneg hnonneg] at h
  exact writeLoop_some h

/-! ## The reader -/

section

variable {orInto : ℤ → UInt8 → ℕ → ℤ} {limit shift : ℕ} {value : ℤ} {buffer : ℕ → UInt8}
  {i size : ℕ}

theorem readLoop_stop (h : (buffer i).toNat < 128) :
    readLoop orInto limit buffer (size + 1) i shift value =
      { ret := i + 1, value := orInto value (buffer i) shift, inspected := i + 1 } := by
  rw [readLoop, if_pos ((and_continue_eq_zero_iff _).mpr h)]

/-- Below the limit it goes on behind a byte with the top bit. -/
theorem readLoop_go (h : 128 ≤ (buffer i).toNat) (hnext : shift + 7 < limit) :
    readLoop orInto limit buffer (size + 1) i shift value =
      readLoop orInto limit buffer size (i + 1) (shift + 7) (orInto value (buffer i) shift) := by
  have hgo : ¬ buffer i &&& 0x80 = 0 := by
    rw [and_continue_eq_zero_iff]
    omega
  rw [readLoop, if_neg hgo, if_neg (by omega)]

/-- At the limit it fails behind such a byte. -/
theorem readLoop_limit (h : 128 ≤ (buffer i).toNat) (hnext : limit ≤ shift + 7) :
    (readLoop orInto limit buffer (size + 1) i shift value).ret = -1 := by
  have hgo : ¬ buffer i &&& 0x80 = 0 := by
    rw [and_continue_eq_zero_iff]
    omega
  rw [readLoop, if_neg hgo, if_pos hnext]

theorem at_encode_of_lt {n : ℕ} (hn : n < 128) (h : At buffer i (Base128.encode n)) :
    Base128.encode n = [buffer i] ∧ (buffer i).toNat = n := by
  rw [Base128.encode_of_lt hn] at h ⊢
  have hb : buffer i = UInt8.ofNat n := (at_cons.mp h).1
  refine ⟨by rw [hb], ?_⟩
  rw [hb, UInt8.toNat_ofNat', Nat.mod_eq_of_lt (by omega)]

theorem at_encode_of_ge {n : ℕ} (hn : 128 ≤ n) (h : At buffer i (Base128.encode n)) :
    Base128.encode n = buffer i :: Base128.encode (n / 128) ∧
      (buffer i).toNat = n % 128 + 128 ∧ At buffer (i + 1) (Base128.encode (n / 128)) := by
  rw [Base128.encode_of_ge hn] at h ⊢
  rcases at_cons.mp h with ⟨hb, hrest⟩
  refine ⟨by rw [hb], ?_, hrest⟩
  rw [hb, UInt8.toNat_ofNat', Nat.mod_eq_of_lt (by omega)]

end

/-- The reader adds the value of a numeral to what it has collected. -/
theorem readLoop_encode {buffer : ℕ → UInt8} {n i shift v size : ℕ}
    (hbytes : At buffer i (Base128.encode n)) (hsize : (Base128.encode n).length ≤ size)
    (hv : v < 2 ^ shift) (hshift : shift < 32) (hfit : v + n * 2 ^ shift < 2 ^ 31) :
    readLoop orGroup 32 buffer size i shift v =
      { ret := (i + (Base128.encode n).length : ℕ)
        value := (v + n * 2 ^ shift : ℕ)
        inspected := i + (Base128.encode n).length } := by
  induction n using Nat.strongRecOn generalizing i shift v size with
  | ind n ih =>
      obtain ⟨size, rfl⟩ : ∃ m, size = m + 1 :=
        ⟨size - 1, by have := Base128.encode_length_pos n; omega⟩
      by_cases hn : n < 128
      · rcases at_encode_of_lt hn hbytes with ⟨hencode, hnat⟩
        have hor : orGroup v (buffer i) shift = ((v + n * 2 ^ shift : ℕ) : ℤ) := by
          have hmod : (buffer i).toNat % 128 = n := by omega
          rw [orGroup_add hv (by omega) (by rw [hmod]; exact hfit), hmod]
        rw [readLoop_stop (by omega), hor, hencode]
        rfl
      · rcases at_encode_of_ge (Nat.not_lt.mp hn) hbytes with ⟨hencode, hnat, hrest⟩
        rw [hencode, List.length_cons] at hsize ⊢
        have hmod : (buffer i).toNat % 128 = n % 128 := by omega
        have hpow : 2 ^ (shift + 7) = 128 * 2 ^ shift := by ring
        have hsplit : n * 2 ^ shift = n % 128 * 2 ^ shift + n / 128 * 2 ^ (shift + 7) := by
          rw [hpow, ← Nat.mul_assoc, ← Nat.add_mul]
          congr 1
          omega
        have hlow : v + n % 128 * 2 ^ shift < 2 ^ (shift + 7) := by
          have hle : n % 128 * 2 ^ shift ≤ 127 * 2 ^ shift := Nat.mul_le_mul_right _ (by omega)
          omega
        have hor : orGroup v (buffer i) shift = ((v + n % 128 * 2 ^ shift : ℕ) : ℤ) := by
          rw [orGroup_add hv (by omega) (by rw [hmod]; omega), hmod]
        have hnext : shift + 7 < 32 := by
          have hone : 1 * 2 ^ (shift + 7) ≤ n / 128 * 2 ^ (shift + 7) :=
            Nat.mul_le_mul_right _ (by omega)
          have hlt : 2 ^ (shift + 7) < 2 ^ 32 := by omega
          exact (Nat.pow_lt_pow_iff_right (by omega)).mp hlt
        have hrec := ih (n / 128) (by omega) hrest (Nat.le_of_succ_le_succ hsize) hlow hnext
          (by omega)
        have hvalue : v + n % 128 * 2 ^ shift + n / 128 * 2 ^ (shift + 7) = v + n * 2 ^ shift := by
          omega
        have hend : ∀ l : ℕ, i + 1 + l = i + (l + 1) := by
          intro l
          omega
        rw [readLoop_go (by omega) hnext, hor, hrec, hvalue, hend]

/-- The reader decodes what the writer emits. -/
theorem protocolReadVarint_encode {n size : ℕ} {buffer : ℕ → UInt8} (hn : n < 2 ^ 31)
    (hbytes : At buffer 0 (Base128.encode n)) (hsize : (Base128.encode n).length ≤ size) :
    protocolReadVarint buffer size 0 =
      { ret := (Base128.encode n).length
        value := n
        inspected := (Base128.encode n).length } := by
  have hread := readLoop_encode (v := 0) hbytes hsize (Nat.two_pow_pos 0) (by decide) (by simpa)
  simpa [protocolReadVarint] using hread

/-- The reader takes a numeral of at most five bytes, of which it keeps 32 bits, and fails
without one. -/
theorem readLoop_split {n : ℕ} {data : List UInt8} {buffer : ℕ → UInt8} {i shift v : ℕ}
    (hbytes : At buffer i data) (hshift : shift + 7 * (n + 1) = 35) (hv : v < 2 ^ shift) :
    match Base128.split (n + 1) data with
    | none => (readLoop orGroup 32 buffer data.length i shift v).ret = -1
    | some (id, rest) =>
        data = id ++ rest ∧ readLoop orGroup 32 buffer data.length i shift v =
          { ret := (i + id.length : ℕ)
            value := toInt32 (v + Base128.value id * 2 ^ shift : ℕ)
            inspected := i + id.length } := by
  induction n generalizing data i shift v with
  | zero =>
      cases data with
      | nil => simp [Base128.split, readLoop]
      | cons b data =>
          rcases at_cons.mp hbytes with ⟨hb, hrest⟩
          have hor := orGroup_eq (b := b) hv (by omega)
          subst hb
          rw [Base128.split, List.length_cons]
          by_cases hlast : (buffer i).toNat < 128
          · rw [if_pos hlast, readLoop_stop hlast, hor]
            simp [Base128.value]
          · rw [if_neg hlast]
            exact readLoop_limit (Nat.not_lt.mp hlast) (by omega)
  | succ n ih =>
      cases data with
      | nil => simp [Base128.split, readLoop]
      | cons b data =>
          rcases at_cons.mp hbytes with ⟨hb, hrest⟩
          have hor := orGroup_eq (b := b) hv (by omega)
          subst hb
          rw [Base128.split, List.length_cons]
          by_cases hlast : (buffer i).toNat < 128
          · rw [if_pos hlast, readLoop_stop hlast, hor]
            simp [Base128.value]
          · have hpow : 2 ^ (shift + 7) = 128 * 2 ^ shift := by ring
            have hnext : v + (buffer i).toNat % 128 * 2 ^ shift < 2 ^ (shift + 7) := by
              have hle : (buffer i).toNat % 128 * 2 ^ shift ≤ 127 * 2 ^ shift :=
                Nat.mul_le_mul_right _ (by omega)
              omega
            have hsmall : 2 ^ (shift + 7) ≤ 2 ^ 28 := Nat.pow_le_pow_right (by omega) (by omega)
            have hvalue : orGroup v (buffer i) shift =
                (v + (buffer i).toNat % 128 * 2 ^ shift : ℕ) := by
              rw [hor, toInt32_of_range (by omega) (by omega)]
            have hshift' : shift + 7 + 7 * (n + 1) = 35 := by omega
            have hrec := ih hrest hshift' hnext
            rw [if_neg hlast, readLoop_go (Nat.not_lt.mp hlast) (by omega), hvalue]
            revert hrec
            cases Base128.split (n + 1) data with
            | none => exact id
            | some parts =>
                rintro ⟨hdata, hloop⟩
                refine ⟨by simp [← hdata], ?_⟩
                rw [hloop]
                have hsum : v + (buffer i).toNat % 128 * 2 ^ shift +
                    Base128.value parts.1 * 2 ^ (shift + 7) =
                      v + Base128.value (buffer i :: parts.1) * 2 ^ shift := by
                  rw [Base128.value, hpow]
                  ring
                rw [hsum]
                simp only [List.length_cons, VarintRead.mk.injEq, true_and]
                omega

theorem protocolReadVarint_split (data : List UInt8) (beyond : ℕ → UInt8) :
    match Base128.split 5 data with
    | none => (protocolReadVarint (ofList data beyond) data.length 0).ret = -1
    | some (id, rest) =>
        data = id ++ rest ∧ protocolReadVarint (ofList data beyond) data.length 0 =
          { ret := id.length
            value := toInt32 (Base128.value id)
            inspected := id.length } := by
  have hread := readLoop_split (n := 4) (v := 0) (at_ofList data beyond) rfl (Nat.two_pow_pos 0)
  simpa [protocolReadVarint] using hread

/-! ## What the readers look at -/

/-- A reader fails or consumes what it looked at, which is inside the given size. -/
theorem readLoop_inspected (orInto : ℤ → UInt8 → ℕ → ℤ) (limit : ℕ) (buffer : ℕ → UInt8)
    (size i shift : ℕ) (value : ℤ) :
    let r := readLoop orInto limit buffer size i shift value
    (r.ret = -1 ∨ r.ret = r.inspected) ∧ r.inspected ≤ i + size := by
  induction size generalizing i shift value with
  | zero => simp [readLoop]
  | succ size ih =>
      have hone : i + 1 ≤ i + (size + 1) := by omega
      simp only [readLoop]
      split
      · exact ⟨Or.inr (by push_cast; rfl), hone⟩
      · split
        · exact ⟨Or.inl rfl, hone⟩
        · rcases ih (i + 1) (shift + 7) (orInto value (buffer i) shift) with ⟨hret, hle⟩
          exact ⟨hret, by omega⟩

end CmcServer
