import CmcServer.Lib.BitPacking
import CmcServer.Verification.ProtoDef.Places
import Mathlib.Tactic.Positivity

/-! # Bitfields

The fields of a bitfield do not disturb each other. The reader masks a field and converts it to its
C type, so the sign of a field that is narrower than its C type is lost. -/

namespace CmcServer.ProtoDef

open Bytes BitPacking

/-! ## One field -/

/-- The values of a field: a two's complement number if it is signed. -/
def BitField.InRange (field : BitField) (value : ℤ) : Prop :=
  if field.signed then -(2 ^ field.size) ≤ 2 * value ∧ 2 * value < 2 ^ field.size
  else 0 ≤ value ∧ value < 2 ^ field.size

/-- A field with a sign is as wide as its C type. -/
def BitField.KeepsSign (field : BitField) (value : ℤ) : Prop :=
  field.signed = true → value < 0 → field.size = 8 * getBytes field.size

theorem le_getBytes {bits : ℕ} (h : bits ≤ 64) : bits ≤ 8 * getBytes bits := by
  unfold getBytes
  split_ifs <;> omega

theorem pow_bytes (w : ℕ) : 256 ^ w = 2 ^ (8 * w) := by
  rw [pow_mul]
  rfl

theorem emod_word_emod {size w : ℕ} (h : size ≤ 8 * w) (value : ℤ) :
    (value % 256 ^ w).toNat % 2 ^ size = (value % 2 ^ size).toNat := by
  have hdvd : (2 ^ size : ℤ) ∣ 256 ^ w := by
    have hpow : (256 ^ w : ℤ) = 2 ^ (8 * w) := by exact_mod_cast pow_bytes w
    rw [hpow]
    exact pow_dvd_pow 2 h
  have hnonneg : 0 ≤ value % 256 ^ w := Int.emod_nonneg _ (by positivity)
  have hcast : ((2 ^ size : ℕ) : ℤ).toNat = 2 ^ size := Int.toNat_natCast _
  rw [← Int.emod_emod_of_dvd value hdvd, Int.toNat_emod hnonneg (by positivity)]
  rfl

/-- The bits of a value are converted back to it unless they lose its sign. -/
theorem convert_bits_iff {field : BitField} {value : ℤ} (hsize : field.size ≤ 64)
    (hrange : field.InRange value) :
    field.convert (value % 2 ^ field.size).toNat = value ↔ field.KeepsSign value := by
  have hle : (2 : ℤ) ^ field.size ≤ 256 ^ getBytes field.size := by
    have hpow : (2 : ℕ) ^ field.size ≤ 256 ^ getBytes field.size := by
      rw [pow_bytes]
      exact Nat.pow_le_pow_right (by decide) (le_getBytes hsize)
    exact_mod_cast hpow
  have hpos : (0 : ℤ) < 2 ^ field.size := by positivity
  have hnat : ((256 ^ getBytes field.size : ℕ) : ℤ) = 256 ^ getBytes field.size := by push_cast; rfl
  rw [BitField.InRange] at hrange
  rw [BitField.KeepsSign, BitField.convert]
  cases hsigned : field.signed with
  | false =>
      rw [hsigned] at hrange
      simp only [Bool.false_eq_true, if_false] at hrange ⊢
      have hvalue : (value % 2 ^ field.size).toNat = value.toNat := by
        rw [Int.emod_eq_of_lt hrange.1 hrange.2]
      have hlt : value.toNat < 256 ^ getBytes field.size := by omega
      rw [hvalue, Nat.mod_eq_of_lt hlt]
      simpa using hrange.1
  | true =>
      rw [hsigned] at hrange
      simp only [if_true] at hrange ⊢
      by_cases hneg : value < 0
      · have hvalue : ((value % 2 ^ field.size).toNat : ℤ) = value + 2 ^ field.size := by
          rw [← Int.add_emod_right, Int.emod_eq_of_lt (by omega) (by omega)]
          omega
        rw [twosComplement, hvalue]
        by_cases hexact : field.size = 8 * getBytes field.size
        · have hpow : (2 : ℤ) ^ field.size = (256 ^ getBytes field.size : ℕ) := by
            rw [pow_bytes, ← hexact]
            push_cast
            rfl
          rw [hpow, Int.add_bmod_right, Int.bmod_eq_of_le (by omega) (by omega)]
          simp [← hexact]
        · have hwide : 2 * (2 : ℤ) ^ field.size ≤ (256 ^ getBytes field.size : ℕ) := by
            have hlt : field.size + 1 ≤ 8 * getBytes field.size := by
              have := le_getBytes hsize
              omega
            have hpow : 2 * 2 ^ field.size ≤ 256 ^ getBytes field.size := by
              rw [pow_bytes, ← pow_succ']
              exact Nat.pow_le_pow_right (by decide) hlt
            exact_mod_cast hpow
          rw [Int.bmod_eq_of_le (by omega) (by omega)]
          simp only [hneg, hexact, forall_const, iff_false]
          omega
      · have hvalue : ((value % 2 ^ field.size).toNat : ℤ) = value := by
          rw [Int.emod_eq_of_lt (by omega) (by omega)]
          omega
        rw [twosComplement, hvalue, Int.bmod_eq_of_le (by omega) (by omega)]
        simp [hneg]

/-! ## All fields -/

variable {fields : List BitField} {l : Loc}

/-- The widths of the fields, and the values at them as words of `w` bytes. -/
def wordsAt (w : ℕ) (l : Loc) (mem : Loc → ℤ) (fields : List BitField) : List (ℕ × ℕ) :=
  fields.map fun field => (field.size, (mem (l.sub field.name) % 256 ^ w).toNat)

theorem widths_wordsAt (w : ℕ) (mem : Loc → ℤ) :
    (wordsAt w l mem fields).map Prod.fst = fields.map BitField.size := by
  simp [wordsAt, Function.comp_def]

theorem pack_eq (w : ℕ) (l : Loc) (mem : Loc → ℤ) {offset packed : ℕ} (hlow : packed < 2 ^ offset)
    (hfit : offset + (fields.map BitField.size).sum ≤ 8 * w) :
    pack w l mem fields offset packed = packed + 2 ^ offset * word (wordsAt w l mem fields) := by
  induction fields generalizing offset packed with
  | nil => simp [pack, wordsAt, word]
  | cons field fields ih =>
      rw [List.map_cons, List.sum_cons] at hfit
      have hvalue : (mem (l.sub field.name) % 256 ^ w).toNat % 2 ^ field.size < 2 ^ field.size :=
        Nat.mod_lt _ (Nat.two_pow_pos _)
      rw [pack, wordsAt, List.map_cons, word]
      simp only
      generalize (mem (l.sub field.name) % 256 ^ w).toNat % 2 ^ field.size = value at hvalue ⊢
      have hshifted : value <<< offset < 256 ^ w := by
        rw [Nat.shiftLeft_eq, pow_bytes]
        calc value * 2 ^ offset
            < 2 ^ field.size * 2 ^ offset := Nat.mul_lt_mul_of_pos_right hvalue (Nat.two_pow_pos _)
          _ = 2 ^ (field.size + offset) := (pow_add 2 _ _).symm
          _ ≤ 2 ^ (8 * w) := Nat.pow_le_pow_right (by decide) (by omega)
      have hnext : packed + 2 ^ offset * value < 2 ^ (offset + field.size) := by
        calc packed + 2 ^ offset * value
            < 2 ^ offset + 2 ^ offset * value := Nat.add_lt_add_right hlow _
          _ = 2 ^ offset * (value + 1) := by ring
          _ ≤ 2 ^ offset * 2 ^ field.size := Nat.mul_le_mul_left _ hvalue
          _ = 2 ^ (offset + field.size) := (pow_add 2 _ _).symm
      rw [Nat.mod_eq_of_lt hshifted, or_shiftLeft hlow, ih hnext (by omega), wordsAt]
      ring

theorem unpack_word {w packed offset : ℕ} {mem mem' : Loc → ℤ} {l' : Loc}
    (hnames : (fields.map BitField.name).Nodup)
    (hword : packed / 2 ^ offset = word (wordsAt w l mem fields)) :
    ∀ field ∈ fields, unpack l' packed fields offset mem' (l'.sub field.name) =
      field.convert ((mem (l.sub field.name) % 256 ^ w).toNat % 2 ^ field.size) := by
  induction fields generalizing offset mem' with
  | nil => simp
  | cons first fields ih =>
      rw [List.map_cons, List.nodup_cons] at hnames
      rw [wordsAt, List.map_cons] at hword
      have hfirst : (packed >>> offset) % 2 ^ first.size =
          (mem (l.sub first.name) % 256 ^ w).toNat % 2 ^ first.size := by
        rw [Nat.shiftRight_eq_div_pow, hword]
        exact word_cons_mod _ _
      have hrest : packed / 2 ^ (offset + first.size) = word (wordsAt w l mem fields) := by
        rw [pow_add, ← Nat.div_div_eq_div_mul, hword]
        exact word_cons_div _ _
      have hother : l'.sub first.name ∉ fields.map fun field => l'.sub field.name := by
        intro hmem
        obtain ⟨field, hfield, hname⟩ := List.mem_map.mp hmem
        exact hnames.1 (List.mem_map.mpr ⟨field, hfield, Loc.sub_inj.mp hname⟩)
      intro field hfield
      rw [unpack]
      rcases List.mem_cons.mp hfield with rfl | hfield
      · rw [unpack_of_not_mem hother, Function.update_self, hfirst]
      · exact ih hnames.2 hrest field hfield

/-! ## Writing and reading -/

/-- The reader takes the values of all fields from where the writer put them. -/
def BitsRoundTrip (sizeof : Ty → ℕ) (rnd : String → ℕ → ℕ) (fn fn' : String) (k k' : ℕ)
    (fields : List BitField) (place place' : LVal) (env : Env) (s : Core) : Prop :=
  ∃ written, exec sizeof (genWriteCode rnd fn (.bitfield fields) place k) env s = .next written ∧
    ∀ env' r, r.buffer = written.buffer → r.data = s.data →
      ∃ read, exec sizeof (genReadCode rnd fn' (.bitfield fields) place' k') env' r = .next read ∧
        ∀ field ∈ fields, read.mem ((place'.loc env').sub field.name) =
          s.mem ((place.loc env).sub field.name)

/-- The value that is read for a field, whatever was written for the others. -/
theorem readBits_writeBits {s r : Core} (l' : Loc) (hnames : (fields.map BitField.name).Nodup)
    (hsum : (fields.map BitField.size).sum ≤ 64)
    (hbuffer : r.buffer = (writeBits fields l s).buffer) (hdata : r.data = s.data) :
    ∀ field ∈ fields, (readBits fields l' r).mem (l'.sub field.name) =
      field.convert (s.mem (l.sub field.name) % 2 ^ field.size).toNat := by
  have hbits : (fields.map BitField.size).sum ≤ 8 * bitsSize fields := le_getBytes hsum
  have hpacked : pack (bitsSize fields) l s.mem fields 0 0 =
      word (wordsAt (bitsSize fields) l s.mem fields) := by
    have hpack := pack_eq (bitsSize fields) l s.mem (Nat.two_pow_pos 0)
      (show 0 + (fields.map BitField.size).sum ≤ 8 * bitsSize fields by omega)
    simpa using hpack
  have hlt : word (wordsAt (bitsSize fields) l s.mem fields) < 256 ^ bitsSize fields := by
    have hword := word_lt (wordsAt (bitsSize fields) l s.mem fields)
    rw [widths_wordsAt] at hword
    rw [pow_bytes]
    exact hword.trans_le (Nat.pow_le_pow_right (by decide) hbits)
  have hload : ofBe (load r.buffer r.data (bitsSize fields)) =
      word (wordsAt (bitsSize fields) l s.mem fields) := by
    have hat := at_store s.buffer s.data
      (be (bitsSize fields) (pack (bitsSize fields) l s.mem fields 0 0))
    have hbytes := load_eq_of_at hat
    rw [length_be] at hbytes
    have hstored : (writeBits fields l s).buffer = store s.buffer s.data
        (be (bitsSize fields) (pack (bitsSize fields) l s.mem fields 0 0)) := rfl
    rw [hbuffer, hdata, hstored, hbytes, ofBe_be, hpacked, Nat.mod_eq_of_lt hlt]
  intro field hfield
  have hle : field.size ≤ 8 * bitsSize fields :=
    (List.le_sum_of_mem (List.mem_map_of_mem hfield)).trans hbits
  simp only [readBits, Core.advance_mem]
  rw [unpack_word hnames (by rw [hload, pow_zero, Nat.div_one]) field hfield,
    emod_word_emod hle]

/-- A bitfield is read back as it was written exactly when all of its negative values are those of
fields as wide as their C types. -/
theorem bitfield_roundTrips_iff (sizeof : Ty → ℕ) (rnd : String → ℕ → ℕ) (fn fn' : String)
    (k k' : ℕ) (place place' : LVal) (env : Env) {s : Core}
    (hnames : (fields.map BitField.name).Nodup) (hsum : (fields.map BitField.size).sum ≤ 64)
    (hrange : ∀ field ∈ fields, field.InRange (s.mem ((place.loc env).sub field.name))) :
    BitsRoundTrip sizeof rnd fn fn' k k' fields place place' env s ↔
      ∀ field ∈ fields, field.KeepsSign (s.mem ((place.loc env).sub field.name)) := by
  have hiff : ∀ field ∈ fields,
      field.convert (s.mem ((place.loc env).sub field.name) % 2 ^ field.size).toNat =
        s.mem ((place.loc env).sub field.name) ↔
      field.KeepsSign (s.mem ((place.loc env).sub field.name)) := by
    intro field hfield
    have hle : field.size ≤ 64 :=
      (List.le_sum_of_mem (List.mem_map_of_mem hfield)).trans hsum
    exact convert_bits_iff hle (hrange field hfield)
  constructor
  · rintro ⟨written, hwrite, hread⟩ field hfield
    cases hwrite
    let r : Core := { s with buffer := (writeBits fields (place.loc env) s).buffer }
    obtain ⟨read, hexec, hvalues⟩ := hread env r rfl rfl
    cases hexec
    have hbuffer : r.buffer = (writeBits fields (place.loc env) s).buffer := rfl
    have hread := readBits_writeBits (place'.loc env) hnames hsum hbuffer rfl
    exact (hiff field hfield).mp ((hread field hfield).symm.trans (hvalues field hfield))
  · intro hkeeps
    refine ⟨_, rfl, ?_⟩
    intro env' r hbuffer hdata
    refine ⟨_, rfl, ?_⟩
    intro field hfield
    rw [readBits_writeBits _ hnames hsum hbuffer hdata field hfield]
    exact (hiff field hfield).mpr (hkeeps field hfield)

def positionFields : List BitField := [⟨"x", 26, true⟩, ⟨"z", 26, true⟩, ⟨"y", 12, true⟩]

def filledCore (value : ℤ) : Core :=
  ⟨fun _ => 0, 0, 8, TickArena.initArena 0, fun _ => value, 0, []⟩

/-- A position whose coordinates are not negative. -/
theorem bitfield_roundTrips_position :
    BitsRoundTrip (fun _ => 1) (fun _ k => k) "position" "position" 0 0 positionFields ⟨.packet, []⟩
      ⟨.packet, []⟩ ⟨[], fun _ => 0⟩ (filledCore 5) := by
  refine (bitfield_roundTrips_iff _ _ _ _ _ _ _ _ _ (by decide) (by decide) ?_).mpr ?_
  · simp [positionFields, BitField.InRange, filledCore]
  · simp [positionFields, BitField.KeepsSign, filledCore]

/-- A position of which all coordinates are -1 is read as 2 ^ 26 - 1 and 2 ^ 12 - 1. -/
theorem bitfield_loses_sign : ¬ ∀ (sizeof : Ty → ℕ) (rnd : String → ℕ → ℕ) (fn fn' : String)
    (k k' : ℕ) (place place' : LVal) (env : Env) (fields : List BitField) (s : Core),
    (fields.map BitField.name).Nodup → (fields.map BitField.size).sum ≤ 64 →
    (∀ field ∈ fields, 1 ≤ field.size) →
    (∀ field ∈ fields, field.InRange (s.mem ((place.loc env).sub field.name))) →
      BitsRoundTrip sizeof rnd fn fn' k k' fields place place' env s := by
  intro h
  have hrange : ∀ field ∈ positionFields, field.InRange (-1) := by
    simp [positionFields, BitField.InRange]
  obtain ⟨written, hwrite, hread⟩ := h (fun _ => 1) (fun _ k => k) "position" "position" 0 0
    ⟨.packet, []⟩ ⟨.packet, []⟩ ⟨[], fun _ => 0⟩ positionFields (filledCore (-1)) (by decide)
    (by decide) (by decide) hrange
  cases hwrite
  let r : Core := { filledCore (-1) with
    buffer := (writeBits positionFields [] (filledCore (-1))).buffer }
  obtain ⟨read, hexec, hvalues⟩ := hread ⟨[], fun _ => 0⟩ r rfl rfl
  cases hexec
  have hx : (⟨"x", 26, true⟩ : BitField) ∈ positionFields := by decide
  have hbuffer : r.buffer = (writeBits positionFields [] (filledCore (-1))).buffer := rfl
  have hvalue := readBits_writeBits [] (by decide) (by decide) hbuffer rfl _ hx
  have hlost := hvalue.symm.trans (hvalues _ hx)
  revert hlost
  decide

end CmcServer.ProtoDef
