import CmcServer.Lib.Base128
import CmcServer.Verification.ProtoDef.Places

/-! # Values and their encodings

What a value of a type is, given the memory it lies in, and the bytes that stand for it on the
wire. Both take the case of a switch that the comparison in the emitted code selects. -/

namespace CmcServer.ProtoDef

open Bytes

/-! ## Encodings -/

section

variable (nbt : Loc → List UInt8) (m : Loc → ℤ)

/-- The bytes of a native. The format of NBT is a parameter, the writer does not know it. -/
def Native.bytes (n : Native) (l : Loc) : List UInt8 :=
  match n with
  | .varint | .varlong => Base128.encode (m l).toNat
  | .nbt => nbt l
  | n => n.encode (m l)

def countAt (p : Spot) : ℕ := (m (p.sub "length").loc).toNat

/-- Whether the discriminant at a place selects a case. -/
def CaseValue.holds (value : CaseValue) (discriminant : Loc) : Bool :=
  match value with
  | .int value => m discriminant = value
  | .bool value => m discriminant = if value then 1 else 0
  | .string value =>
      m (discriminant.sub "length") = value.toList.length &&
        eqChars m discriminant value.toList 0
  | .default => true

mutual

/-- The encoding of the value at a place, as the emitted comparisons select cases. -/
def Ty.encode : Ty → Spot → List UInt8
  | .native n, p => n.bytes nbt m p.loc
  | .typedef _ base, p => base.encode ⟨p.loc, []⟩
  | .void, _ => []
  | .container fields, p => fields.encode p
  | .switch _ compareTo cases, p => cases.encode (p.parent.sub compareTo).loc p
  | .array count element, p =>
      count.encode (p.sub "length") ++
        (List.range (countAt m p)).flatMap fun j => element.encode ((p.sub "elements").elem j)
  | .rest element, p =>
      (List.range (countAt m p)).flatMap fun j => element.encode ((p.sub "elements").elem j)
  | .bitfield fields, p =>
      be (bitsSize fields) (pack (bitsSize fields) p.loc m fields 0 0)
  | .option base, p =>
      Native.u8.encode (m (p.sub "present").loc) ++
        if m (p.sub "present").loc = 0 then [] else base.encode (p.sub "value")

def Fields.encode : Fields → Spot → List UInt8
  | .nil, _ => []
  | .cons name t fields, p => t.encode (p.sub name) ++ fields.encode p

def Cases.encode : Cases → Loc → Spot → List UInt8
  | .nil, _, _ => []
  | .cons name t value cases, discriminant, p =>
      if value.holds m discriminant then t.encode (p.sub name)
      else cases.encode discriminant p

end

/-! ## Values -/

/-- The numbers that the C type of a native holds. Varints are not negative. -/
def Native.InRange (n : Native) (value : ℤ) : Prop :=
  match n with
  | .bool => value = 0 ∨ value = 1
  | .u8 | .u16 | .f32 | .f64 | .uuid => 0 ≤ value ∧ value < 256 ^ n.size.toNat
  | .i8 | .i16 | .i32 | .i64 =>
      -(256 ^ n.size.toNat) ≤ 2 * value ∧ 2 * value < 256 ^ n.size.toNat
  | .varint => 0 ≤ value ∧ value < 2 ^ 31
  | .varlong => 0 ≤ value ∧ value < 2 ^ 63
  | .nbt => True

/-- The counts that are not negative, of 32 or 64 bits. -/
def CountInRange (wide : Bool) (count : ℤ) : Prop :=
  0 ≤ count ∧ count < if wide then 2 ^ 63 else 2 ^ 31

mutual

/-- The memory at a place holds a value of the type: numbers are in range, varints and counts
are not negative, and what the emitted code compares selects a case of each switch. -/
def Ty.IsValue : Ty → Spot → Prop
  | .native n, p => n.InRange (m p.loc)
  | .typedef _ base, p => base.IsValue ⟨p.loc, []⟩
  | .void, _ => True
  | .container fields, p => fields.IsValue p
  | .switch _ compareTo cases, p => cases.IsValue (p.parent.sub compareTo).loc p
  | .array count element, p =>
      count.IsValue (p.sub "length") ∧ CountInRange count.isWide (m (p.sub "length").loc) ∧
        ∀ j < countAt m p, element.IsValue ((p.sub "elements").elem j)
  | .rest element, p =>
      CountInRange false (m (p.sub "length").loc) ∧
        ∀ j < countAt m p, element.IsValue ((p.sub "elements").elem j)
  | .bitfield _, _ => True
  | .option base, p =>
      (m (p.sub "present").loc = 0 ∨ m (p.sub "present").loc = 1) ∧
        (m (p.sub "present").loc ≠ 0 → base.IsValue (p.sub "value"))

def Fields.IsValue : Fields → Spot → Prop
  | .nil, _ => True
  | .cons name t fields, p => t.IsValue (p.sub name) ∧ fields.IsValue p

def Cases.IsValue : Cases → Loc → Spot → Prop
  | .nil, _, _ => False
  | .cons name t value cases, discriminant, p =>
      if value.holds m discriminant then t.IsValue (p.sub name)
      else cases.IsValue discriminant p

end

/-! ## Discriminants -/

theorem caseTest_holds {value : CaseValue} (hvalue : value ≠ .default) (discriminant : LVal)
    (env : Env) (s : Core) :
    (caseTest discriminant value).holds env s = value.holds s.mem (discriminant.loc env) := by
  cases value with
  | int value => rfl
  | bool value => rfl
  | string value => rfl
  | default => exact absurd rfl hvalue

/-! ## Sizes -/

theorem length_encode_native (n : Native) (value : ℤ) :
    (n.encode value).length = n.size.toNat := by
  cases n <;> rfl

theorem native_bytes_fixed {n : Native} (h : (Ty.native n).isVariable = false) (l : Loc) :
    n.bytes nbt m l = n.encode (m l) := by
  have hpos := native_size_pos h
  cases n <;> first | rfl | simp [Native.size] at hpos

theorem length_encode_fixed (t : Ty) (h : t.isVariable = false) (p : Spot) :
    ((t.encode nbt m p).length : ℤ) = t.getSize := by
  induction t, h using Ty.fixed_induction generalizing p with
  | native n h =>
      have hlen := length_encode_native n (m p.loc)
      have hpos := native_size_pos h
      rw [Ty.encode, native_bytes_fixed nbt m h, hlen, Ty.getSize]
      omega
  | typedef name base hbase h ih =>
      rw [Ty.encode, Ty.getSize]
      exact ih ⟨p.loc, []⟩
  | bitfield fields h =>
      rw [Ty.encode, length_be, bitfield_getSize (bitfield_ne_nil h)]

end

end CmcServer.ProtoDef
