import Mathlib.Algebra.GroupWithZero.Nat
import Mathlib.Data.Int.Basic

/-! # ProtoDef types

The type trees that `generate_type` builds. Sizes are those of the Python constructors, in which
a size of zero or less stands for a variable size. -/

namespace CmcServer.ProtoDef

/-- The entries of `TYPES` that are natives, by the name of their C functions. `char` is an `i8`
there. -/
inductive Native where
  | i8 | u8 | u16 | i16 | i32 | i64 | f32 | f64 | bool | uuid | varint | varlong | nbt
  deriving DecidableEq, Repr

def Native.size : Native → ℤ
  | .i8 | .u8 | .bool => 1
  | .u16 | .i16 => 2
  | .i32 | .f32 => 4
  | .i64 | .f64 => 8
  | .uuid => 16
  | .varint | .varlong | .nbt => -1

/-- A field of a bitfield. -/
structure BitField where
  name : String
  size : ℕ
  signed : Bool
  deriving DecidableEq, Repr

/-- The value that selects a field of a switch, parsed as the type of the compared field asks. -/
inductive CaseValue where
  | int (value : ℤ)
  | bool (value : Bool)
  | string (value : String)
  | default
  deriving DecidableEq, Repr

mutual

/-- A type. A field with the empty name is anonymous, `up` counts the `../` of a `compareTo`, and
`rest` is an array without a count type. -/
inductive Ty where
  | native (n : Native)
  | typedef (name : String) (base : Ty)
  | void
  | container (fields : Fields)
  | switch (up : ℕ) (compareTo : String) (cases : Cases)
  | array (count element : Ty)
  | rest (element : Ty)
  | bitfield (fields : List BitField)
  | option (base : Ty)

inductive Fields where
  | nil
  | cons (name : String) (t : Ty) (fields : Fields)

inductive Cases where
  | nil
  | cons (name : String) (t : Ty) (value : CaseValue) (cases : Cases)

end

/-- `get_bytes`, for at most 64 bits. -/
def getBytes (bits : ℕ) : ℕ :=
  if bits ≤ 8 then 1 else if bits ≤ 16 then 2 else if bits ≤ 32 then 4 else 8

/-- `is_variable` of a type of the given size. -/
def isVariableSize (size : ℤ) : Bool := size ≤ 0

mutual

/-- `get_size`. -/
def Ty.getSize : Ty → ℤ
  | .native n => n.size
  | .typedef _ base => base.getSize
  | .void => 0
  | .container fields => fields.getSize 0
  | .switch _ _ cases => cases.getSize 0
  | .array _ _ => -1
  | .rest _ => -1
  | .bitfield [] => 0
  | .bitfield fields => getBytes (fields.map BitField.size).sum
  | .option _ => -1

/-- `add_field` of a container, for each field in turn. -/
def Fields.getSize : Fields → ℤ → ℤ
  | .nil, size => size
  | .cons _ t fields, size =>
      let size := if isVariableSize t.getSize then -1 else size
      fields.getSize (if isVariableSize size then size else size + t.getSize)

/-- `add_field` of a switch, for each field in turn. -/
def Cases.getSize : Cases → ℤ → ℤ
  | .nil, size => size
  | .cons _ t _ cases, size =>
      let size := if isVariableSize t.getSize then -1 else size
      cases.getSize (if isVariableSize size then size else max size t.getSize)

end

def Ty.isVariable (t : Ty) : Bool := isVariableSize t.getSize

theorem Fields.getSize_nonpos (fields : Fields) {size : ℤ} (h : size ≤ 0) :
    fields.getSize size ≤ 0 := by
  cases fields with
  | nil => simpa [Fields.getSize] using h
  | cons name t fields =>
      have hnext : (if isVariableSize t.getSize then -1 else size) ≤ 0 := by
        split
        · decide
        · exact h
      rw [Fields.getSize]
      simp only [show isVariableSize _ = true from decide_eq_true hnext, if_true]
      exact fields.getSize_nonpos hnext

theorem Cases.getSize_nonpos (cases : Cases) {size : ℤ} (h : size ≤ 0) :
    cases.getSize size ≤ 0 := by
  cases cases with
  | nil => simpa [Cases.getSize] using h
  | cons name t value cases =>
      have hnext : (if isVariableSize t.getSize then -1 else size) ≤ 0 := by
        split
        · decide
        · exact h
      rw [Cases.getSize]
      simp only [show isVariableSize _ = true from decide_eq_true hnext, if_true]
      exact cases.getSize_nonpos hnext

/-- A container starts with size zero, which counts as variable, so it is variable whatever its
fields are. -/
@[simp] theorem Ty.isVariable_container (fields : Fields) :
    (Ty.container fields).isVariable = true := by
  rw [Ty.isVariable, Ty.getSize]
  exact decide_eq_true (fields.getSize_nonpos (by decide))

@[simp] theorem Ty.isVariable_switch (up : ℕ) (compareTo : String) (cases : Cases) :
    (Ty.switch up compareTo cases).isVariable = true := by
  rw [Ty.isVariable, Ty.getSize]
  exact decide_eq_true (cases.getSize_nonpos (by decide))

@[simp] theorem Ty.isVariable_array (count element : Ty) :
    (Ty.array count element).isVariable = true := by
  simp [Ty.isVariable, Ty.getSize, isVariableSize]

@[simp] theorem Ty.isVariable_rest (element : Ty) : (Ty.rest element).isVariable = true := by
  simp [Ty.isVariable, Ty.getSize, isVariableSize]

@[simp] theorem Ty.isVariable_option (base : Ty) : (Ty.option base).isVariable = true := by
  simp [Ty.isVariable, Ty.getSize, isVariableSize]

@[simp] theorem Ty.isVariable_typedef (name : String) (base : Ty) :
    (Ty.typedef name base).isVariable = base.isVariable := by
  simp [Ty.isVariable, Ty.getSize]

@[simp] theorem Ty.isVariable_void : Ty.void.isVariable = true := by
  simp [Ty.isVariable, Ty.getSize, isVariableSize]

end CmcServer.ProtoDef
