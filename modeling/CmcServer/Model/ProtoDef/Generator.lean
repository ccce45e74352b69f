import CmcServer.Model.ProtoDef.Types

/-! # The code generator

The C statements that `gen_read_code` and `gen_write_code` emit. The two generators differ in the
code of natives, bitfields and arrays only, so both are `genCode` with a direction. -/

namespace CmcServer.ProtoDef

/-! ## Emitted lvalues -/

/-- The first name in an lvalue: `packet`, `(*packet)` or `(&packet)`. -/
inductive Root where
  | packet
  | deref
  | addr
  deriving DecidableEq, Repr

/-- One selection in an lvalue. The index is the number of a loop variable. -/
inductive Step where
  | arrow (name : String)
  | dot (name : String)
  | index (i : ℕ)
  deriving DecidableEq, Repr

/-- An emitted lvalue, its last selection first. -/
structure LVal where
  root : Root
  steps : List Step
  deriving DecidableEq, Repr

def Step.isDot : Step → Bool
  | .dot _ => true
  | _ => false

/-- `get_parent_field`: what stands before the last dot, before the arrow if there is no dot, and
the name itself if there is neither. -/
def getParentField (source : LVal) : LVal :=
  { source with steps := (source.steps.dropWhile (!·.isDot)).tail }

/-- `access_field`. Every lvalue with a selection has an arrow, a bracket or a star in it. -/
def accessField (source : LVal) (name : String) : LVal :=
  if name = "" then source
  else if source.steps = [] ∧ source.root ≠ .deref then
    { source with steps := .arrow name :: source.steps }
  else { source with steps := .dot name :: source.steps }

/-- An element of an array, at the loop variable `i`. -/
def LVal.at (elements : LVal) (i : ℕ) : LVal :=
  { elements with steps := .index i :: elements.steps }

/-- The length of an array, and whether its C type has 64 bits. -/
structure Len where
  place : LVal
  wide : Bool

/-! ## Emitted statements -/

inductive Dir where
  | read
  | write
  deriving DecidableEq, Repr

inductive Test where
  | present (place : LVal)
  | eqInt (place : LVal) (value : ℤ)
  | eqString (place : LVal) (value : String)

/-- The statements of the emitted functions. A `call` is a call of the function of a typedef with
the check of its result, `body` is the body of that function. -/
inductive Cmd where
  | skip
  | seq (c d : Cmd)
  | fail
  | checkSize (n : ℤ)
  | subSize (n : ℤ)
  | checkCount (length : Len) (n : ℤ)
  | subCount (length : Len) (n : ℤ)
  | setRest (length : LVal)
  | fixed (dir : Dir) (n : Native) (place : LVal)
  | variable (dir : Dir) (n : Native) (place : LVal)
  | bits (dir : Dir) (fields : List BitField) (place : LVal)
  | alloc (length : Len) (element : Ty)
  | loop (i : ℕ) (length : Len) (body : Cmd)
  | ite (test : Test) (c d : Cmd)
  | call (body : Cmd) (place : LVal)
  | callFixed (body : Cmd) (place : LVal) (size : ℤ)

/-! ## The generator -/

mutual

/-- The number of random loop variables that the code of a type draws. -/
def Ty.draws : Ty → ℕ
  | .native _ => 0
  | .typedef _ _ => 0
  | .void => 0
  | .container fields => fields.draws
  | .switch _ _ cases => cases.draws
  | .array count element => count.draws + 1 + element.draws
  | .rest element => 1 + element.draws
  | .bitfield _ => 0
  | .option base => base.draws

def Fields.draws : Fields → ℕ
  | .nil => 0
  | .cons _ t fields => t.draws + fields.draws

def Cases.draws : Cases → ℕ
  | .nil => 0
  | .cons _ t _ cases => t.draws + cases.draws

end

/-- The total size of `get_fixed_fields`. -/
def Fields.fixedTotal : Fields → ℤ
  | .nil => 0
  | .cons _ t fields => if t.isVariable then 0 else t.getSize + fields.fixedTotal

/-- Whether the C type of a count has 64 bits. -/
def Ty.isWide : Ty → Bool
  | .native .i64 => true
  | .native .varlong => true
  | .typedef _ base => base.isWide
  | _ => false

/-- The name of `packet` in the function of a type. -/
def sourceOf : Ty → LVal
  | .container _ | .switch _ _ _ | .bitfield _ => ⟨.packet, []⟩
  | _ => ⟨.deref, []⟩

/-- The name of `packet` in the function of a type of fixed size. Readers have a local of that
name. An assignment to `(&packet)` is not C, so only bitfields have a reader that compiles. -/
def fixedSourceOf : Dir → Ty → LVal
  | .read, _ => ⟨.addr, []⟩
  | .write, t => sourceOf t

/-- Whether the function that reads the type is C. -/
def Ty.readerCompiles : Ty → Bool
  | .bitfield _ => true
  | t => t.isVariable

/-- The room check that is emitted before a type of fixed size. -/
def reserve (t : Ty) : Cmd :=
  if t.isVariable then .skip else .seq (.checkSize t.getSize) (.subSize t.getSize)

/-- `isinstance(typ, ProtoDefVoid)`. -/
def Ty.isVoid : Ty → Bool
  | .void => true
  | _ => false

/-- The code of a case of a switch. -/
def caseCode (t : Ty) (code : Cmd) : Cmd := if t.isVoid then .skip else .seq (reserve t) code

/-- The room check before the elements of an array. -/
def reserveElements (length : Len) (element : Ty) : Cmd :=
  if element.isVariable then .skip
  else .seq (.checkCount length element.getSize) (.subCount length element.getSize)

/-- The condition of a case. -/
def caseTest (discriminant : LVal) : CaseValue → Test
  | .int value => .eqInt discriminant value
  | .bool value => .eqInt discriminant (if value then 1 else 0)
  | .string value => .eqString discriminant value
  | .default => .eqInt discriminant 0

section

variable (dir : Dir) (rnd : String → ℕ → ℕ)

mutual

/-- The code for a value of a type at `place`, inside the function `fn` of which `k` loop
variables have been drawn. `rnd fn` is the sequence of draws for that function. For a void that is
not a case of a switch Python raises an exception. -/
def genCode (fn : String) : Ty → LVal → ℕ → Cmd
  | .native n, place, _ =>
      if (Ty.native n).isVariable then .variable dir n place else .fixed dir n place
  | .typedef name base, place, _ =>
      if base.isVariable then .call (genCode name base (sourceOf base) 0) place
      else .callFixed (genCode name base (fixedSourceOf dir base) 0) place base.getSize
  | .void, _, _ => .skip
  | .container fields, place, k => genFields fn none fields place k
  | .switch _ compareTo cases, place, k =>
      genCases fn (accessField (getParentField place) compareTo) cases place k
  | .array count element, place, k =>
      let length : Len := ⟨accessField place "length", count.isWide⟩
      let elements := accessField place "elements"
      let i := rnd fn (k + count.draws)
      .seq (reserve count) <|
      .seq (genCode fn count length.place k) <|
      .seq (reserveElements length element) <|
      .seq (match dir with
        | .read => .alloc length element
        | .write => .skip) <|
      .loop i length (genCode fn element (elements.at i) (k + count.draws + 1))
  | .rest element, place, k =>
      let length : Len := ⟨accessField place "length", false⟩
      let elements := accessField place "elements"
      let i := rnd fn k
      .seq (match dir with
        | .read => .seq (.setRest length.place) (.alloc length element)
        | .write => reserveElements length element) <|
      .loop i length (genCode fn element (elements.at i) (k + 1))
  | .bitfield fields, place, _ => .bits dir fields place
  | .option base, place, _ =>
      -- the byte is read as a `uint8_t` and converted to the `bool` field
      let flag := match dir with
        | .read => Native.bool
        | .write => Native.u8
      .seq (.checkSize 1) <|
      .seq (.subSize 1) <|
      .seq (.fixed dir flag (accessField place "present")) <|
      -- the code of the inner type is generated and dropped
      .ite (.present (accessField place "present")) (reserve base) .skip

/-- The fields of a container. `run` is the total size of the run of fixed fields that is open. -/
def genFields (fn : String) (run : Option ℤ) : Fields → LVal → ℕ → Cmd
  | .nil, _, _ =>
      match run with
      | none => .skip
      | some total => .subSize total
  | .cons name t fields, place, k =>
      let code := genCode fn t (accessField place name) k
      if t.isVariable then
        .seq (match run with
          | none => .skip
          | some total => .subSize total) <|
        .seq code (genFields fn none fields place (k + t.draws))
      else
        match run with
        | none =>
            let total := (Fields.cons name t fields).fixedTotal
            .seq (.checkSize total) <|
            .seq code (genFields fn (some total) fields place (k + t.draws))
        | some total => .seq code (genFields fn (some total) fields place (k + t.draws))

/-- The cases of a switch. A `switch` statement and the chain of string comparisons are both a
chain of tests. -/
def genCases (fn : String) (discriminant : LVal) : Cases → LVal → ℕ → Cmd
  | .nil, _, _ => .fail
  | .cons name t value cases, place, k =>
      let code := caseCode t (genCode fn t (accessField place name) k)
      match value with
      | .default => code
      | value =>
          .ite (caseTest discriminant value) code
            (genCases fn discriminant cases place (k + t.draws))

end

end

/-- `gen_read_code`. -/
def genReadCode : (String → ℕ → ℕ) → String → Ty → LVal → ℕ → Cmd := genCode .read

/-- `gen_write_code`. -/
def genWriteCode : (String → ℕ → ℕ) → String → Ty → LVal → ℕ → Cmd := genCode .write

/-- The body of the function that `generate_read` emits for a type of variable size. -/
def generateRead (rnd : String → ℕ → ℕ) (name : String) (t : Ty) : Cmd :=
  genReadCode rnd name t (sourceOf t) 0

/-- The body of the function that `generate_write` emits for a type of variable size. -/
def generateWrite (rnd : String → ℕ → ℕ) (name : String) (t : Ty) : Cmd :=
  genWriteCode rnd name t (sourceOf t) 0

end CmcServer.ProtoDef
