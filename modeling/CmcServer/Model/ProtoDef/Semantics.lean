import CmcServer.Model.ProtoDef.Generator
import CmcServer.Model.TickArena
import CmcServer.Model.Varint
import CmcServer.Lib.Bytes
import CmcServer.Lib.EarlyReturn
import Mathlib.Tactic.Simps.Basic

/-! # What the emitted code does

The emitted statements as state transformers. Decoded values live in a memory of scalars, in
which a place is the path of fields and indices that leads to it. -/

namespace CmcServer.ProtoDef

open Bytes EarlyReturn

/-! ## Memory -/

inductive Sel where
  | field (name : String)
  | index (i : ℤ)
  deriving DecidableEq, Repr

def Sel.isIndex : Sel → Bool
  | .index _ => true
  | .field _ => false

/-- A place in memory, its last selection first. -/
abbrev Loc := List Sel

/-- A member of a structure. An anonymous member is the structure itself. -/
def Loc.sub (l : Loc) (name : String) : Loc := if name = "" then l else .field name :: l

/-- What `packet` points at and the values of the loop variables. -/
structure Env where
  packet : Loc
  index : ℕ → ℤ

/-- An `int i` declared in a `for` hides the variables of that name around it. -/
def Env.bind (env : Env) (i : ℕ) (value : ℤ) : Env :=
  { env with index := Function.update env.index i value }

def locOfSteps (env : Env) : List Step → Loc
  | [] => env.packet
  | .arrow name :: steps => .field name :: locOfSteps env steps
  | .dot name :: steps => .field name :: locOfSteps env steps
  | .index i :: steps => .index (env.index i) :: locOfSteps env steps

def LVal.loc (env : Env) (place : LVal) : Loc := locOfSteps env place.steps

/-! ## The state of a call -/

/-- The buffer, the offset `data` into it, the remaining `size`, the arena and the memory. The
code does not read the last two fields: `touched` bounds the offsets it accessed and `counts` are
the array counts that its room checks let pass, with the sizes of the elements. -/
structure Core where
  buffer : ℕ → UInt8
  data : ℕ
  size : ℤ
  arena : TickArena
  mem : Loc → ℤ
  touched : ℕ
  counts : List (ℤ × ℤ)

namespace Core

/-- Access `n` bytes at `data`. -/
@[simps] def touch (s : Core) (n : ℕ) : Core :=
  { s with touched := if n = 0 then s.touched else max s.touched (s.data + n) }

@[simps] def advance (s : Core) (n : ℕ) : Core := { s with data := s.data + n }

@[simps] def assign (s : Core) (l : Loc) (value : ℤ) : Core :=
  { s with mem := Function.update s.mem l value }

@[simps] def writeBytes (s : Core) (bytes : List UInt8) : Core :=
  { s.touch bytes.length with buffer := store s.buffer s.data bytes }

end Core

/-- The value of a length. -/
def Len.value (length : Len) (env : Env) (s : Core) : ℤ :=
  if length.wide then toInt64 (s.mem (length.place.loc env))
  else toInt32 (s.mem (length.place.loc env))

/-- `length * n`. -/
def Len.product (length : Len) (env : Env) (s : Core) (n : ℤ) : ℤ :=
  if length.wide then toInt64 (length.value env s * n) else toInt32 (length.value env s * n)

/-! ## Natives -/

/-- A two's complement number of `w` bytes. -/
def twosComplement (w : ℕ) (n : ℕ) : ℤ := Int.bmod n (256 ^ w)

/-- The value of a native of fixed size. Floating point numbers and UUIDs are copied as they
are, so their value is the number that their bytes stand for on the machine. -/
def Native.decode (n : Native) (bytes : List UInt8) : ℤ :=
  match n with
  | .u8 | .u16 => ofBe bytes
  | .i8 | .i16 | .i32 | .i64 => twosComplement bytes.length (ofBe bytes)
  | .bool => if ofBe bytes = 0 then 0 else 1
  | _ => ofBe bytes.reverse

/-- The bytes that are written for a native of fixed size. -/
def Native.encode (n : Native) (value : ℤ) : List UInt8 :=
  let w := n.size.toNat
  match n with
  | .bool => [if value = 0 then 0 else 1]
  | .f32 | .f64 | .uuid => (be w (value % 256 ^ w).toNat).reverse
  | _ => be w (value % 256 ^ w).toNat

/-- The buffer from `data` on. -/
def Core.rest (s : Core) (i : ℕ) : UInt8 := s.buffer (s.data + i)

def readFixed (n : Native) (l : Loc) (s : Core) : Core :=
  let w := n.size.toNat
  ((s.touch w).assign l (n.decode (load s.buffer s.data w))).advance w

def writeFixed (n : Native) (l : Loc) (s : Core) : Core :=
  let bytes := n.encode (s.mem l)
  (s.writeBytes bytes).advance bytes.length

/-- `read_size = protocol_read_*(data, size, &place)` for a native. NBT is not implemented. -/
def Native.read (n : Native) (s : Core) (value : ℤ) : VarintRead :=
  match n with
  | .varint => protocolReadVarint s.rest s.size value
  | .varlong => protocolReadVarlong s.rest s.size value
  | _ => { ret := -1, value, inspected := 0 }

/-- The reading of a native of variable size, and the check of `read_size`. -/
def readVariable (n : Native) (l : Loc) : Stmt Core := fun s =>
  let r := n.read s (s.mem l)
  let s := (s.touch r.inspected).assign l r.value
  if r.ret < 0 then .ret s
  else .next { s with data := s.data + r.ret.toNat, size := toInt32 (s.size - r.ret) }

/-- The writing of a native of variable size, and the check of `write_size`. -/
def writeVariable (n : Native) (l : Loc) : Stmt Core := fun s =>
  if n = .nbt then .ret s
  else
    match protocolWriteVarlong (s.mem l) with
    | none => .diverge
    | some bytes =>
        .next { (s.writeBytes bytes).advance bytes.length with
          size := toInt32 (s.size - bytes.length) }

/-! ## Bitfields -/

/-- The size of a bitfield. -/
def bitsSize (fields : List BitField) : ℕ := getBytes (fields.map BitField.size).sum

/-- The conversion of a field to its C type. -/
def BitField.convert (field : BitField) (value : ℕ) : ℤ :=
  if field.signed then twosComplement (getBytes field.size) value
  else (value % 256 ^ getBytes field.size : ℕ)

/-- The fields are shifted out of the packed value from `offset` on. -/
def unpack (l : Loc) (packed : ℕ) : List BitField → (offset : ℕ) → (Loc → ℤ) → Loc → ℤ
  | [], _, mem => mem
  | field :: fields, offset, mem =>
      let value := (packed >>> offset) % 2 ^ field.size
      unpack l packed fields (offset + field.size)
        (Function.update mem (l.sub field.name) (field.convert value))

/-- The fields are shifted into the packed value of `w` bytes from `offset` on. -/
def pack (w : ℕ) (l : Loc) (mem : Loc → ℤ) : List BitField → (offset : ℕ) → (packed : ℕ) → ℕ
  | [], _, packed => packed
  | field :: fields, offset, packed =>
      let value := (mem (l.sub field.name) % 256 ^ w).toNat % 2 ^ field.size
      pack w l mem fields (offset + field.size) (packed ||| (value <<< offset) % 256 ^ w)

def readBits (fields : List BitField) (l : Loc) (s : Core) : Core :=
  let w := bitsSize fields
  let packed := ofBe (load s.buffer s.data w)
  ({ s.touch w with mem := unpack l packed fields 0 s.mem }).advance w

def writeBits (fields : List BitField) (l : Loc) (s : Core) : Core :=
  let bytes := be (bitsSize fields) (pack (bitsSize fields) l s.mem fields 0 0)
  (s.writeBytes bytes).advance bytes.length

/-! ## Statements -/

/-- The characters of a string at `l` are those of `value`, from index `i` on. -/
def eqChars (mem : Loc → ℤ) (l : Loc) : List Char → (i : ℤ) → Bool
  | [], _ => true
  | c :: chars, i =>
      mem (.index i :: l.sub "elements") = (c.toNat : ℤ) && eqChars mem l chars (i + 1)

def Test.holds (test : Test) (env : Env) (s : Core) : Bool :=
  match test with
  | .present place => s.mem (place.loc env) ≠ 0
  | .eqInt place value => s.mem (place.loc env) = value
  | .eqString place value =>
      s.mem ((place.loc env).sub "length") = value.toList.length &&
        eqChars s.mem (place.loc env) value.toList 0

/-- What a call of an emitted function with the given `size` returns. -/
def finish (size : ℤ) : Outcome Core → Option (ℤ × Core)
  | .next s => some (toInt32 (size - s.size), s)
  | .ret s => some (-1, s)
  | .diverge => none

/-- The caller goes on with its own `data` and `size`. -/
def resume (caller : Core) : Option (ℤ × Core) → Outcome Core
  | none => .diverge
  | some (ret, s) =>
      if ret < 0 then .ret { s with data := caller.data, size := caller.size }
      else
        .next { s with
          data := caller.data + ret.toNat, size := toInt32 (caller.size - ret) }

/-- The caller of a function of fixed size goes on `n` bytes further. -/
def resumeFixed (caller : Core) (n : ℤ) : Outcome Core → Outcome Core
  | .next s => .next { s with data := caller.data + n.toNat, size := caller.size }
  | o => o

/-- An `int` index that passes `2 ^ 31 - 1` is undefined in C, here it goes on counting. -/
def loopFuel : ℕ := 2 ^ 63

/-- The meaning of the emitted statements, under a choice of `sizeof` for the C types. -/
def exec (sizeof : Ty → ℕ) : Cmd → Env → Stmt Core
  | .skip, _, s => .next s
  | .seq c d, env, s => (exec sizeof c env s).bind (exec sizeof d env)
  | .fail, _, s => .ret s
  | .checkSize n, _, s => if s.size < n then .ret s else .next s
  | .subSize n, _, s => .next { s with size := toInt32 (s.size - n) }
  | .checkCount length n, env, s =>
      if length.product env s n > s.size then .ret s
      else .next { s with counts := (length.value env s, n) :: s.counts }
  | .subCount length n, env, s =>
      .next { s with size := toInt32 (s.size - length.product env s n) }
  | .setRest length, env, s =>
      -- `sizeof` of an integer literal is 4
      let value := toInt32 (toSize s.size / 4 : ℕ)
      .next { s.assign (length.loc env) value with size := toInt32 (s.size - value) }
  | .fixed .read n place, env, s => .next (readFixed n (place.loc env) s)
  | .fixed .write n place, env, s => .next (writeFixed n (place.loc env) s)
  | .variable .read n place, env, s => readVariable n (place.loc env) s
  | .variable .write n place, env, s => writeVariable n (place.loc env) s
  | .bits .read fields place, env, s => .next (readBits fields (place.loc env) s)
  | .bits .write fields place, env, s => .next (writeBits fields (place.loc env) s)
  | .alloc length element, env, s =>
      match s.arena.tickArenaAllocUnlocked (toSize (length.value env s * sizeof element)) with
      | none => .ret s
      | some (_, arena) => .next { s with arena }
  | .loop i length body, env, s =>
      loop (fun n s => (n : ℤ) < length.value (env.bind i n) s)
        (fun n => exec sizeof body (env.bind i n)) loopFuel 0 s
  | .ite test c d, env, s =>
      if test.holds env s then exec sizeof c env s else exec sizeof d env s
  | .call body place, env, s =>
      resume s (finish s.size (exec sizeof body ⟨place.loc env, fun _ => 0⟩ s))
  | .callFixed body place n, env, s =>
      resumeFixed s n (exec sizeof body ⟨place.loc env, fun _ => 0⟩ s)

/-- A call of an emitted function on `packet`: its result and the state it leaves. -/
def callFunction (sizeof : Ty → ℕ) (body : Cmd) (packet : Loc) (s : Core) : Option (ℤ × Core) :=
  finish s.size (exec sizeof body ⟨packet, fun _ => 0⟩ s)

end CmcServer.ProtoDef
