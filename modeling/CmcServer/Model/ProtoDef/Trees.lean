import CmcServer.Model.ProtoDef.Generator
import Mathlib.Data.List.Infix

/-! # Type trees

The classes of `protodef.py` as trees with all the names that stand in them, and the functions on
names and numbers that their methods call. Where Python raises an exception there is no result. -/

namespace CmcServer.ProtoDef

/-! ## The classes -/

mutual

/-- An object of a class of types. A switch has the name and the `compareTo` that
`create_instance` gives it, `restArray` is an array without a count type, and the bits of a
bitfield have passed the assertion of `get_bytes`. -/
inductive TypeTree where
  | typedef (name : String) (base : TypeTree)
  | native (name ctype : String) (size : ℤ)
  | void
  | switch (name : String) (isAbstract : Bool) (compareTo : String) (cases : CaseTrees)
  | container (fields : FieldTrees)
  | array (count element : TypeTree)
  | restArray (element : TypeTree)
  | bitfield (fields : List BitField) (fits : (fields.map BitField.size).sum ≤ 64)
  | option (base : TypeTree)

inductive FieldTrees where
  | nil
  | cons (name : String) (t : TypeTree) (fields : FieldTrees)

/-- The fields of a switch with the strings that select them. A default is added last and has no
name. -/
inductive CaseTrees where
  | nil
  | default (t : TypeTree)
  | cons (name : String) (t : TypeTree) (value : String) (cases : CaseTrees)

end

mutual

/-- `get_size`. -/
def TypeTree.getSize : TypeTree → ℤ
  | .typedef _ base => base.getSize
  | .native _ _ size => size
  | .void => 0
  | .switch _ _ _ cases => cases.getSize 0
  | .container fields => fields.getSize 0
  | .array _ _ => -1
  | .restArray _ => -1
  | .bitfield [] _ => 0
  | .bitfield fields _ => getBytes (fields.map BitField.size).sum
  | .option _ => -1

/-- `add_field` of a container, for each field in turn. -/
def FieldTrees.getSize : FieldTrees → ℤ → ℤ
  | .nil, size => size
  | .cons _ t fields, size =>
      let size := if isVariableSize t.getSize then -1 else size
      fields.getSize (if isVariableSize size then size else size + t.getSize)

/-- `add_field` of a switch, for each field in turn. -/
def CaseTrees.getSize : CaseTrees → ℤ → ℤ
  | .nil, size => size
  | .default t, size =>
      let size := if isVariableSize t.getSize then -1 else size
      if isVariableSize size then size else max size t.getSize
  | .cons _ t _ cases, size =>
      let size := if isVariableSize t.getSize then -1 else size
      cases.getSize (if isVariableSize size then size else max size t.getSize)

end

/-- `is_variable`. -/
def TypeTree.isVariable (t : TypeTree) : Bool := isVariableSize t.getSize

def TypeTree.isVoid : TypeTree → Bool
  | .void => true
  | _ => false

/-- Whether a switch on a field of this type compares strings. -/
def TypeTree.isNamedTypedef : TypeTree → Bool
  | .typedef name _ => name ≠ ""
  | _ => false

/-- The total size of `get_fixed_fields`. -/
def FieldTrees.fixedTotal : FieldTrees → ℤ
  | .nil => 0
  | .cons _ t fields => if t.isVariable then 0 else t.getSize + fields.fixedTotal

/-! ## Names and numbers -/

/-- What stands before the first arrow, or the whole string. -/
def beforeArrow : List Char → List Char
  | [] => []
  | '-' :: '>' :: _ => []
  | c :: cs => c :: beforeArrow cs

/-- What stands before the last dot. -/
def beforeLastDot (cs : List Char) : List Char :=
  ((cs.reverse.dropWhile (· ≠ '.')).tail).reverse

/-- `get_parent_field`. Without a dot or an arrow it is the name itself. -/
def parentFieldText (name : String) : String :=
  if '.' ∈ name.toList then String.ofList (beforeLastDot name.toList)
  else String.ofList (beforeArrow name.toList)

/-- `access_field`. -/
def accessFieldText (source name : String) : String :=
  if name = "" then source
  else if ['-', '>'] <:+: source.toList ∨ '[' ∈ source.toList ∨ '*' ∈ source.toList then
    s!"{source}.{name}"
  else s!"{source}->{name}"

/-- The field of a container, with the name it was found by. -/
def FieldTrees.find (name : String) : FieldTrees → Option (String × TypeTree)
  | .nil => none
  | .cons field t fields => if field = name then some (field, t) else fields.find name

/-- `find_field` of the innermost of the containers that directly enclose a type. Anything else
that encloses one has no fields to find. -/
def findField : List FieldTrees → List Char → Option (String × TypeTree)
  | [], _ => none
  | _ :: parents, '.' :: '.' :: '/' :: name => findField parents name
  | fields :: _, name => fields.find (String.ofList name)

/-- The value of a digit. -/
def digitOf (c : Char) : Option ℕ :=
  if '0' ≤ c ∧ c ≤ '9' then some (c.toNat - '0'.toNat)
  else if 'a' ≤ c ∧ c ≤ 'f' then some (c.toNat - 'a'.toNat + 10)
  else if 'A' ≤ c ∧ c ≤ 'F' then some (c.toNat - 'A'.toNat + 10)
  else none

/-- Digits of a base with single underscores between them. -/
def parseDigits (base : ℕ) : ℕ → Bool → List Char → Option ℕ
  | n, afterDigit, [] => if afterDigit then some n else none
  | n, afterDigit, '_' :: cs => if afterDigit then parseDigits base n false cs else none
  | n, _, c :: cs => do
      let d ← digitOf c
      if d < base then parseDigits base (n * base + d) true cs else none

/-- The digits after the letter of a base, which an underscore may lead. -/
def parsePrefixed (base : ℕ) : List Char → Option ℕ
  | '_' :: cs => parseDigits base 0 false cs
  | cs => parseDigits base 0 false cs

/-- A number without a sign. A decimal number other than zero has no leading zero. -/
def parseUnsigned : List Char → Option ℕ
  | '0' :: 'x' :: cs | '0' :: 'X' :: cs => parsePrefixed 16 cs
  | '0' :: 'o' :: cs | '0' :: 'O' :: cs => parsePrefixed 8 cs
  | '0' :: 'b' :: cs | '0' :: 'B' :: cs => parsePrefixed 2 cs
  | '0' :: cs => do
      let n ← parseDigits 10 0 true cs
      if n = 0 then some 0 else none
  | cs => parseDigits 10 0 false cs

/-- `int(value, 0)`, for ASCII characters. -/
def parseInt (value : String) : Option ℤ :=
  let cs := (value.toList.dropWhile Char.isWhitespace).reverse.dropWhile Char.isWhitespace
  match cs.reverse with
  | '-' :: cs => (parseUnsigned cs).map fun n => -(n : ℤ)
  | '+' :: cs => (parseUnsigned cs).map fun n => (n : ℤ)
  | cs => (parseUnsigned cs).map fun n => (n : ℤ)

/-- `get_c_value_for_type`, for a value that is not the default. -/
def cValueForType (value : String) : TypeTree → Option String
  | .native name _ _ =>
      if name ∈ ["u8", "u16", "i8", "i16", "i32", "i64", "varint", "varlong"] then
        (parseInt value).map toString
      else if name = "bool" then
        if value = "true" then some "true"
        else if value = "false" then some "false"
        else none
      else none
  | _ => none

/-- `hex`. -/
def hex (n : ℕ) : String := "0x" ++ String.ofList (Nat.toDigits 16 n)

end CmcServer.ProtoDef
