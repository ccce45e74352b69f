import CmcServer.Model.ProtoDef.Trees

/-! # The text of the generated code

The strings that `gen_read_code`, `gen_write_code` and `gen_definition_code` return. As in
`genCode` the readers and the writers are one function with a direction. -/

namespace CmcServer.ProtoDef

/-! ## Generation -/

/-- A method that draws random numbers and may raise an exception. The state is the number of
draws so far. -/
abbrev Gen := StateT ℕ Option

section

variable (rnd : ℕ → ℕ)

/-- `random.randint`, which returns the next number of the sequence `rnd`. -/
def randint : Gen ℕ := do
  let k ← get
  set (k + 1)
  return rnd k

end

/-! ## Statements -/

section

variable (dir : Dir)

/-- The call of a function of variable size with the check of its result. -/
def variableCall (name arguments : String) : String :=
  match dir with
  | .read =>
      s!"read_size = protocol_read_{name}({arguments});" ++
      "if (read_size < 0) return -1;" ++
      "data += read_size;" ++
      "size -= read_size;"
  | .write =>
      s!"write_size = protocol_write_{name}({arguments});" ++
      "if (write_size < 0) return -1;" ++
      "data += write_size;" ++
      "size -= write_size;"

/-- The code of a native, whose writers take it by value. -/
def nativeText (name : String) (size : ℤ) (place : String) : String :=
  match dir, isVariableSize size with
  | .read, true => variableCall dir name s!"data, size, &{place}"
  | .write, true => variableCall dir name s!"data, size, {place}"
  | .read, false => s!"{place} = protocol_read_{name}(data);data += {size};"
  | .write, false => s!"protocol_write_{name}(data, {place});data += {size};"

/-- The code of a typedef, whose readers take the arena. -/
def typedefText (name : String) (size : ℤ) (place : String) : String :=
  match dir, isVariableSize size with
  | .read, true => variableCall dir name s!"arena, data, size, &{place}"
  | .write, true => variableCall dir name s!"data, size, &{place}"
  | .read, false => s!"{place} = protocol_read_{name}(data);data += {size};"
  | .write, false => s!"protocol_write_{name}(data, &{place});data += {size};"

/-- The room check before a case or an optional value of fixed size. -/
def reserveText (size : ℤ) : String :=
  if isVariableSize size then ""
  else s!"if (size < {size}) return -1;size -= {size};"

/-- The room check before the count of an array. -/
def reserveCountText (size : ℤ) : String :=
  if isVariableSize size then ""
  else s!"if ({size} > size) return -1;size -= {size};"

/-- The room check before the elements of an array. -/
def reserveElementsText (length : String) (size : ℤ) : String :=
  if isVariableSize size then ""
  else s!"if ({length} * {size} > size) return -1;size -= {length} * {size};"

/-- The allocation of the elements of an array, in readers. -/
def allocText (length elements : String) : String :=
  match dir with
  | .read =>
      s!"{elements} = tick_arena_alloc_unlocked(arena, {length} * sizeof(*{elements}));" ++
      s!"if ({elements} == NULL) return -1;"
  | .write => ""

/-- What stands before the elements of an array without a count. -/
def restText (length : String) (size : ℤ) : String :=
  match dir with
  | .read => s!"{length} = size / sizeof({size});size -= {length};"
  | .write => reserveElementsText length size

/-- A field of a bitfield, from its place or to it. -/
def bitFieldText (bits offset : ℕ) (source mask : String) : String :=
  match dir with
  | .read => source ++ s!" = (packed_value >> {offset}) & {mask};"
  | .write => s!"packed_value |= ((uint{bits}_t){source} & {mask}) << {offset};"

/-- The fields of a bitfield, the first of them at a bit offset. -/
def bitFieldsText (bits : ℕ) (place : String) : ℕ → List BitField → String
  | _, [] => ""
  | offset, field :: fields =>
      bitFieldText dir bits offset (accessFieldText place field.name)
        (hex ((1 <<< field.size) - 1)) ++
      bitFieldsText bits place (offset + field.size) fields

/-- The code of a bitfield of that many bits, which are `size` bytes. -/
def bitfieldText (bits : ℕ) (size : ℤ) (fields : List BitField) (place : String) : String :=
  match dir with
  | .read =>
      "" ++ "\x7b" ++
        (s!"uint{bits}_t packed_value = protocol_read_u{bits}(data);" ++
          s!"data += {size};" ++ bitFieldsText dir bits place 0 fields) ++
      "\x7d;"
  | .write =>
      "" ++ "\x7b" ++
        (s!"uint{bits}_t packed_value = 0;" ++ bitFieldsText dir bits place 0 fields ++
          s!"protocol_write_u{bits}(data, packed_value);data += {size};") ++
      "\x7d;"

/-- The code of an option, in which the code of its type does not appear. -/
def optionText (size : ℤ) (present : String) : String :=
  "if (size < 1) return -1;size--;" ++
  (match dir with
    | .read => s!"{present} = protocol_read_u8(data);"
    | .write => s!"protocol_write_u8(data, {present});") ++
  "data++;" ++
  (s!"if ({present}) " ++ "\x7b" ++ reserveText size ++ "\x7d")

/-- The loop over the elements of an array, from the code of an element. -/
def elementsText (i : ℕ) (length code : String) : String :=
  s!"for (int i{i} = 0; i{i} < {length}; i{i}++)" ++ "\x7b" ++ code ++ "\x7d;"

end

/-- What stands before the first of a run of fixed fields of that total size. The run is open
behind it. -/
def openRunText (run : Option ℤ) (total : ℤ) : String :=
  match run with
  | none => s!"if (size < {total}) return -1;"
  | some _ => ""

/-- What follows the last of a run of fixed fields. -/
def closeRunText : Option ℤ → String
  | none => ""
  | some total => s!"size -= {total};"

/-- A case of a `switch` statement. -/
def caseText (value : String) (size : ℤ) (code : String) : String :=
  s!"case {value}:" ++ "\x7b" ++ (reserveText size ++ code) ++ "\x7d break;"

/-- The comparison with a string, up to the `else` that follows. -/
def chainText (discriminant value : String) (size : ℤ) (code : String) : String :=
  s!"if ({discriminant}.length == {value.length} && " ++
    s!"strncmp(\"{value}\", {discriminant}.elements, {value.length}) == 0) " ++
    "\x7b" ++ (reserveText size ++ code) ++ "\x7d\n"

/-- The code of a field of a switch, which is not asked for if the field is void. -/
def fieldCode (t : TypeTree) (code : Gen String) : Gen String := if t.isVoid then pure "" else code

/-! ## The methods -/

section

variable (dir : Dir) (rnd : ℕ → ℕ)

mutual

/-- `gen_read_code` and `gen_write_code`. `parents` are the containers that directly enclose the
type, from the inside out. -/
def TypeTree.genText : TypeTree → List FieldTrees → String → Gen String
  | .typedef name base, _, place => return typedefText dir name base.getSize place
  | .native name _ size, _, place => return nativeText dir name size place
  | .void, _, _ => failure
  | .switch _ isAbstract compareTo cases, parents, place =>
      if isAbstract ∧ compareTo = "$compare_to" then failure
      else do
        let found ← findField parents compareTo.toList
        let discriminant := accessFieldText (parentFieldText place) found.1
        if found.2.isNamedTypedef then cases.genChainText discriminant place
        else do
          let code ← cases.genSwitchText found.2 place
          return s!"switch ({discriminant}) " ++ "\x7b" ++ code ++ "\x7d\n"
  | .container fields, parents, place => fields.genText none (fields :: parents) place
  | .array count element, _, place => do
      let length := accessFieldText place "length"
      let elements := accessFieldText place "elements"
      let countCode ← count.genText [] length
      let i ← randint rnd
      let code ← element.genText [] s!"{elements}[i{i}]"
      return "" ++ "\x7b" ++
        (reserveCountText count.getSize ++ countCode ++
          (reserveElementsText length element.getSize ++ allocText dir length elements) ++
          elementsText i length code) ++
        "\x7d;"
  | .restArray element, _, place => do
      let length := accessFieldText place "length"
      let elements := accessFieldText place "elements"
      let i ← randint rnd
      let code ← element.genText [] s!"{elements}[i{i}]"
      return "" ++ "\x7b" ++
        (restText dir length element.getSize ++ allocText dir length elements ++
          elementsText i length code) ++
        "\x7d;"
  | .bitfield fields fits, _, place =>
      let size := (TypeTree.bitfield fields fits).getSize
      return bitfieldText dir (size * 8).toNat size fields place
  | .option base, _, place => do
      -- the string is not used, but an exception passes through
      let _ ← base.genText [] (accessFieldText place "value")
      return optionText dir base.getSize (accessFieldText place "present")

/-- The fields of a container. `run` is the total size of the run of fixed fields that is open. -/
def FieldTrees.genText (run : Option ℤ) : FieldTrees → List FieldTrees → String → Gen String
  | .nil, _, _ => return closeRunText run
  | .cons name t fields, parents, place => do
      let code ← t.genText parents (accessFieldText place name)
      if t.isVariable then do
        let rest ← fields.genText none parents place
        return closeRunText run ++ code ++ rest
      else do
        -- the assertion on the total cannot fail, as every size in it is positive
        let total := run.getD (FieldTrees.cons name t fields).fixedTotal
        let rest ← fields.genText (some total) parents place
        return openRunText run total ++ code ++ rest

/-- The cases of a `switch` statement. -/
def CaseTrees.genSwitchText (compareToType : TypeTree) : CaseTrees → String → Gen String
  | .nil, _ => return "default: " ++ "\x7b" ++ "return -1;" ++ "\x7d break;"
  | .default t, place => do
      let code ← fieldCode t (t.genText [] place)
      return "default:" ++ "\x7b" ++ (reserveText t.getSize ++ code) ++ "\x7d break;"
  | .cons name t value cases, place => do
      let value ← cValueForType value compareToType
      let code ← fieldCode t (t.genText [] (accessFieldText place name))
      let rest ← cases.genSwitchText compareToType place
      return caseText value t.getSize code ++ rest

/-- The chain of `if` statements that compares strings. -/
def CaseTrees.genChainText (discriminant : String) : CaseTrees → String → Gen String
  | .nil, _ => return "" ++ "\x7b" ++ "return -1;" ++ "\x7d\n"
  | .default t, place => do
      let code ← t.genText [] place
      return "" ++ "\x7b" ++ (reserveText t.getSize ++ code) ++ "\x7d\n"
  | .cons name t value cases, place => do
      let code ← fieldCode t (t.genText [] (accessFieldText place name))
      let rest ← cases.genChainText discriminant place
      return chainText discriminant value t.getSize code ++ ("else " ++ rest)

end

end

/-- The declarations of the fields of a bitfield. -/
def bitFieldsDefinition : List BitField → String
  | [] => ""
  | field :: fields =>
      let sign := if field.signed then "" else "u"
      s!"{sign}int{getBytes field.size * 8}_t {field.name};" ++ bitFieldsDefinition fields

/-- The declaration of a field, of which a void has none. -/
def fieldDefinition (name : String) (t : TypeTree) (code : Option String) : Option String :=
  if t.isVoid then some "" else code.map fun code => code ++ s!" {name};"

mutual

/-- `gen_definition_code`. -/
def TypeTree.definitionText : TypeTree → Option String
  | .typedef name _ => s!"{name}_t"
  | .native _ ctype _ => ctype
  | .void => none
  | .switch name isAbstract compareTo cases =>
      if isAbstract ∧ compareTo ≠ "$compare_to" then some name
      else do
        let code ← cases.definitionText
        return "union " ++ "\x7b" ++ code ++ "\x7d"
  | .container fields => do
      let code ← fields.definitionText
      return "struct " ++ "\x7b" ++ code ++ "\x7d"
  | .array count element => do
      let countCode ← count.definitionText
      let code ← element.definitionText
      return "struct " ++ "\x7b" ++ (countCode ++ " length;" ++ (code ++ "* elements;")) ++ "\x7d"
  | .restArray element => do
      let code ← element.definitionText
      return "struct " ++ "\x7b" ++ ("int length;" ++ (code ++ "* elements;")) ++ "\x7d"
  | .bitfield fields _ => some ("struct " ++ "\x7b" ++ bitFieldsDefinition fields ++ "\x7d")
  | .option base => do
      let code ← base.definitionText
      return "struct " ++ "\x7b" ++ ("bool present;" ++ (code ++ " value;")) ++ "\x7d"

def FieldTrees.definitionText : FieldTrees → Option String
  | .nil => some ""
  | .cons name t fields => do
      let code ← fieldDefinition name t t.definitionText
      let rest ← fields.definitionText
      return code ++ rest

def CaseTrees.definitionText : CaseTrees → Option String
  | .nil => some ""
  | .default t => fieldDefinition "" t t.definitionText
  | .cons name t _ cases => do
      let code ← fieldDefinition name t t.definitionText
      let rest ← cases.definitionText
      return code ++ rest

end

end CmcServer.ProtoDef
