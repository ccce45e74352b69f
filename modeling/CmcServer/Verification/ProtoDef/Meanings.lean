import CmcServer.Verification.ProtoDef.Destinations

/-! # What type trees mean

A type tree has all the names of the Python objects in it. The type that it stands for is what the
commands are generated from. -/

namespace CmcServer.ProtoDef

def Native.cName : Native → String
  | .i8 => "i8"
  | .u8 => "u8"
  | .u16 => "u16"
  | .i16 => "i16"
  | .i32 => "i32"
  | .i64 => "i64"
  | .f32 => "f32"
  | .f64 => "f64"
  | .bool => "bool"
  | .uuid => "uuid"
  | .varint => "varint"
  | .varlong => "varlong"
  | .nbt => "nbt"

def Native.ofName (name : String) (size : ℤ) : Option Native :=
  [.i8, .u8, .u16, .i16, .i32, .i64, .f32, .f64, .bool, .uuid, .varint, .varlong, .nbt].find?
    fun n => n.cName = name ∧ n.size = size

/-- The value that selects a case of a switch, by the type of the field that it compares. -/
def CaseValue.ofText (value : String) : TypeTree → Option CaseValue
  | .native name _ _ =>
      if name ∈ ["u8", "u16", "i8", "i16", "i32", "i64", "varint", "varlong"] then
        (parseInt value).map .int
      else if name = "bool" then
        if value = "true" then some (.bool true)
        else if value = "false" then some (.bool false)
        else none
      else none
  | _ => none

def levelsUp : List Char → ℕ
  | '.' :: '.' :: '/' :: name => levelsUp name + 1
  | _ => 0

/-- Fields that are packed into a value of an integer type. -/
def PackedFields (fields : List BitField) : Prop :=
  fields ≠ [] ∧ (∀ field ∈ fields, IsName field.name ∧ field.name ≠ "") ∧
    bitsSize fields ∈ [1, 2, 4, 8]

instance (fields : List BitField) : Decidable (PackedFields fields) :=
  inferInstanceAs (Decidable (_ ∧ _ ∧ _))

mutual

/-- The type of a tree. A tree has none if its code raises an exception, or is not C: natives
without functions, names that are not C identifiers, typedefs without a reader that is C, packed
values that are not as wide as an integer type. -/
def TypeTree.meaning : TypeTree → List FieldTrees → Option Ty
  | .typedef name base, _ => ((base.meaning []).filter Ty.readerCompiles).map (.typedef name)
  | .native name _ size, _ => (Native.ofName name size).map .native
  | .void, _ => none
  | .switch _ isAbstract compareTo cases, parents =>
      if isAbstract ∧ compareTo = "$compare_to" then none
      else
        (findField parents compareTo.toList).bind fun found =>
          (if found.2.isNamedTypedef then cases.chainMeaning else cases.switchMeaning found.2).map
            (.switch (levelsUp compareTo.toList) found.1)
  | .container fields, parents => (fields.meaning (fields :: parents)).map .container
  | .array count element, _ =>
      (count.meaning []).bind fun count => (element.meaning []).map (.array count)
  | .restArray element, _ => (element.meaning []).map .rest
  | .bitfield fields _, _ =>
      if PackedFields fields then some (.bitfield fields) else none
  | .option base, _ => (base.meaning []).map .option

def FieldTrees.meaning : FieldTrees → List FieldTrees → Option Fields
  | .nil, _ => some .nil
  | .cons name t fields, parents =>
      if IsName name then
        (t.meaning parents).bind fun t => (fields.meaning parents).map (.cons name t)
      else none

/-- The cases of a `switch` statement. -/
def CaseTrees.switchMeaning (compareToType : TypeTree) : CaseTrees → Option Cases
  | .nil => some .nil
  | .default t =>
      (if t.isVoid then some .void else t.meaning []).map fun t => .cons "" t .default .nil
  | .cons name t value cases =>
      if IsName name then
        (CaseValue.ofText value compareToType).bind fun value =>
          (if t.isVoid then some .void else t.meaning []).bind fun t =>
            (cases.switchMeaning compareToType).map (.cons name t value)
      else none

/-- The cases that are told apart by strings. The code of a void default is asked for. -/
def CaseTrees.chainMeaning : CaseTrees → Option Cases
  | .nil => some .nil
  | .default t => (t.meaning []).map fun t => .cons "" t .default .nil
  | .cons name t value cases =>
      if IsName name then
        (if t.isVoid then some .void else t.meaning []).bind fun t =>
          cases.chainMeaning.map (.cons name t (.string value))
      else none

end

-- a string that is counted by a varint
example : (TypeTree.array (.native "varint" "int32_t" (-1)) (.native "i8" "char" 1)).meaning [] =
    some (.array (.native .varint) (.native .i8)) := by
  simp [TypeTree.meaning, Native.ofName, Native.cName, Native.size]

/-! ## Sizes -/

theorem ofName_eq_some {name : String} {size : ℤ} {n : Native}
    (h : Native.ofName name size = some n) : n.cName = name ∧ n.size = size := by
  simpa using List.find?_some h

theorem meaning_of_case {t : TypeTree} {ty : Ty}
    (h : (if t.isVoid then some .void else t.meaning []) = some ty) :
    (t = .void ∧ ty = .void) ∨ (t.isVoid = false ∧ t.meaning [] = some ty) := by
  by_cases hvoid : t.isVoid
  · rw [if_pos hvoid] at h
    cases t with
    | void => exact .inl ⟨rfl, (Option.some.inj h).symm⟩
    | _ => cases hvoid
  · rw [if_neg hvoid] at h
    exact .inr ⟨by simpa using hvoid, h⟩

mutual

theorem TypeTree.getSize_meaning (t : TypeTree) {parents : List FieldTrees} {ty : Ty}
    (h : t.meaning parents = some ty) : ty.getSize = t.getSize := by
  cases t with
  | typedef name base =>
      obtain ⟨base', hbase, rfl⟩ := Option.map_eq_some_iff.mp h
      rw [Ty.getSize, TypeTree.getSize]
      exact base.getSize_meaning (Option.filter_eq_some_iff.mp hbase).1
  | native name ctype size =>
      obtain ⟨n, hn, rfl⟩ := Option.map_eq_some_iff.mp h
      exact (ofName_eq_some hn).2
  | void => cases h
  | switch name isAbstract compareTo cases =>
      rw [TypeTree.meaning] at h
      obtain ⟨-, h⟩ := Option.ite_none_left_eq_some.mp h
      obtain ⟨found, -, h⟩ := Option.bind_eq_some_iff.mp h
      obtain ⟨cases', hcases, rfl⟩ := Option.map_eq_some_iff.mp h
      rw [Ty.getSize, TypeTree.getSize]
      split at hcases
      · exact cases.getSize_chainMeaning hcases 0
      · exact cases.getSize_switchMeaning hcases 0
  | container fields =>
      obtain ⟨fields', hfields, rfl⟩ := Option.map_eq_some_iff.mp h
      exact fields.getSize_meaning hfields 0
  | array count element =>
      obtain ⟨count', -, h⟩ := Option.bind_eq_some_iff.mp h
      obtain ⟨element', -, rfl⟩ := Option.map_eq_some_iff.mp h
      rfl
  | restArray element =>
      obtain ⟨element', -, rfl⟩ := Option.map_eq_some_iff.mp h
      rfl
  | bitfield fields fits =>
      obtain ⟨hpacked, h⟩ := Option.ite_none_right_eq_some.mp h
      cases h
      cases fields with
      | nil => exact absurd rfl hpacked.1
      | cons field fields => rfl
  | option base =>
      obtain ⟨base', -, rfl⟩ := Option.map_eq_some_iff.mp h
      rfl

theorem FieldTrees.getSize_meaning (fields : FieldTrees) {parents : List FieldTrees} {fs : Fields}
    (h : fields.meaning parents = some fs) (size : ℤ) : fs.getSize size = fields.getSize size := by
  cases fields with
  | nil =>
      cases h
      rfl
  | cons name t fields =>
      rw [FieldTrees.meaning] at h
      obtain ⟨-, h⟩ := Option.ite_none_right_eq_some.mp h
      obtain ⟨ty, hty, h⟩ := Option.bind_eq_some_iff.mp h
      obtain ⟨fs, hfs, rfl⟩ := Option.map_eq_some_iff.mp h
      rw [Fields.getSize, FieldTrees.getSize, t.getSize_meaning hty]
      exact fields.getSize_meaning hfs _

theorem CaseTrees.getSize_switchMeaning (cases : CaseTrees) {compareToType : TypeTree} {cs : Cases}
    (h : cases.switchMeaning compareToType = some cs) (size : ℤ) :
    cs.getSize size = cases.getSize size := by
  cases cases with
  | nil =>
      cases h
      rfl
  | default t =>
      obtain ⟨ty, hty, rfl⟩ := Option.map_eq_some_iff.mp h
      have hsize : ty.getSize = t.getSize := by
        obtain ⟨rfl, rfl⟩ | ⟨-, hty⟩ := meaning_of_case hty
        · rfl
        · exact t.getSize_meaning hty
      simp only [Cases.getSize, CaseTrees.getSize, hsize]
  | cons name t value cases =>
      rw [CaseTrees.switchMeaning] at h
      obtain ⟨-, h⟩ := Option.ite_none_right_eq_some.mp h
      obtain ⟨value', -, h⟩ := Option.bind_eq_some_iff.mp h
      obtain ⟨ty, hty, h⟩ := Option.bind_eq_some_iff.mp h
      obtain ⟨cs, hcs, rfl⟩ := Option.map_eq_some_iff.mp h
      have hsize : ty.getSize = t.getSize := by
        obtain ⟨rfl, rfl⟩ | ⟨-, hty⟩ := meaning_of_case hty
        · rfl
        · exact t.getSize_meaning hty
      rw [Cases.getSize, CaseTrees.getSize, hsize]
      exact cases.getSize_switchMeaning hcs _

theorem CaseTrees.getSize_chainMeaning (cases : CaseTrees) {cs : Cases}
    (h : cases.chainMeaning = some cs) (size : ℤ) : cs.getSize size = cases.getSize size := by
  cases cases with
  | nil =>
      cases h
      rfl
  | default t =>
      obtain ⟨ty, hty, rfl⟩ := Option.map_eq_some_iff.mp h
      simp only [Cases.getSize, CaseTrees.getSize, t.getSize_meaning hty]
  | cons name t value cases =>
      rw [CaseTrees.chainMeaning] at h
      obtain ⟨-, h⟩ := Option.ite_none_right_eq_some.mp h
      obtain ⟨ty, hty, h⟩ := Option.bind_eq_some_iff.mp h
      obtain ⟨cs, hcs, rfl⟩ := Option.map_eq_some_iff.mp h
      have hsize : ty.getSize = t.getSize := by
        obtain ⟨rfl, rfl⟩ | ⟨-, hty⟩ := meaning_of_case hty
        · rfl
        · exact t.getSize_meaning hty
      rw [Cases.getSize, CaseTrees.getSize, hsize]
      exact cases.getSize_chainMeaning hcs _

end

/-- A void has no meaning of its own, and the functions of a tree and of its type have the same
parameter. -/
theorem isVoid_and_source_meaning {t : TypeTree} {parents : List FieldTrees} {ty : Ty}
    (h : t.meaning parents = some ty) : ty.isVoid = false ∧ sourceOf ty = t.source := by
  cases t with
  | typedef name base =>
      obtain ⟨base', -, rfl⟩ := Option.map_eq_some_iff.mp h
      exact ⟨rfl, rfl⟩
  | native name ctype size =>
      obtain ⟨n, -, rfl⟩ := Option.map_eq_some_iff.mp h
      exact ⟨rfl, rfl⟩
  | void => cases h
  | switch name isAbstract compareTo cases =>
      rw [TypeTree.meaning] at h
      obtain ⟨-, h⟩ := Option.ite_none_left_eq_some.mp h
      obtain ⟨found, -, h⟩ := Option.bind_eq_some_iff.mp h
      obtain ⟨cases', -, rfl⟩ := Option.map_eq_some_iff.mp h
      exact ⟨rfl, rfl⟩
  | container fields =>
      obtain ⟨fields', -, rfl⟩ := Option.map_eq_some_iff.mp h
      exact ⟨rfl, rfl⟩
  | array count element =>
      obtain ⟨count', -, h⟩ := Option.bind_eq_some_iff.mp h
      obtain ⟨element', -, rfl⟩ := Option.map_eq_some_iff.mp h
      exact ⟨rfl, rfl⟩
  | restArray element =>
      obtain ⟨element', -, rfl⟩ := Option.map_eq_some_iff.mp h
      exact ⟨rfl, rfl⟩
  | bitfield fields fits =>
      obtain ⟨-, h⟩ := Option.ite_none_right_eq_some.mp h
      cases h
      exact ⟨rfl, rfl⟩
  | option base =>
      obtain ⟨base', -, rfl⟩ := Option.map_eq_some_iff.mp h
      exact ⟨rfl, rfl⟩

theorem isVariable_meaning {t : TypeTree} {parents : List FieldTrees} {ty : Ty}
    (h : t.meaning parents = some ty) : ty.isVariable = t.isVariable := by
  rw [Ty.isVariable, TypeTree.isVariable, t.getSize_meaning h]

theorem fixedTotal_meaning {fields : FieldTrees} {parents : List FieldTrees} {fs : Fields}
    (h : fields.meaning parents = some fs) : fs.fixedTotal = fields.fixedTotal := by
  cases fields with
  | nil =>
      cases h
      rfl
  | cons name t fields =>
      rw [FieldTrees.meaning] at h
      obtain ⟨-, h⟩ := Option.ite_none_right_eq_some.mp h
      obtain ⟨ty, hty, h⟩ := Option.bind_eq_some_iff.mp h
      obtain ⟨fs, hfs, rfl⟩ := Option.map_eq_some_iff.mp h
      rw [Fields.fixedTotal, FieldTrees.fixedTotal, isVariable_meaning hty, t.getSize_meaning hty,
        fixedTotal_meaning hfs]

/-! ## Cases -/

def CaseValue.label : CaseValue → Option String
  | .int value => some (toString value)
  | .bool value => some (if value then "true" else "false")
  | .string _ => none
  | .default => none

theorem isSome_label_ofText {value : String} {t : TypeTree} {v : CaseValue}
    (h : CaseValue.ofText value t = some v) : v.label.isSome := by
  cases v with
  | int n => rfl
  | bool b => rfl
  | string s => cases t <;> simp [CaseValue.ofText, ite_eq_iff] at h
  | default => cases t <;> simp [CaseValue.ofText, ite_eq_iff] at h

/-- `get_c_value_for_type` returns the label of the value. -/
theorem label_ofText {value : String} {t : TypeTree} {v : CaseValue}
    (h : CaseValue.ofText value t = some v) : v.label = cValueForType value t := by
  cases t with
  | native name ctype size =>
      rw [CaseValue.ofText] at h
      rw [cValueForType]
      split at h
      · rename_i hname
        obtain ⟨n, hn, rfl⟩ := Option.map_eq_some_iff.mp h
        rw [if_pos hname, hn]
        rfl
      · rename_i hname
        rw [if_neg hname]
        split at h
        · rename_i hbool
          rw [if_pos hbool]
          split at h
          · rename_i htrue
            cases h
            rw [if_pos htrue]
            rfl
          · rename_i htrue
            rw [if_neg htrue]
            obtain ⟨hfalse, h⟩ := Option.ite_none_right_eq_some.mp h
            cases h
            rw [if_pos hfalse]
            rfl
        · cases h
  | _ => cases h

end CmcServer.ProtoDef
