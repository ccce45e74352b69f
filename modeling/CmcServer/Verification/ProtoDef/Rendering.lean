import CmcServer.Lib.Yields
import CmcServer.Model.Packets
import CmcServer.Model.ProtoDef.Beautify
import CmcServer.Verification.ProtoDef.Destinations
import CmcServer.Verification.ProtoDef.Meanings

/-! # The text of commands

Which C text stands for which command. The text that the generators emit for a type tree stands for
the commands that are generated for its type. -/

namespace CmcServer.ProtoDef

/-! ## C text -/

/-- `(&packet)` is no lvalue. It can be neither assigned to nor pointed at. -/
def LVal.Assignable (place : LVal) : Prop := place ≠ ⟨.addr, []⟩

mutual

/-- The text of a statement. `functions` are the bodies of the emitted functions: the readers by
`Dir.read` and the writers by `Dir.write`, under the names behind `protocol_read_` and
`protocol_write_`. How wide a length is and what type an element has is said by their
declarations. -/
inductive Renders (functions : Dir → String → Cmd → Prop) : String → Cmd → Prop
  | skip : Renders functions "" .skip
  | seq {s s' : String} {c c' : Cmd} :
      Renders functions s c → Renders functions s' c' → Renders functions (s ++ s') (.seq c c')
  | block {s : String} {c : Cmd} :
      Renders functions s c → Renders functions ("\x7b" ++ s ++ "\x7d;") c
  | fail : Renders functions "return -1;" .fail
  | checkSize (n : ℤ) : Renders functions s!"if (size < {n}) return -1;" (.checkSize n)
  | checkSizeOf (n : ℤ) : Renders functions s!"if ({n} > size) return -1;" (.checkSize n)
  | subSize (n : ℤ) : Renders functions s!"size -= {n};" (.subSize n)
  | decSize : Renders functions "size--;" (.subSize 1)
  | checkCount (length : Len) (n : ℤ) :
      Renders functions s!"if ({length.place.text} * {n} > size) return -1;" (.checkCount length n)
  | subCount (length : Len) (n : ℤ) :
      Renders functions s!"size -= {length.place.text} * {n};" (.subCount length n)
  | setRest (place : LVal) (n : ℤ) :
      place.Assignable →
        Renders functions s!"{place.text} = size / sizeof({n});size -= {place.text};"
          (.setRest place)
  | readFixed {n : Native} (place : LVal) :
      place.Assignable → isVariableSize n.size = false →
        Renders functions s!"{place.text} = protocol_read_{n.cName}(data);data += {n.size};"
          (.fixed .read n place)
  | writeFixed {n : Native} (place : LVal) :
      isVariableSize n.size = false →
        Renders functions s!"protocol_write_{n.cName}(data, {place.text});data += {n.size};"
          (.fixed .write n place)
  -- the byte is converted to the `bool` field
  | readFlag (place : LVal) :
      place.Assignable →
        Renders functions (s!"{place.text} = protocol_read_u8(data);" ++ "data++;")
          (.fixed .read .bool place)
  | writeFlag (place : LVal) :
      Renders functions (s!"protocol_write_u8(data, {place.text});" ++ "data++;")
        (.fixed .write .u8 place)
  | readVariable {n : Native} (place : LVal) :
      place.Assignable → isVariableSize n.size = true →
        Renders functions (variableCall .read n.cName s!"data, size, &{place.text}")
          (.variable .read n place)
  | writeVariable {n : Native} (place : LVal) :
      isVariableSize n.size = true →
        Renders functions (variableCall .write n.cName s!"data, size, {place.text}")
          (.variable .write n place)
  | bits (dir : Dir) {fields : List BitField} (place : LVal) :
      PackedFields fields →
        Renders functions
          (bitfieldText dir (bitsSize fields * 8) (bitsSize fields) fields place.text)
          (.bits dir fields place)
  | alloc (place : LVal) (wide : Bool) (element : Ty) :
      Renders functions
        (allocText .read (accessField place "length").text (accessField place "elements").text)
        (.alloc ⟨accessField place "length", wide⟩ element)
  | loop (i : ℕ) (length : Len) {s : String} {c : Cmd} :
      Renders functions s c →
        Renders functions
          (s!"for (int i{i} = 0; i{i} < {length.place.text}; i{i}++)" ++ "\x7b" ++ s ++ "\x7d;")
          (.loop i length c)
  | ifPresent (place : LVal) {s : String} {c : Cmd} :
      Renders functions s c →
        Renders functions (s!"if ({place.text}) " ++ "\x7b" ++ s ++ "\x7d")
          (.ite (.present place) c .skip)
  | chain {s : String} {c : Cmd} : RendersChain functions s c → Renders functions s c
  | «switch» (place : LVal) {s : String} {c : Cmd} :
      RendersCases functions place s c →
        Renders functions (s!"switch ({place.text}) " ++ "\x7b" ++ s ++ "\x7d\n") c
  | callRead {name : String} {body : Cmd} (place : LVal) :
      place.Assignable → functions .read name body →
        Renders functions (variableCall .read name s!"arena, data, size, &{place.text}")
          (.call body place)
  | callWrite {name : String} {body : Cmd} (place : LVal) :
      place.Assignable → functions .write name body →
        Renders functions (variableCall .write name s!"data, size, &{place.text}")
          (.call body place)
  | callFixedRead {name : String} {body : Cmd} (place : LVal) (size : ℤ) :
      place.Assignable → functions .read name body →
        Renders functions s!"{place.text} = protocol_read_{name}(data);data += {size};"
          (.callFixed body place size)
  | callFixedWrite {name : String} {body : Cmd} (place : LVal) (size : ℤ) :
      place.Assignable → functions .write name body →
        Renders functions s!"protocol_write_{name}(data, &{place.text});data += {size};"
          (.callFixed body place size)

/-- Comparisons with strings, up to the block behind the last `else`. -/
inductive RendersChain (functions : Dir → String → Cmd → Prop) : String → Cmd → Prop
  | last {s : String} {c : Cmd} :
      Renders functions s c → RendersChain functions ("\x7b" ++ s ++ "\x7d\n") c
  | ifString (place : LVal) (value : String) {s s' : String} {c c' : Cmd} :
      Renders functions s c → RendersChain functions s' c' →
        RendersChain functions
          (s!"if ({place.text}.length == {value.length} && " ++
            s!"strncmp(\"{value}\", {place.text}.elements, {value.length}) == 0) " ++
            "\x7b" ++ s ++ "\x7d\n" ++ ("else " ++ s'))
          (.ite (.eqString place value) c c')

/-- The cases of a `switch` statement on a place. -/
inductive RendersCases (functions : Dir → String → Cmd → Prop) : LVal → String → Cmd → Prop
  | missing (place : LVal) :
      RendersCases functions place ("default: " ++ "\x7b" ++ "return -1;" ++ "\x7d break;") .fail
  | default (place : LVal) {s : String} {c : Cmd} :
      Renders functions s c →
        RendersCases functions place ("default:" ++ "\x7b" ++ s ++ "\x7d break;") c
  | case {place : LVal} {value : CaseValue} {label s s' : String} {c c' : Cmd} :
      value.label = some label → Renders functions s c → RendersCases functions place s' c' →
        RendersCases functions place
          (s!"case {label}:" ++ "\x7b" ++ s ++ "\x7d break;" ++ s')
          (.ite (caseTest place value) c c')

end

/-! ## Lvalues -/

namespace LVal.Assignable

variable {place : LVal}

theorem of_steps (h : place.steps ≠ []) : place.Assignable := by
  rintro rfl
  exact h rfl

theorem accessField (h : place.Assignable) (name : String) :
    (accessField place name).Assignable :=
  accessField_cases (motive := LVal.Assignable) place name (fun _ => h)
    (fun _ _ _ _ => of_steps (List.cons_ne_nil _ _)) fun _ _ => of_steps (List.cons_ne_nil _ _)

theorem at_index (place : LVal) (i : ℕ) : (place.at i).Assignable :=
  of_steps (List.cons_ne_nil _ _)

end LVal.Assignable

theorem assignable_source (t : TypeTree) : t.source.Assignable := by
  intro h
  cases t <;> cases h

/-! ## Statements -/

section

variable {functions : Dir → String → Cmd → Prop} {s s' : String} {c c' : Cmd}

theorem Renders.cast (h : Renders functions s c) (hs : s = s') : Renders functions s' c := hs ▸ h

theorem renders_reserve {t : Ty} {size : ℤ} (hsize : t.getSize = size) :
    Renders functions (reserveText size) (reserve t) := by
  rw [reserve, reserveText, Ty.isVariable, hsize]
  split
  · exact .skip
  · refine Renders.cast (.seq (.checkSize size) (.subSize size)) (String.toList_injective ?_)
    simp [toString]

theorem renders_reserveCount {t : Ty} {size : ℤ} (hsize : t.getSize = size) :
    Renders functions (reserveCountText size) (reserve t) := by
  rw [reserve, reserveCountText, Ty.isVariable, hsize]
  split
  · exact .skip
  · refine Renders.cast (.seq (.checkSizeOf size) (.subSize size)) (String.toList_injective ?_)
    simp [toString]

theorem renders_reserveElements (length : Len) {t : Ty} {size : ℤ} (hsize : t.getSize = size) :
    Renders functions (reserveElementsText length.place.text size) (reserveElements length t) := by
  rw [reserveElements, reserveElementsText, Ty.isVariable, hsize]
  split
  · exact .skip
  · refine Renders.cast (.seq (.checkCount length size) (.subCount length size))
      (String.toList_injective ?_)
    simp [toString]

theorem renders_alloc (dir : Dir) (place : LVal) (wide : Bool) (element : Ty) :
    Renders functions
      (allocText dir (accessField place "length").text (accessField place "elements").text)
      (match dir with
        | .read => .alloc ⟨accessField place "length", wide⟩ element
        | .write => .skip) := by
  cases dir with
  | read => exact .alloc place wide element
  | write => exact .skip

theorem renders_rest (dir : Dir) {place : LVal} (hplace : place.Assignable) {element : Ty}
    {size : ℤ} (hsize : element.getSize = size) :
    Renders functions
      (restText dir (accessField place "length").text size ++
        allocText dir (accessField place "length").text (accessField place "elements").text)
      (match dir with
        | .read =>
            .seq (.setRest (accessField place "length"))
              (.alloc ⟨accessField place "length", false⟩ element)
        | .write => reserveElements ⟨accessField place "length", false⟩ element) := by
  cases dir with
  | read => exact .seq (.setRest _ _ (hplace.accessField "length")) (.alloc place false element)
  | write =>
      exact Renders.cast (renders_reserveElements ⟨accessField place "length", false⟩ hsize)
        String.append_empty.symm

theorem renders_closeRun (run : Option ℤ) :
    Renders functions (closeRunText run)
      (match run with
        | none => .skip
        | some total => .subSize total) := by
  cases run with
  | none => exact .skip
  | some total => exact .subSize total

theorem renders_elements (i : ℕ) (length : Len) (h : Renders functions s c) :
    Renders functions (elementsText i length.place.text s) (.loop i length c) := by
  unfold elementsText
  exact .loop i length h

theorem renders_native (dir : Dir) {name : String} {size : ℤ} {n : Native}
    (hn : n.cName = name ∧ n.size = size) {place : LVal} (hplace : place.Assignable) :
    Renders functions (nativeText dir name size place.text)
      (if (Ty.native n).isVariable then .variable dir n place else .fixed dir n place) := by
  obtain ⟨rfl, rfl⟩ := hn
  rw [Ty.isVariable, Ty.getSize]
  cases hvariable : isVariableSize n.size with
  | true =>
      cases dir with
      | read =>
          simp only [nativeText, hvariable, if_true]
          exact .readVariable place hplace hvariable
      | write =>
          simp only [nativeText, hvariable, if_true]
          exact .writeVariable place hvariable
  | false =>
      cases dir with
      | read =>
          simp only [nativeText, hvariable, Bool.false_eq_true, if_false]
          exact .readFixed place hplace hvariable
      | write =>
          simp only [nativeText, hvariable, Bool.false_eq_true, if_false]
          exact .writeFixed place hvariable

theorem renders_typedef (dir : Dir) {name : String} {size : ℤ} {variableBody fixedBody : Cmd}
    (hvariable : isVariableSize size = true → functions dir name variableBody)
    (hfixed : isVariableSize size = false → functions dir name fixedBody) {place : LVal}
    (hplace : place.Assignable) :
    Renders functions (typedefText dir name size place.text)
      (if isVariableSize size then .call variableBody place
        else .callFixed fixedBody place size) := by
  cases hsize : isVariableSize size with
  | true =>
      cases dir with
      | read =>
          simp only [typedefText, hsize, if_true]
          exact .callRead place hplace (hvariable hsize)
      | write =>
          simp only [typedefText, hsize, if_true]
          exact .callWrite place hplace (hvariable hsize)
  | false =>
      cases dir with
      | read =>
          simp only [typedefText, hsize, Bool.false_eq_true, if_false]
          exact .callFixedRead place size hplace (hfixed hsize)
      | write =>
          simp only [typedefText, hsize, Bool.false_eq_true, if_false]
          exact .callFixedWrite place size hplace (hfixed hsize)

def flagOf : Dir → Native
  | .read => .bool
  | .write => .u8

theorem renders_option (dir : Dir) {base : Ty} {size : ℤ} (hsize : base.getSize = size)
    {present : LVal} (hpresent : present.Assignable) :
    Renders functions (optionText dir size present.text)
      (.seq (.checkSize 1) <| .seq (.subSize 1) <| .seq (.fixed dir (flagOf dir) present) <|
        .ite (.present present) (reserve base) .skip) := by
  have hlast : Renders functions (s!"if ({present.text}) " ++ "\x7b" ++ reserveText size ++ "\x7d")
      (.ite (.present present) (reserve base) .skip) := .ifPresent present (renders_reserve hsize)
  have hcheck : Renders functions "if (size < 1) return -1;" (.checkSize 1) :=
    Renders.cast (.checkSize 1) (by decide)
  have hsplit : "if (size < 1) return -1;size--;" = "if (size < 1) return -1;" ++ "size--;" := by
    simp
  cases dir with
  | read =>
      have htext : optionText .read size present.text = "if (size < 1) return -1;" ++
          ("size--;" ++ ((s!"{present.text} = protocol_read_u8(data);" ++ "data++;") ++
            (s!"if ({present.text}) " ++ "\x7b" ++ reserveText size ++ "\x7d"))) := by
        unfold optionText
        simp only [hsplit, String.append_assoc]
      rw [htext]
      exact .seq hcheck (.seq .decSize (.seq (.readFlag present hpresent) hlast))
  | write =>
      have htext : optionText .write size present.text = "if (size < 1) return -1;" ++
          ("size--;" ++ ((s!"protocol_write_u8(data, {present.text});" ++ "data++;") ++
            (s!"if ({present.text}) " ++ "\x7b" ++ reserveText size ++ "\x7d"))) := by
        unfold optionText
        simp only [hsplit, String.append_assoc]
      rw [htext]
      exact .seq hcheck (.seq .decSize (.seq (.writeFlag present) hlast))

end

/-! ## Generation -/

/-- The body of the function that is emitted for a typedef. -/
def functionBody (rnd : String → ℕ → ℕ) (dir : Dir) (name : String) (t : Ty) : Cmd :=
  genCode dir rnd name t (if t.isVariable then sourceOf t else fixedSourceOf dir t) 0

/-- A function of a type that has a reader and a writer. -/
def IsFunction (rnd : String → ℕ → ℕ) (dir : Dir) (name : String) (body : Cmd) : Prop :=
  ∃ (tree : TypeTree) (t : Ty), tree.meaning [] = some t ∧ t.readerCompiles = true ∧
    body = functionBody rnd dir name t

/-- After `k` draws the generator returns a text for a command, with some more draws. -/
def Emits (rnd : String → ℕ → ℕ) (gen : Gen String) (k draws : ℕ) (c : Cmd) : Prop :=
  Returns gen k fun text k' => k' = k + draws ∧ Renders (IsFunction rnd) text c

section

variable {dir : Dir} {rnd : String → ℕ → ℕ} {fn : String} {place : LVal} {k : ℕ}

theorem text_element (h : place.Formed) {elements : LVal}
    (helements : accessField place "elements" = elements) (i : ℕ) :
    s!"{elements.text}[i{i}]" = (elements.at i).text := by
  subst helements
  have htext := text_destination h (.element i)
  simp only [Move.destinationText, h.accessFieldText] at htext
  exact htext

theorem formed_element (h : place.Formed) (i : ℕ) :
    ((accessField place "elements").at i).Formed :=
  @formed_destination place (.element i) h trivial

theorem returns_randint (rnd : ℕ → ℕ) (k : ℕ) :
    Returns (randint rnd) k fun i k' => i = rnd k ∧ k' = k + 1 := ⟨_, _, rfl, rfl, rfl⟩

theorem genCases_cons {value : CaseValue} (h : value ≠ .default)
    (discriminant : LVal) (name : String) (t : Ty) (cases : Cases) :
    genCases dir rnd fn discriminant (.cons name t value cases) place k =
      .ite (caseTest discriminant value)
        (caseCode t (genCode dir rnd fn t (accessField place name) k))
        (genCases dir rnd fn discriminant cases place (k + t.draws)) := by
  cases value with
  | default => exact absurd rfl h
  | _ => rfl

theorem returns_fieldCode {t : TypeTree} {ty : Ty} {text : String}
    (h : (if t.isVoid then some .void else t.meaning []) = some ty)
    (hcode : t.meaning [] = some ty →
      Emits rnd (t.genText dir (rnd fn) [] text) k ty.draws (genCode dir rnd fn ty place k)) :
    Returns (fieldCode t (t.genText dir (rnd fn) [] text)) k fun code k' =>
      k' = k + ty.draws ∧ Renders (IsFunction rnd) (reserveText t.getSize ++ code)
        (caseCode ty (genCode dir rnd fn ty place k)) := by
  obtain ⟨rfl, rfl⟩ | ⟨hvoid, hty⟩ := meaning_of_case h
  · exact .pure ⟨rfl, .skip⟩
  · rw [fieldCode, hvoid, if_neg Bool.false_ne_true, caseCode, (isVoid_and_source_meaning hty).1,
      if_neg Bool.false_ne_true]
    refine (hcode hty).mono fun code k' hrendered => ⟨hrendered.1, ?_⟩
    exact .seq (renders_reserve (t.getSize_meaning hty)) hrendered.2

/-- The code of a whole function is that of its type. -/
theorem emits_typedef {name : String} {base : TypeTree} {ty : Ty}
    (h : base.meaning [] = some ty) (hcompiles : ty.readerCompiles = true)
    (hplace : place.Assignable) :
    Renders (IsFunction rnd) (typedefText dir name base.getSize place.text)
      (genCode dir rnd fn (.typedef name ty) place k) := by
  have hbody : ∀ body, body = functionBody rnd dir name ty → IsFunction rnd dir name body :=
    fun body hbody => ⟨base, ty, h, hcompiles, hbody⟩
  rw [genCode, Ty.isVariable, base.getSize_meaning h]
  refine renders_typedef dir (fun hvariable => hbody _ ?_) (fun hfixed => hbody _ ?_) hplace
  · rw [functionBody, Ty.isVariable, base.getSize_meaning h, if_pos hvariable]
  · rw [functionBody, Ty.isVariable, base.getSize_meaning h, if_neg (by simp [hfixed])]

/-- The code of a bitfield assigns to its fields, so its place may be `(&packet)`. -/
theorem emits_bitfield {fields : List BitField} {fits : (fields.map BitField.size).sum ≤ 64}
    {parents parents' : List FieldTrees} {ty : Ty}
    (h : (TypeTree.bitfield fields fits).meaning parents = some ty) :
    Emits rnd ((TypeTree.bitfield fields fits).genText dir (rnd fn) parents' place.text) k ty.draws
      (genCode dir rnd fn ty place k) := by
  obtain ⟨hpacked, h⟩ := Option.ite_none_right_eq_some.mp h
  cases h
  rw [TypeTree.genText, genCode]
  refine .pure ⟨rfl, Renders.cast (.bits dir place hpacked) ?_⟩
  have hsize : (TypeTree.bitfield fields fits).getSize = (bitsSize fields : ℤ) := by
    cases fields with
    | nil => exact absurd rfl hpacked.1
    | cons field fields => rfl
  rw [hsize]
  norm_cast

mutual

/-- The code of a type tree stands for the commands of its type. -/
theorem TypeTree.emits (t : TypeTree) {parents : List FieldTrees} {ty : Ty} {place : LVal}
    (h : t.meaning parents = some ty) (hplace : place.Formed) (hassign : place.Assignable) (k : ℕ) :
    Emits rnd (t.genText dir (rnd fn) parents place.text) k ty.draws
      (genCode dir rnd fn ty place k) := by
  cases t with
  | typedef name base =>
      obtain ⟨base', hbase, rfl⟩ := Option.map_eq_some_iff.mp h
      obtain ⟨hbase, hcompiles⟩ := Option.filter_eq_some_iff.mp hbase
      rw [TypeTree.genText]
      exact .pure ⟨rfl, emits_typedef hbase hcompiles hassign⟩
  | native name ctype size =>
      obtain ⟨n, hn, rfl⟩ := Option.map_eq_some_iff.mp h
      rw [TypeTree.genText, genCode]
      exact .pure ⟨rfl, renders_native dir (ofName_eq_some hn) hassign⟩
  | void => cases h
  | switch name isAbstract compareTo cases =>
      rw [TypeTree.meaning] at h
      obtain ⟨hconcrete, h⟩ := Option.ite_none_left_eq_some.mp h
      obtain ⟨found, hfound, h⟩ := Option.bind_eq_some_iff.mp h
      obtain ⟨cases', hcases, rfl⟩ := Option.map_eq_some_iff.mp h
      rw [TypeTree.genText, if_neg hconcrete]
      refine .bind (.lift (P := fun a k' => found = a ∧ k = k') hfound ⟨rfl, rfl⟩) ?_
      rintro _ _ ⟨rfl, rfl⟩
      simp only [hplace.parentFieldText, hplace.parent.accessFieldText]
      split at hcases
      · rename_i hnamed
        rw [if_pos hnamed]
        refine (cases.emits_chain _ hcases hplace hassign k).mono fun code k' hcode => ?_
        exact ⟨hcode.1, .chain hcode.2⟩
      · rename_i hnamed
        rw [if_neg hnamed]
        refine .bind (cases.emits_switch (accessField (getParentField place) found.1) hcases hplace
          hassign k) fun code k' hcode => .pure ?_
        exact ⟨hcode.1, .switch _ hcode.2⟩
  | container fields =>
      obtain ⟨fields', hfields, rfl⟩ := Option.map_eq_some_iff.mp h
      rw [TypeTree.genText, genCode]
      exact fields.emits hfields none hplace hassign k
  | array count element =>
      obtain ⟨count', hcount, h⟩ := Option.bind_eq_some_iff.mp h
      obtain ⟨element', helement, rfl⟩ := Option.map_eq_some_iff.mp h
      rw [TypeTree.genText, genCode.eq_def]
      simp only [hplace.accessFieldText]
      refine .bind (count.emits hcount (hplace.field (by decide)) (hassign.accessField _) k) ?_
      rintro countCode _ ⟨rfl, hcountCode⟩
      refine .bind (returns_randint (rnd fn) _) ?_
      rintro _ _ ⟨rfl, rfl⟩
      rw [text_element hplace rfl]
      refine .bind (element.emits helement (formed_element hplace _) (.at_index _ _) _) ?_
      rintro code _ ⟨rfl, hcode⟩
      refine .pure ⟨by rw [Ty.draws]; omega, ?_⟩
      let length : Len := ⟨accessField place "length", count'.isWide⟩
      have hreserve : Renders (IsFunction rnd) _ (reserveElements length element') :=
        renders_reserveElements length (element.getSize_meaning helement)
      have halloc : Renders (IsFunction rnd) _ _ := renders_alloc dir place count'.isWide element'
      refine Renders.cast (.block <| .seq (renders_reserveCount (count.getSize_meaning hcount)) <|
        .seq hcountCode <| .seq hreserve <| .seq halloc <| renders_elements _ length hcode) ?_
      simp only [String.empty_append, String.append_assoc]
      rfl
  | restArray element =>
      obtain ⟨element', helement, rfl⟩ := Option.map_eq_some_iff.mp h
      rw [TypeTree.genText, genCode.eq_def]
      simp only [hplace.accessFieldText]
      refine .bind (returns_randint (rnd fn) _) ?_
      rintro _ _ ⟨rfl, rfl⟩
      rw [text_element hplace rfl]
      refine .bind (element.emits helement (formed_element hplace _) (.at_index _ _) _) ?_
      rintro code _ ⟨rfl, hcode⟩
      refine .pure ⟨by rw [Ty.draws]; omega, ?_⟩
      have hloop := renders_elements (rnd fn k) ⟨accessField place "length", false⟩ hcode
      refine Renders.cast (.block (.seq (renders_rest dir hassign
        (element.getSize_meaning helement)) hloop)) ?_
      simp only [String.empty_append, String.append_assoc]
  | bitfield fields fits => exact emits_bitfield h
  | option base =>
      obtain ⟨base', hbase, rfl⟩ := Option.map_eq_some_iff.mp h
      rw [TypeTree.genText, genCode.eq_def]
      simp only [hplace.accessFieldText]
      refine .bind (base.emits hbase (hplace.field (by decide)) (hassign.accessField _) k) ?_
      rintro _ _ ⟨rfl, -⟩
      refine .pure ⟨rfl, ?_⟩
      exact renders_option dir (base.getSize_meaning hbase) (hassign.accessField "present")

theorem FieldTrees.emits (fields : FieldTrees) {parents : List FieldTrees} {fs : Fields}
    {place : LVal} (h : fields.meaning parents = some fs) (run : Option ℤ) (hplace : place.Formed)
    (hassign : place.Assignable) (k : ℕ) :
    Emits rnd (fields.genText dir (rnd fn) run parents place.text) k fs.draws
      (genFields dir rnd fn run fs place k) := by
  cases fields with
  | nil =>
      cases h
      rw [FieldTrees.genText, genFields.eq_def]
      exact .pure ⟨rfl, renders_closeRun run⟩
  | cons name t fields =>
      have htotal := fixedTotal_meaning h
      rw [FieldTrees.meaning] at h
      obtain ⟨hname, h⟩ := Option.ite_none_right_eq_some.mp h
      obtain ⟨ty, hty, h⟩ := Option.bind_eq_some_iff.mp h
      obtain ⟨fs, hfs, rfl⟩ := Option.map_eq_some_iff.mp h
      rw [FieldTrees.genText, genFields.eq_def, hplace.accessFieldText]
      refine .bind (t.emits hty (hplace.field hname) (hassign.accessField name) k) ?_
      rintro code _ ⟨rfl, hcode⟩
      simp only [isVariable_meaning hty]
      split
      · refine .bind (fields.emits hfs none hplace hassign _) ?_
        rintro rest _ ⟨rfl, hrest⟩
        refine .pure ⟨by rw [Fields.draws]; omega, ?_⟩
        refine Renders.cast (.seq (renders_closeRun run) (.seq hcode hrest)) ?_
        rw [String.append_assoc]
      · refine .bind (fields.emits hfs _ hplace hassign _) ?_
        rintro rest _ ⟨rfl, hrest⟩
        refine .pure ⟨by rw [Fields.draws]; omega, ?_⟩
        cases run with
        | none =>
            rw [Option.getD_none, ← htotal] at hrest ⊢
            refine Renders.cast (.seq (.checkSize _) (.seq hcode hrest)) ?_
            simp only [openRunText, String.append_assoc]
        | some total =>
            rw [Option.getD_some] at hrest ⊢
            refine Renders.cast (.seq hcode hrest) ?_
            rw [openRunText, String.empty_append]

theorem CaseTrees.emits_switch (cases : CaseTrees) (discriminant : LVal) {compareToType : TypeTree}
    {cs : Cases} {place : LVal} (h : cases.switchMeaning compareToType = some cs)
    (hplace : place.Formed) (hassign : place.Assignable) (k : ℕ) :
    Returns (cases.genSwitchText dir (rnd fn) compareToType place.text) k fun code k' =>
      k' = k + cs.draws ∧ RendersCases (IsFunction rnd) discriminant code
        (genCases dir rnd fn discriminant cs place k) := by
  cases cases with
  | nil =>
      cases h
      rw [CaseTrees.genSwitchText]
      exact .pure ⟨rfl, .missing discriminant⟩
  | default t =>
      obtain ⟨ty, hty, rfl⟩ := Option.map_eq_some_iff.mp h
      rw [CaseTrees.genSwitchText]
      refine .bind (returns_fieldCode hty fun hty => t.emits hty hplace hassign k) ?_
      rintro code _ ⟨rfl, hcode⟩
      refine .pure ⟨rfl, ?_⟩
      have hlast := RendersCases.default discriminant hcode
      rw [← accessField_empty place] at hlast
      exact hlast
  | cons name t value cases =>
      rw [CaseTrees.switchMeaning] at h
      obtain ⟨hname, h⟩ := Option.ite_none_right_eq_some.mp h
      obtain ⟨value', hvalue, h⟩ := Option.bind_eq_some_iff.mp h
      obtain ⟨ty, hty, h⟩ := Option.bind_eq_some_iff.mp h
      obtain ⟨cs, hcs, rfl⟩ := Option.map_eq_some_iff.mp h
      have hlabel := label_ofText hvalue
      obtain ⟨label, hsome⟩ := Option.isSome_iff_exists.mp (isSome_label_ofText hvalue)
      have hvalue' : value' ≠ .default := by
        rintro rfl
        cases hsome
      rw [CaseTrees.genSwitchText, hplace.accessFieldText, genCases_cons hvalue']
      refine .bind (.lift (P := fun a k' => label = a ∧ k = k') (hlabel.symm.trans hsome)
        ⟨rfl, rfl⟩) ?_
      rintro _ _ ⟨rfl, rfl⟩
      refine .bind (returns_fieldCode hty fun hty =>
        t.emits hty (hplace.field hname) (hassign.accessField name) k) ?_
      rintro code _ ⟨rfl, hcode⟩
      refine .bind (cases.emits_switch discriminant hcs hplace hassign _) ?_
      rintro rest _ ⟨rfl, hrest⟩
      refine .pure ⟨by rw [Cases.draws]; omega, ?_⟩
      exact .case hsome hcode hrest

theorem CaseTrees.emits_chain (cases : CaseTrees) (discriminant : LVal) {cs : Cases} {place : LVal}
    (h : cases.chainMeaning = some cs) (hplace : place.Formed) (hassign : place.Assignable)
    (k : ℕ) :
    Returns (cases.genChainText dir (rnd fn) discriminant.text place.text) k fun code k' =>
      k' = k + cs.draws ∧ RendersChain (IsFunction rnd) code
        (genCases dir rnd fn discriminant cs place k) := by
  cases cases with
  | nil =>
      cases h
      rw [CaseTrees.genChainText]
      exact .pure ⟨rfl, .last .fail⟩
  | default t =>
      obtain ⟨ty, hty, rfl⟩ := Option.map_eq_some_iff.mp h
      rw [CaseTrees.genChainText]
      refine .bind (t.emits hty hplace hassign k) ?_
      rintro code _ ⟨rfl, hcode⟩
      refine .pure ⟨rfl, ?_⟩
      have hlast := RendersChain.last (.seq (renders_reserve (t.getSize_meaning hty)) hcode)
      rw [genCases, caseCode, (isVoid_and_source_meaning hty).1, if_neg Bool.false_ne_true,
        accessField_empty]
      exact hlast
  | cons name t value cases =>
      rw [CaseTrees.chainMeaning] at h
      obtain ⟨hname, h⟩ := Option.ite_none_right_eq_some.mp h
      obtain ⟨ty, hty, h⟩ := Option.bind_eq_some_iff.mp h
      obtain ⟨cs, hcs, rfl⟩ := Option.map_eq_some_iff.mp h
      rw [CaseTrees.genChainText, hplace.accessFieldText, genCases_cons (by simp)]
      refine .bind (returns_fieldCode hty fun hty =>
        t.emits hty (hplace.field hname) (hassign.accessField name) k) ?_
      rintro code _ ⟨rfl, hcode⟩
      refine .bind (cases.emits_chain discriminant hcs hplace hassign _) ?_
      rintro rest _ ⟨rfl, hrest⟩
      refine .pure ⟨by rw [Cases.draws]; omega, ?_⟩
      exact .ifString discriminant value hcode hrest

end

end

/-! ## Functions -/

def functionText (name body : String) : Dir → Bool → String
  | .read, true =>
      s!"int protocol_read_{name}(tick_arena_t* arena, uint8_t* data, int size, " ++
        s!"{name}_t* packet) " ++ "\x7b" ++
        ("(void)arena;int original_size = size;int read_size = 0;(void)read_size;" ++ body ++
          "return original_size - size;") ++
        "\x7d"
  | .read, false =>
      s!"{name}_t protocol_read_{name}(uint8_t* data) " ++ "\x7b" ++
        (s!"{name}_t packet;" ++ body ++ "return packet;") ++ "\x7d"
  | .write, true =>
      s!"int protocol_write_{name}(uint8_t* data, int size, {name}_t* packet) " ++ "\x7b" ++
        ("int original_size = size;int write_size = 0;(void)write_size;" ++ body ++
          "return original_size - size;") ++
        "\x7d"
  | .write, false =>
      s!"void protocol_write_{name}(uint8_t* data, {name}_t* packet) " ++ "\x7b" ++ body ++ "\x7d"

/-- What is beautified for a function. -/
def functionCode (rnd : ℕ → ℕ) (name : String) (t : TypeTree) : Dir → Option String
  | .read => readCode rnd name t
  | .write => writeCode rnd name t

section

variable {rnd : ℕ → ℕ} {name body : String} {t : TypeTree} {k : ℕ}

theorem readCode_eq (h : t.genText .read rnd []
      (if t.isVariable then sourceText t else "(&packet)") 0 = some (body, k)) :
    readCode rnd name t = some (functionText name body .read t.isVariable) := by
  unfold readCode
  dsimp only
  rw [h]
  cases t.isVariable <;> rfl

theorem writeCode_eq (h : t.genText .write rnd [] (sourceText t) 0 = some (body, k)) :
    writeCode rnd name t = some (functionText name body .write t.isVariable) := by
  unfold writeCode
  rw [h]
  cases t.isVariable <;> rfl

end

/-- A type of fixed size that has a reader is a bitfield. -/
theorem bitfield_of_meaning {tree : TypeTree} {t : Ty} (h : tree.meaning [] = some t)
    (hcompiles : t.readerCompiles = true) (hfixed : tree.isVariable = false) :
    ∃ fields fits, tree = .bitfield fields fits := by
  rw [← isVariable_meaning h] at hfixed
  have hsource := (isVoid_and_source_meaning h).2
  cases t with
  | bitfield fields =>
      cases tree with
      | bitfield fields fits => exact ⟨fields, fits, rfl⟩
      | switch name isAbstract compareTo cases =>
          obtain ⟨-, h⟩ := Option.ite_none_left_eq_some.mp h
          obtain ⟨found, -, h⟩ := Option.bind_eq_some_iff.mp h
          obtain ⟨cases', -, h⟩ := Option.map_eq_some_iff.mp h
          cases h
      | container fields =>
          obtain ⟨fields', -, h⟩ := Option.map_eq_some_iff.mp h
          cases h
      | _ => cases hsource
  | _ => cases hcompiles.symm.trans hfixed

def stringTree : TypeTree :=
  TypeTree.typedef "string" (.array (.native "varint" "int32_t" (-1)) (.native "i8" "char" 1))

/-- A string or the number of a string, by a number in front of it. -/
def tagged : TypeTree :=
  .container <| .cons "tag" (.native "varint" "int32_t" (-1)) <|
    .cons "value" (.switch "" false "tag" <|
      .cons "text" stringTree "0" <|
      .cons "number" (.native "u16" "uint16_t" 2) "0x1" <|
      .default .void) .nil

end CmcServer.ProtoDef
