import CmcServer.Lib.Yields
import CmcServer.Verification.ProtoDef.Endings

/-! # How the generated code ends

The ending of the code of a type is a function of its tree: only an option leaves its closing brace
at the end of a line. -/

namespace CmcServer.ProtoDef

/-! ## Trees -/

mutual

/-- There are no braces in the names of a tree. -/
def TypeTree.Plain : TypeTree → Prop
  | .typedef name _ => Flat name
  | .native name ctype _ => Flat name ∧ Flat ctype
  | .void => True
  | .switch name _ _ cases => Flat name ∧ cases.Plain
  | .container fields => fields.Plain
  | .array count element => count.Plain ∧ element.Plain
  | .restArray element => element.Plain
  | .bitfield fields _ => ∀ field ∈ fields, Flat field.name
  | .option base => base.Plain

def FieldTrees.Plain : FieldTrees → Prop
  | .nil => True
  | .cons name t fields => Flat name ∧ t.Plain ∧ fields.Plain

def CaseTrees.Plain : CaseTrees → Prop
  | .nil => True
  | .default t => t.Plain
  | .cons name t value cases => Flat name ∧ t.Plain ∧ Flat value ∧ cases.Plain

end

mutual

/-- The ending of the code of a type. The elements of an array and the cases of a switch stand in
braces, an option ends with one. -/
def TypeTree.ending : TypeTree → Ending
  | .typedef _ _ => .newLine
  | .native _ _ _ => .newLine
  | .void => .nothing
  | .switch _ _ _ cases => cases.ending
  | .container fields => fields.ending
  | .array count element => (count.ending.seq element.ending.closed).closed
  | .restArray element => element.ending.closed
  | .bitfield _ _ => .newLine
  | .option _ => .midLine

def FieldTrees.ending : FieldTrees → Ending
  | .nil => .nothing
  | .cons _ t fields => t.ending.seq fields.ending

def CaseTrees.ending : CaseTrees → Ending
  | .nil => .newLine
  | .default t => t.ending.closed
  | .cons _ t _ cases => t.ending.closed.seq cases.ending

end

example : (TypeTree.array (.native "varint" "int32_t" (-1))
    (.option (.native "u8" "uint8_t" 1))).ending = .lost := rfl

/-! ## Names -/

theorem flat_of_subset {s : String} (hs : Flat s) {l : List Char} (h : l ⊆ s.toList) :
    Flat (String.ofList l) :=
  flat_ofList (List.all_eq_true.mpr fun _ hc => hs _ (h hc))

theorem beforeArrow_subset (l : List Char) : beforeArrow l ⊆ l := by
  fun_induction beforeArrow l with
  | case1 => simp
  | case2 => simp
  | case3 c cs _ ih => exact List.cons_subset_cons c ih

theorem beforeLastDot_subset (l : List Char) : beforeLastDot l ⊆ l := by
  intro c hc
  have hmem := List.mem_of_mem_tail (List.mem_reverse.mp hc)
  exact List.mem_reverse.mp ((List.dropWhile_sublist _).subset hmem)

theorem flat_parentFieldText {name : String} (h : Flat name) : Flat (parentFieldText name) := by
  rw [parentFieldText]
  split
  · exact flat_of_subset h (beforeLastDot_subset _)
  · exact flat_of_subset h (beforeArrow_subset _)

theorem flat_accessFieldText {source name : String} (hsource : Flat source) (hname : Flat name) :
    Flat (accessFieldText source name) := by
  rw [accessFieldText]
  split
  · exact hsource
  split
  · exact hsource.lit rfl |>.append hname
  · exact hsource.lit rfl |>.append hname

theorem flat_find {fields : FieldTrees} (h : fields.Plain) {name : String}
    {found : String × TypeTree} (hfound : fields.find name = some found) : Flat found.1 := by
  cases fields with
  | nil => cases hfound
  | cons field t fields =>
      obtain ⟨hname, _, hfields⟩ := h
      rw [FieldTrees.find] at hfound
      split at hfound
      · rw [← Option.some.inj hfound]
        exact hname
      · exact flat_find hfields hfound

theorem flat_findField {parents : List FieldTrees} (h : ∀ fields ∈ parents, fields.Plain)
    {name : List Char} {found : String × TypeTree} (hfound : findField parents name = some found) :
    Flat found.1 := by
  fun_induction findField parents name with
  | case1 => cases hfound
  | case2 fields parents name ih =>
      apply ih _ hfound
      intro parent hparent
      exact h parent (List.mem_cons_of_mem _ hparent)
  | case3 fields parents name _ => exact flat_find (h fields (by simp)) hfound

theorem flat_cValueForType {value : String} {t : TypeTree} {c : String}
    (h : cValueForType value t = some c) : Flat c := by
  cases t with
  | native name ctype size =>
      rw [cValueForType] at h
      split at h
      · obtain ⟨n, _, rfl⟩ := Option.map_eq_some_iff.mp h
        exact flat_int n
      split at h
      · split at h
        · rw [← Option.some.inj h]
          exact flat_ofList rfl
        split at h
        · rw [← Option.some.inj h]
          exact flat_ofList rfl
        · cases h
      · cases h
  | _ => simp [cValueForType] at h

theorem flat_hex (n : ℕ) : Flat (hex n) := .append (flat_ofList rfl) (flat_digits (by decide) n)

/-! ## Statements -/

section

variable {dir : Dir} {name arguments place length elements : String} {size : ℤ}

theorem line_variableCall (hname : Flat name) (harguments : Flat arguments) :
    Line (variableCall dir name arguments) := by
  cases dir with
  | read =>
      exact (flat_ofList rfl).append hname |>.lit rfl |>.append harguments |>.lit rfl
        |>.lit rfl |>.lit rfl |>.line rfl rfl
  | write =>
      exact (flat_ofList rfl).append hname |>.lit rfl |>.append harguments |>.lit rfl
        |>.lit rfl |>.lit rfl |>.line rfl rfl

theorem line_nativeText (hname : Flat name) (hplace : Flat place) :
    Line (nativeText dir name size place) := by
  simp only [nativeText]
  split
  · exact line_variableCall hname ((flat_ofList rfl).append hplace)
  · exact line_variableCall hname ((flat_ofList rfl).append hplace)
  · exact hplace.lit rfl |>.append hname |>.lit rfl |>.append (flat_int size) |>.line rfl rfl
  · exact (flat_ofList rfl).append hname |>.lit rfl |>.append hplace |>.lit rfl
      |>.append (flat_int size) |>.line rfl rfl

theorem line_typedefText (hname : Flat name) (hplace : Flat place) :
    Line (typedefText dir name size place) := by
  simp only [typedefText]
  split
  · exact line_variableCall hname ((flat_ofList rfl).append hplace)
  · exact line_variableCall hname ((flat_ofList rfl).append hplace)
  · exact hplace.lit rfl |>.append hname |>.lit rfl |>.append (flat_int size) |>.line rfl rfl
  · exact (flat_ofList rfl).append hname |>.lit rfl |>.append hplace |>.lit rfl
      |>.append (flat_int size) |>.line rfl rfl

theorem tidy_reserveText (size : ℤ) : Tidy (reserveText size) := by
  rw [reserveText]
  split
  · exact tidy_empty
  · exact (flat_ofList rfl).append (flat_int size) |>.lit rfl |>.append (flat_int size)
      |>.line rfl rfl |>.tidy

theorem tidy_reserveCountText (size : ℤ) : Tidy (reserveCountText size) := by
  rw [reserveCountText]
  split
  · exact tidy_empty
  · exact (flat_ofList rfl).append (flat_int size) |>.lit rfl |>.append (flat_int size)
      |>.line rfl rfl |>.tidy

theorem tidy_reserveElementsText (size : ℤ) (hlength : Flat length) :
    Tidy (reserveElementsText length size) := by
  rw [reserveElementsText]
  split
  · exact tidy_empty
  · exact (flat_ofList rfl).append hlength |>.lit rfl |>.append (flat_int size) |>.lit rfl
      |>.append hlength |>.lit rfl |>.append (flat_int size) |>.line rfl rfl |>.tidy

theorem tidy_allocText (dir : Dir) (hlength : Flat length) (helements : Flat elements) :
    Tidy (allocText dir length elements) := by
  cases dir with
  | read =>
      have hcheck : Line s!"if ({elements} == NULL) return -1;" :=
        (flat_ofList rfl).append helements |>.line rfl rfl
      refine (hcheck.after ?_).tidy
      exact helements.lit rfl |>.append hlength |>.lit rfl |>.append helements |>.lit rfl
  | write => exact tidy_empty

theorem tidy_restText (dir : Dir) (size : ℤ) (hlength : Flat length) :
    Tidy (restText dir length size) := by
  cases dir with
  | read =>
      exact hlength.lit rfl |>.append (flat_int size) |>.lit rfl |>.append hlength
        |>.line rfl rfl |>.tidy
  | write => exact tidy_reserveElementsText size hlength

theorem flat_element (helements : Flat elements) (i : ℕ) : Flat s!"{elements}[i{i}]" :=
  helements.lit rfl |>.append (flat_nat i) |>.lit rfl

theorem ends_elementsText (i : ℕ) (hlength : Flat length) {code : String} {e : Ending}
    (hcode : Ends e code) : Ends e.closed (elementsText i length code) := by
  have hhead : Flat s!"for (int i{i} = 0; i{i} < {length}; i{i}++)" :=
    (flat_ofList rfl).append (flat_nat i) |>.lit rfl |>.append (flat_nat i) |>.lit rfl
      |>.append hlength |>.lit rfl |>.append (flat_nat i) |>.lit rfl
  exact hcode.closed hhead closer_semicolon

theorem line_bitFieldText (bits offset : ℕ) {source mask : String} (hsource : Flat source)
    (hmask : Flat mask) : Line (bitFieldText dir bits offset source mask) := by
  cases dir with
  | read =>
      have hline : Line s!" = (packed_value >> {offset}) & {mask};" :=
        (flat_ofList rfl).append (flat_nat offset) |>.lit rfl |>.append hmask |>.line rfl rfl
      exact hline.after hsource
  | write =>
      exact (flat_ofList rfl).append (flat_nat bits) |>.lit rfl |>.append hsource |>.lit rfl
        |>.append hmask |>.lit rfl |>.append (flat_nat offset) |>.line rfl rfl

theorem tidy_bitFieldsText (dir : Dir) (bits : ℕ) (hplace : Flat place) {fields : List BitField}
    (hfields : ∀ field ∈ fields, Flat field.name) (offset : ℕ) :
    Tidy (bitFieldsText dir bits place offset fields) := by
  induction fields generalizing offset with
  | nil => exact tidy_empty
  | cons field fields ih =>
      have hsource := flat_accessFieldText hplace (hfields field (by simp))
      have hrest := ih (fun other h => hfields other (by simp [h])) (offset + field.size)
      rw [bitFieldsText]
      exact (line_bitFieldText bits offset hsource (flat_hex _)).tidy.append hrest

theorem ends_bitfieldText (bits : ℕ) (hplace : Flat place) {fields : List BitField}
    (hfields : ∀ field ∈ fields, Flat field.name) :
    Ends .newLine (bitfieldText dir bits size fields place) := by
  have hfields := tidy_bitFieldsText dir bits hplace hfields 0
  cases dir with
  | read =>
      have hvalue : Flat s!"uint{bits}_t packed_value = protocol_read_u{bits}(data);" :=
        (flat_ofList rfl).append (flat_nat bits) |>.lit rfl |>.append (flat_nat bits) |>.lit rfl
      have hdata : Line s!"data += {size};" :=
        (flat_ofList rfl).append (flat_int size) |>.line rfl rfl
      exact ((hdata.after hvalue).tidy.append hfields).closed flat_empty closer_semicolon
  | write =>
      have hvalue : Line s!"uint{bits}_t packed_value = 0;" :=
        (flat_ofList rfl).append (flat_nat bits) |>.line rfl rfl
      have hdata : Line s!"protocol_write_u{bits}(data, packed_value);data += {size};" :=
        (flat_ofList rfl).append (flat_nat bits) |>.lit rfl |>.append (flat_int size)
          |>.line rfl rfl
      exact ((hvalue.tidy.append hfields).append hdata.tidy).closed flat_empty closer_semicolon

theorem ends_optionText {present : String} (hpresent : Flat present) :
    Ends .midLine (optionText dir size present) := by
  have hhead : Flat s!"if ({present}) " := (flat_ofList rfl).append hpresent |>.lit rfl
  have hblock : Ends .midLine (s!"if ({present}) " ++ "\x7b" ++ reserveText size ++ "\x7d") := by
    cases tidy_reserveText size with
    | inl h => exact h.block hhead
    | inr h => exact h.block hhead
  refine ends_append (kept_of_flat ?_ 1) hblock (by decide)
  cases dir with
  | read => exact (flat_ofList rfl).append (hpresent.lit rfl) |>.lit rfl
  | write =>
      exact (flat_ofList rfl).append ((flat_ofList rfl).append hpresent |>.lit rfl) |>.lit rfl

theorem tidy_openRunText (run : Option ℤ) (total : ℤ) : Tidy (openRunText run total) := by
  cases run with
  | none => exact (flat_ofList rfl).append (flat_int total) |>.line rfl rfl |>.tidy
  | some _ => exact tidy_empty

theorem ends_caseText {value code : String} (hvalue : Flat value) {e : Ending}
    (hcode : Ends e code) : Ends e.closed (caseText value size code) :=
  (tidy_reserveText _).closed_append hcode ((flat_ofList rfl).append hvalue |>.lit rfl) closer_break

theorem ends_chainText {discriminant value code : String} (hdiscriminant : Flat discriminant)
    (hvalue : Flat value) {e : Ending} (hcode : Ends e code) :
    Ends e.closed (chainText discriminant value size code) := by
  have hlength : Flat s!"if ({discriminant}.length == {value.length} && " :=
    (flat_ofList rfl).append hdiscriminant |>.lit rfl |>.append (flat_nat _) |>.lit rfl
  have hcompare : Flat s!"strncmp(\"{value}\", {discriminant}.elements, {value.length}) == 0) " :=
    (flat_ofList rfl).append hvalue |>.lit rfl |>.append hdiscriminant |>.lit rfl
      |>.append (flat_nat _) |>.lit rfl
  exact (tidy_reserveText _).closed_append hcode (hlength.append hcompare) closer_newline

end

/-! ## Types of fixed size -/

theorem FieldTrees.getSize_nonpos (fields : FieldTrees) {size : ℤ} (h : size ≤ 0) :
    fields.getSize size ≤ 0 := by
  cases fields with
  | nil => exact h
  | cons name t fields =>
      have hnext : (if isVariableSize t.getSize then -1 else size) ≤ 0 := by
        split
        · decide
        · exact h
      rw [FieldTrees.getSize]
      simp only [show isVariableSize _ = true from decide_eq_true hnext, if_true]
      exact fields.getSize_nonpos hnext

theorem CaseTrees.getSize_nonpos (cases : CaseTrees) {size : ℤ} (h : size ≤ 0) :
    cases.getSize size ≤ 0 := by
  have hnext : ∀ t : TypeTree, (if isVariableSize t.getSize then -1 else size) ≤ 0 := by
    intro t
    split
    · decide
    · exact h
  cases cases with
  | nil => exact h
  | default t =>
      rw [CaseTrees.getSize]
      simp only [show isVariableSize _ = true from decide_eq_true (hnext t), if_true]
      exact hnext t
  | cons name t value cases =>
      rw [CaseTrees.getSize]
      simp only [show isVariableSize _ = true from decide_eq_true (hnext t), if_true]
      exact cases.getSize_nonpos (hnext t)

theorem TypeTree.ending_of_fixed {t : TypeTree} (h : t.isVariable = false) :
    t.ending = .newLine := by
  cases t with
  | typedef name base => rfl
  | native name ctype size => rfl
  | void => cases h
  | switch name isAbstract compareTo cases =>
      have hsize : cases.getSize 0 ≤ 0 := cases.getSize_nonpos le_rfl
      simp [TypeTree.isVariable, TypeTree.getSize, isVariableSize, hsize] at h
  | container fields =>
      have hsize : fields.getSize 0 ≤ 0 := fields.getSize_nonpos le_rfl
      simp [TypeTree.isVariable, TypeTree.getSize, isVariableSize, hsize] at h
  | array count element => simp [TypeTree.isVariable, TypeTree.getSize, isVariableSize] at h
  | restArray element => simp [TypeTree.isVariable, TypeTree.getSize, isVariableSize] at h
  | bitfield fields fits => rfl
  | option base => simp [TypeTree.isVariable, TypeTree.getSize, isVariableSize] at h

/-! ## Trees -/

def runEnding : Option ℤ → Ending
  | none => .nothing
  | some _ => .newLine

theorem runEnding_seq (run : Option ℤ) : (runEnding run).seq .newLine = .newLine := by
  cases run <;> rfl

theorem ends_closeRunText (run : Option ℤ) : Ends (runEnding run) (closeRunText run) := by
  cases run with
  | none => exact ends_empty
  | some total =>
      have hline : Line s!"size -= {total};" :=
        (flat_ofList rfl).append (flat_int total) |>.line rfl rfl
      exact ends_line hline

theorem CaseTrees.ending_eq (cases : CaseTrees) :
    cases.ending = .newLine ∨ cases.ending = .lost := by
  cases cases with
  | nil => exact .inl rfl
  | default t =>
      rw [CaseTrees.ending]
      cases t.ending <;> decide
  | cons name t value cases =>
      rw [CaseTrees.ending]
      obtain h | h := cases.ending_eq
      · rw [h]
        cases t.ending <;> decide
      · rw [h]
        cases t.ending <;> decide

theorem CaseTrees.closed_ending (cases : CaseTrees) : cases.ending.closed = cases.ending := by
  obtain h | h := cases.ending_eq
  · rw [h]
    rfl
  · rw [h]
    rfl

section

variable {dir : Dir} {rnd : ℕ → ℕ}

theorem yields_fieldCode {t : TypeTree} {code : Gen String} (h : Yields code (Ends t.ending)) :
    Yields (fieldCode t code) (Ends t.ending) := by
  rw [fieldCode]
  refine .ite (fun hvoid => .pure ?_) fun _ => h
  cases t with
  | void => exact ends_empty
  | _ => cases hvoid

mutual

/-- The code of a type ends as its tree says. -/
theorem TypeTree.genText_ends (t : TypeTree) (ht : t.Plain) {parents : List FieldTrees}
    (hparents : ∀ fields ∈ parents, fields.Plain) {place : String} (hplace : Flat place) :
    Yields (t.genText dir rnd parents place) (Ends t.ending) := by
  cases t with
  | typedef name base =>
      rw [TypeTree.genText]
      exact .pure (ends_line (line_typedefText ht hplace))
  | native name ctype size =>
      rw [TypeTree.genText]
      exact .pure (ends_line (line_nativeText ht.1 hplace))
  | void =>
      rw [TypeTree.genText]
      exact .failure
  | switch name isAbstract compareTo cases =>
      rw [TypeTree.genText]
      refine .ite (fun _ => .failure) fun _ => ?_
      refine .bind (.lift fun found h => flat_findField hparents h) fun found hfound => ?_
      have hdiscriminant := flat_accessFieldText (flat_parentFieldText hplace) hfound
      refine .ite (fun _ => cases.genChainText_ends ht.2 hdiscriminant hplace) fun _ => ?_
      refine .bind (cases.genSwitchText_ends ht.2 hplace) fun code hcode => .pure ?_
      have hhead : ∀ d, Flat d → Flat s!"switch ({d}) " := fun d hd =>
        (flat_ofList rfl).append hd |>.lit rfl
      rw [TypeTree.ending, ← cases.closed_ending]
      exact hcode.closed (hhead _ hdiscriminant) closer_newline
  | container fields =>
      rw [TypeTree.genText]
      have hparents' : ∀ other ∈ fields :: parents, other.Plain := by
        intro other hother
        obtain rfl | hother := List.mem_cons.mp hother
        · exact ht
        · exact hparents other hother
      have hfields := fields.genText_ends ht none hparents' hplace
      rw [runEnding, Ending.nothing_seq] at hfields
      exact hfields
  | array count element =>
      have hlength : Flat (accessFieldText place "length") :=
        flat_accessFieldText hplace (flat_ofList rfl)
      have helements : Flat (accessFieldText place "elements") :=
        flat_accessFieldText hplace (flat_ofList rfl)
      rw [TypeTree.genText]
      refine .bind (count.genText_ends ht.1 (by simp) hlength) fun countCode hcount => ?_
      refine .bind .trivial fun i _ => ?_
      refine .bind (element.genText_ends ht.2 (by simp) (flat_element helements i))
        fun code hcode => .pure ?_
      have hloop := ends_elementsText i hlength hcode
      have hrest := (tidy_reserveElementsText element.getSize hlength).append
        (tidy_allocText dir hlength helements)
      have hinner := (tidy_reserveCountText count.getSize).seq hcount hrest hloop
        element.ending.closed_ne_nothing
      exact hinner.closed flat_empty closer_semicolon
  | restArray element =>
      have hlength : Flat (accessFieldText place "length") :=
        flat_accessFieldText hplace (flat_ofList rfl)
      have helements : Flat (accessFieldText place "elements") :=
        flat_accessFieldText hplace (flat_ofList rfl)
      rw [TypeTree.genText]
      refine .bind .trivial fun i _ => ?_
      refine .bind (element.genText_ends ht (by simp) (flat_element helements i))
        fun code hcode => .pure ?_
      have hloop := ends_elementsText i hlength hcode
      have hrest := (tidy_restText dir element.getSize hlength).append
        (tidy_allocText dir hlength helements)
      have hinner := ends_append hrest.kept hloop element.ending.closed_ne_nothing
      rw [TypeTree.ending, ← element.ending.closed_closed]
      exact hinner.closed flat_empty closer_semicolon
  | bitfield fields fits =>
      rw [TypeTree.genText]
      exact .pure (ends_bitfieldText _ hplace ht)
  | option base =>
      rw [TypeTree.genText]
      refine .bind .trivial fun _ _ => .pure ?_
      exact ends_optionText (flat_accessFieldText hplace (flat_ofList rfl))

theorem FieldTrees.genText_ends (fields : FieldTrees) (hfields : fields.Plain) (run : Option ℤ)
    {parents : List FieldTrees} (hparents : ∀ fields ∈ parents, fields.Plain) {place : String}
    (hplace : Flat place) :
    Yields (fields.genText dir rnd run parents place)
      (Ends ((runEnding run).seq fields.ending)) := by
  cases fields with
  | nil =>
      rw [FieldTrees.genText]
      rw [FieldTrees.ending, Ending.seq_nothing]
      exact .pure (ends_closeRunText run)
  | cons name t fields =>
      obtain ⟨hname, ht, hfields⟩ := hfields
      rw [FieldTrees.genText]
      refine .bind (t.genText_ends ht hparents (flat_accessFieldText hplace hname))
        fun code hcode => ?_
      refine .ite (fun _ => ?_) fun hfixed => ?_
      · refine .bind (fields.genText_ends hfields none hparents hplace) fun rest hrest => .pure ?_
        rw [FieldTrees.ending, ← Ending.seq_assoc]
        rw [runEnding, Ending.nothing_seq] at hrest
        exact ((ends_closeRunText run).seq hcode).seq hrest
      · refine .bind (fields.genText_ends hfields _ hparents hplace) fun rest hrest => .pure ?_
        rw [t.ending_of_fixed (by simpa using hfixed)] at hcode
        have hopen := ends_append
          (tidy_openRunText run (run.getD (FieldTrees.cons name t fields).fixedTotal)).kept hcode
          (by decide)
        have hall := hopen.seq hrest
        rw [FieldTrees.ending, t.ending_of_fixed (by simpa using hfixed), ← Ending.seq_assoc,
          runEnding_seq]
        rw [← Ending.seq_assoc] at hall
        exact hall

theorem CaseTrees.genSwitchText_ends (cases : CaseTrees) (hcases : cases.Plain)
    {compareToType : TypeTree} {place : String} (hplace : Flat place) :
    Yields (cases.genSwitchText dir rnd compareToType place) (Ends cases.ending) := by
  cases cases with
  | nil =>
      rw [CaseTrees.genSwitchText]
      have hfail : Line "return -1;" := line_ofList rfl rfl
      exact .pure (hfail.tidy.closed (flat_ofList rfl) closer_break)
  | default t =>
      rw [CaseTrees.genSwitchText]
      refine .bind (yields_fieldCode (t.genText_ends hcases (by simp) hplace))
        fun code hcode => .pure ?_
      exact (tidy_reserveText _).closed_append hcode (flat_ofList rfl) closer_break
  | cons name t value cases =>
      obtain ⟨hname, ht, _, hcases⟩ := hcases
      rw [CaseTrees.genSwitchText]
      refine .bind (.lift fun value h => flat_cValueForType h) fun value hvalue => ?_
      have hplace' := flat_accessFieldText hplace hname
      refine .bind (yields_fieldCode (t.genText_ends ht (by simp) hplace')) fun code hcode => ?_
      refine .bind (cases.genSwitchText_ends hcases hplace) fun rest hrest => .pure ?_
      exact (ends_caseText hvalue hcode).seq hrest

theorem CaseTrees.genChainText_ends (cases : CaseTrees) (hcases : cases.Plain)
    {discriminant place : String} (hdiscriminant : Flat discriminant) (hplace : Flat place) :
    Yields (cases.genChainText dir rnd discriminant place) (Ends cases.ending) := by
  cases cases with
  | nil =>
      rw [CaseTrees.genChainText]
      have hfail : Line "return -1;" := line_ofList rfl rfl
      exact .pure (hfail.tidy.closed flat_empty closer_newline)
  | default t =>
      rw [CaseTrees.genChainText]
      refine .bind (t.genText_ends hcases (by simp) hplace) fun code hcode => .pure ?_
      exact (tidy_reserveText _).closed_append hcode flat_empty closer_newline
  | cons name t value cases =>
      obtain ⟨hname, ht, hvalue, hcases⟩ := hcases
      rw [CaseTrees.genChainText]
      have hplace' := flat_accessFieldText hplace hname
      refine .bind (yields_fieldCode (t.genText_ends ht (by simp) hplace')) fun code hcode => ?_
      refine .bind (cases.genChainText_ends hcases hdiscriminant hplace) fun rest hrest => .pure ?_
      have hne : cases.ending ≠ .nothing := by
        obtain h | h := cases.ending_eq <;> rw [h] <;> decide
      have helse : Flat "else " := flat_ofList rfl
      exact (ends_chainText hdiscriminant hvalue hcode).seq
        (ends_append (kept_of_flat helse 1) hrest hne)

end

end

end CmcServer.ProtoDef
