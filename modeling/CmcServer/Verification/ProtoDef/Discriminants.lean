import CmcServer.Verification.ProtoDef.Destinations
import CmcServer.Verification.ProtoDef.Calls

/-! # The discriminants of switches

`find_field` looks a discriminant up in a container of the type tree, and the generators address it
by cutting one component off their destination. The two agree if the way from the container to the
switch adds one component to the destination. -/

namespace CmcServer.ProtoDef

/-! ## Finding a field -/

def upwards (up : ℕ) : List Char := (List.replicate up ['.', '.', '/']).flatten

theorem findField_upwards (fields : FieldTrees) (parents : List FieldTrees) (up : ℕ)
    (name : List Char) :
    findField (fields :: parents) (upwards (up + 1) ++ name) =
      findField parents (upwards up ++ name) := by
  rw [upwards, List.replicate_succ, List.flatten_cons]
  rfl

/-- `find_field` fails if there are not enough containers. -/
theorem findField_none {parents : List FieldTrees} {up : ℕ} (h : parents.length ≤ up)
    (name : List Char) : findField parents (upwards up ++ name) = none := by
  induction parents generalizing up with
  | nil => rw [findField]
  | cons fields parents ih =>
      cases up with
      | zero => cases h
      | succ up => rw [findField_upwards, ih (Nat.le_of_succ_le_succ h)]

/-- Otherwise it looks in one of them. -/
theorem findField_some {pushed : List FieldTrees} (fields : FieldTrees)
    (parents : List FieldTrees) {name : String} (hname : IsName name) :
    findField (pushed ++ fields :: parents) (upwards pushed.length ++ name.toList) =
      fields.find name := by
  induction pushed with
  | nil =>
      have hup : ∀ cs, name.toList ≠ '.' :: '.' :: '/' :: cs := by
        intro cs heq
        have hdot : '.' ∈ name.toList := by simp [heq]
        exact hname.not_mem rfl hdot
      simp only [upwards, List.length_nil, List.replicate_zero, List.flatten_nil, List.nil_append]
      rw [findField]
      · rw [String.ofList_toList]
      · exact hup
  | cons other pushed ih =>
      rw [List.cons_append, List.length_cons, findField_upwards, ih]

section

variable {t t' : TypeTree} {parents parents' : List FieldTrees} {moves : List Move}

/-- A container hands itself on, anything else hands on nothing. -/
theorem Inside.parents_eq {move : Move} (h : Inside t parents move t' parents') :
    (move.isField = true ∧ ∃ fields, parents' = fields :: parents) ∨
      (move.isField = false ∧ parents' = []) := by
  cases h with
  | @field fields => exact Or.inl ⟨rfl, fields, rfl⟩
  | _ => exact Or.inr ⟨rfl, rfl⟩

/-- On a way of fields each container is handed on. -/
theorem Leads.pushed (h : Leads t parents moves t' parents') (hfields : OfFields moves) :
    ∃ pushed, parents' = pushed ++ parents ∧ pushed.length = moves.length := by
  induction h with
  | refl => exact ⟨[], rfl, rfl⟩
  | @step _ _ _ _ _ _ move moves hinside _ ih =>
      obtain ⟨pushed, rfl, hlength⟩ := ih hfields.tail
      rcases hinside.parents_eq with ⟨-, fields, rfl⟩ | ⟨hother, -⟩
      · exact ⟨pushed ++ [fields], by simp, by simp [hlength]⟩
      · rw [hfields move List.mem_cons_self] at hother
        cases hother

/-- On any other way the containers in front of its last other move are lost. -/
theorem Leads.length_le (h : Leads t parents moves t' parents') :
    OfFields moves ∨ parents'.length ≤ moves.countP Move.isField := by
  induction h with
  | refl => exact Or.inl fun move hmove => by cases hmove
  | @step _ _ _ _ _ _ move moves hinside hrest ih =>
      have hcount : moves.countP Move.isField ≤ (move :: moves).countP Move.isField :=
        (List.sublist_cons_self move moves).countP_le
      rcases ih with hfields | hle
      · rcases hinside.parents_eq with ⟨hfield, -⟩ | ⟨-, rfl⟩
        · exact Or.inl (List.forall_mem_cons.mpr ⟨hfield, hfields⟩)
        · obtain ⟨pushed, rfl, hlength⟩ := hrest.pushed hfields
          rw [List.append_nil, hlength, ← List.countP_eq_length.mpr hfields]
          exact Or.inr hcount
      · exact Or.inr (hle.trans hcount)

/-- A way from a container to a switch starts with a field. -/
theorem Leads.container {fields : FieldTrees} {name compareTo : String} {isAbstract : Bool}
    {cases : CaseTrees}
    (h : Leads (.container fields) parents moves (.switch name isAbstract compareTo cases)
      parents') :
    ∃ move rest t, moves = move :: rest ∧ move.isField = true ∧
      Leads t (fields :: parents) rest (.switch name isAbstract compareTo cases) parents' := by
  cases h with
  | @step _ t _ _ _ _ move rest hinside hrest =>
      cases hinside with
      | field => exact ⟨_, rest, t, rfl, rfl, hrest⟩

theorem Leads.append {t'' : TypeTree} {parents'' : List FieldTrees} {moves' : List Move}
    (h : Leads t parents moves t' parents') (h' : Leads t' parents' moves' t'' parents'') :
    Leads t parents (moves ++ moves') t'' parents'' := by
  induction h with
  | refl => exact h'
  | step hinside _ ih => exact .step hinside (ih h')

end

/-! ## Switches -/

/-- A switch inside a type and one of the containers around it, which has the field that the
`compareTo` of the switch names. A `../` stands for each container between the two, and names are
C identifiers. -/
structure Position where
  root : TypeTree
  outer : List Move
  fields : FieldTrees
  parents : List FieldTrees
  inner : List Move
  switchName : String
  isAbstract : Bool
  compareTo : String
  cases : CaseTrees
  switchParents : List FieldTrees
  up : ℕ
  name : String
  outer_leads : Leads root [] outer (.container fields) parents
  inner_leads : Leads (.container fields) parents inner
    (.switch switchName isAbstract compareTo cases) switchParents
  levels : inner.countP Move.isField = up + 1
  compares : compareTo.toList = upwards up ++ name.toList
  found : (fields.find name).isSome = true
  named : ∀ move ∈ outer ++ inner, move.Named
  isName : IsName name

def Denotes (env : Env) (text : String) (l : Loc) : Prop :=
  ∃ place : LVal, place.Named ∧ place.text = text ∧ place.loc env = l

/-- The code of a switch compares the lvalue, in a `switch` statement or in a chain of
comparisons. -/
def Compares (dir : Dir) (rnd : ℕ → ℕ) (cases : CaseTrees) (place lvalue code : String) : Prop :=
  (∃ body, code = s!"switch ({lvalue}) " ++ body) ∨
    ∃ k k', cases.genChainText dir rnd lvalue place k = some (code, k')

theorem denotes_iff {place : LVal} (h : place.Named) {env : Env} {l : Loc} :
    Denotes env place.text l ↔ place.loc env = l := by
  constructor
  · rintro ⟨place', hnamed, htext, hloc⟩
    rw [← LVal.text_injective hnamed h htext, hloc]
  · exact fun hloc => ⟨place, h, rfl, hloc⟩

theorem find_name {fields : FieldTrees} {name : String} {found : String × TypeTree}
    (h : fields.find name = some found) : found.1 = name := by
  cases fields with
  | nil => cases h
  | cons field t fields =>
      rw [FieldTrees.find] at h
      split at h
      · cases h
        assumption
      · exact find_name h

theorem yields_compares {dir : Dir} {rnd : ℕ → ℕ} {name compareTo place lvalue : String}
    {isAbstract : Bool} {cases : CaseTrees} {parents : List FieldTrees}
    (h : discriminantText parents compareTo place = some lvalue) :
    Yields ((TypeTree.switch name isAbstract compareTo cases).genText dir rnd parents place)
      (Compares dir rnd cases place lvalue) := by
  rw [TypeTree.genText]
  refine .ite (fun _ => .failure) fun _ => ?_
  refine .bind (.lift fun found hfound => hfound) fun found hfound => ?_
  change findField parents compareTo.toList = some found at hfound
  have hlvalue : accessFieldText (parentFieldText place) found.1 = lvalue := by
    rw [discriminantText, hfound] at h
    exact Option.some.inj h
  rw [hlvalue]
  refine .ite (fun _ s code s' hcode => Or.inr ⟨s, s', hcode⟩) fun _ => ?_
  refine .bind .trivial fun code _ => .pure (Or.inl ⟨"\x7b" ++ code ++ "\x7d\n", ?_⟩)
  simp only [String.append_assoc]

namespace Position

variable (p : Position)

def switch : TypeTree := .switch p.switchName p.isAbstract p.compareTo p.cases

/-- The generators call the method of the switch, with the variables drawn for the loops. -/
theorem calls (dir : Dir) (rnd : ℕ → ℕ) :
    Yields (p.root.genText dir rnd [] (sourceText p.root))
      (CallsInto dir rnd p.switchParents (sourceText p.root) (p.outer ++ p.inner) p.switch) :=
  (p.outer_leads.append p.inner_leads).calls dir rnd (sourceText p.root)

/-- The argument of the call for the switch. -/
def destination : String := destinationText (sourceText p.root) (p.outer ++ p.inner)

/-- The code of the switch compares an lvalue, in readers and in writers, and the lvalue denotes the
field of the container around it. -/
def Resolves : Prop :=
  ∃ lvalue, discriminantText p.switchParents p.compareTo p.destination = some lvalue ∧
    (∀ dir rnd, Yields (p.switch.genText dir rnd p.switchParents p.destination)
      (Compares dir rnd p.cases p.destination lvalue)) ∧
    ∀ env round, Denotes (enterAll round (.start env) (p.outer ++ p.inner)).env lvalue
      ((enterAll round (.start env) p.outer).place.sub p.name)

/-- The way from the container to the switch goes through fields of containers only. One of these
fields has a name, or none has and the container is the packet itself. The loops around the
container have different loop variables. -/
structure Direct : Prop where
  fields : OfFields p.inner
  cut : p.inner.countP Move.isNamed = 1 ∨
    (p.inner.countP Move.isNamed = 0 ∧ ∀ move ∈ p.outer, move.isNamed = false)
  distinct : (p.outer.filterMap Move.loopVariable).Nodup

variable {p}

/-- `find_field` gets from the switch to the container, or fails. -/
theorem findField_eq : findField p.switchParents p.compareTo.toList =
    if OfFields p.inner then p.fields.find p.name else none := by
  obtain ⟨move, rest, t, hinner, hmove, hrest⟩ := p.inner_leads.container
  have hlevels : rest.countP Move.isField = p.up := by
    have h := p.levels
    rw [hinner, List.countP_cons_of_pos hmove] at h
    exact Nat.succ_injective h
  rw [p.compares]
  split
  · rename_i hfields
    rw [hinner] at hfields
    have hfields' : OfFields rest := hfields.tail
    obtain ⟨pushed, hparents, hlength⟩ := hrest.pushed hfields'
    rw [← hlevels, List.countP_eq_length.mpr hfields', ← hlength, hparents]
    exact findField_some p.fields p.parents p.isName
  · rename_i hother
    rcases hrest.length_le with hfields | hle
    · exact absurd (hinner ▸ List.forall_mem_cons.mpr ⟨hmove, hfields⟩) hother
    · exact findField_none (hlevels ▸ hle) _

theorem discriminantText_eq : discriminantText p.switchParents p.compareTo p.destination =
    if OfFields p.inner then
      some (accessField (getParentField
        (destinationOf (destinationOf p.root.source p.outer) p.inner)) p.name).text
    else none := by
  have hformed := formed_destinationOf (formed_source p.root) p.named
  have hdestination : p.destination = (destinationOf p.root.source (p.outer ++ p.inner)).text := by
    rw [destination, ← text_source, text_destinationOf (formed_source p.root) p.named]
  rw [discriminantText, findField_eq, hdestination, hformed.parentFieldText]
  split
  · obtain ⟨found, hfound⟩ := Option.isSome_iff_exists.mp p.found
    rw [hfound, ← destinationOf_append, ← hformed.parent.accessFieldText, ← find_name hfound]
    rfl
  · rfl

theorem resolves_of_direct (h : p.Direct) : p.Resolves := by
  have hcut : getParentField (destinationOf (destinationOf p.root.source p.outer) p.inner) =
      destinationOf p.root.source p.outer := by
    refine getParentField_eq h.fields (h.cut.imp_right fun hbare => ⟨hbare.1, ?_⟩)
    have hsteps := (steps_destinationOf p.root.source p.outer).2.mpr hbare.2
    rw [steps_source] at hsteps
    exact List.length_eq_zero_iff.mp hsteps
  have houter : ∀ move ∈ p.outer, move.Named := fun m hm => p.named m (List.mem_append_left _ hm)
  have hlvalue := discriminantText_eq (p := p)
  rw [if_pos h.fields, hcut] at hlvalue
  refine ⟨_, hlvalue, fun dir rnd => yields_compares hlvalue, fun env round => ?_⟩
  rw [denotes_iff ((formed_destinationOf (formed_source p.root) houter).field p.isName).named,
    enterAll_append, env_enterAll round h.fields, loc_accessField,
    (loc_destinationOf_iff (steps_source p.root) p.outer).mpr h.distinct env round]

theorem direct_of_resolves (h : p.Resolves) : p.Direct := by
  obtain ⟨lvalue, hlvalue, -, hdenotes⟩ := h
  rw [discriminantText_eq] at hlvalue
  split at hlvalue
  · rename_i hfields
    cases hlvalue
    have hformed := formed_destinationOf (formed_source p.root) p.named
    rw [destinationOf_append] at hformed
    have hloc : ∀ env round,
        (getParentField (destinationOf (destinationOf p.root.source p.outer) p.inner)).loc
          (enterAll round (.start env) p.outer).env =
          (enterAll round (.start env) p.outer).place := by
      intro env round
      have h := hdenotes env round
      rw [denotes_iff (hformed.parent.field p.isName).named, enterAll_append,
        env_enterAll round hfields, loc_accessField] at h
      exact Loc.sub_left_inj.mp h
    have hsteps : (getParentField (destinationOf (destinationOf p.root.source p.outer)
        p.inner)).steps.length = (destinationOf p.root.source p.outer).steps.length := by
      have hlength := congrArg List.length (hloc ⟨[], fun _ => 0⟩ id)
      have houter := length_enterAll id (.start ⟨[], fun _ => 0⟩) p.root.source p.outer
      rw [LVal.loc, length_locOfSteps, packet_enterAll] at hlength
      rw [steps_source] at houter
      simp only [Frame.start, List.length_nil] at hlength houter
      omega
    have hcut := (steps_getParentField_eq hfields).mp hsteps
    simp only [getParentField_eq hfields hcut] at hloc
    refine ⟨hfields, hcut.imp_right fun hbare => ⟨hbare.1, ?_⟩, ?_⟩
    · rw [← (steps_destinationOf p.root.source p.outer).2, hbare.2, steps_source]
    · exact (loc_destinationOf_iff (steps_source p.root) p.outer).mp hloc
  · cases hlvalue

end Position

/-- A switch finds its discriminant exactly if one component stands between its destination and
the container, and every loop around the container has a variable of its own. -/
theorem discriminant_resolves_iff (p : Position) : p.Resolves ↔ p.Direct :=
  ⟨Position.direct_of_resolves, Position.resolves_of_direct⟩

def flaggedFields : FieldTrees :=
  .cons "f" (.native "varint" "int32_t" (-1))
    (.cons "" (.switch "" false "f" (.cons "" .void "0" .nil)) .nil)

/-- The container of the switch stands at `packet->a`, where the switch stands as well. -/
def flaggedSwitch : Position where
  root := .container (.cons "a" (.container flaggedFields) .nil)
  outer := [.field "a"]
  fields := flaggedFields
  parents := [.cons "a" (.container flaggedFields) .nil]
  inner := [.field ""]
  switchName := ""
  isAbstract := false
  compareTo := "f"
  cases := .cons "" .void "0" .nil
  switchParents := [flaggedFields, .cons "a" (.container flaggedFields) .nil]
  up := 0
  name := "f"
  outer_leads := .step (.field (by simp [FieldTrees.toList])) .refl
  inner_leads := .step (.field (by simp [FieldTrees.toList, flaggedFields])) .refl
  levels := rfl
  compares := rfl
  found := rfl
  named := by decide
  isName := by decide

/-- The name of a player in `packet_player_info`. -/
def playerFields : FieldTrees :=
  .cons "name" (.switch "" false "../action"
    (.cons "" (.native "varint" "int32_t" (-1)) "0" (.default .void))) .nil

def playerInfoFields : FieldTrees :=
  .cons "action" (.native "varint" "int32_t" (-1))
    (.cons "data" (.array (.native "varint" "int32_t" (-1)) (.container playerFields)) .nil)

/-- The switch stands in an element of an array, the container that it names around the array. -/
def playerName : Position where
  root := .container playerInfoFields
  outer := []
  fields := playerInfoFields
  parents := []
  inner := [.field "data", .element 0, .field "name"]
  switchName := ""
  isAbstract := false
  compareTo := "../action"
  cases := .cons "" (.native "varint" "int32_t" (-1)) "0" (.default .void)
  switchParents := [playerFields]
  up := 1
  name := "action"
  outer_leads := .refl
  inner_leads := .step (.field (by simp [FieldTrees.toList, playerInfoFields]; rfl)) <|
    .step .element <| .step (.field (by simp [FieldTrees.toList, playerFields])) .refl
  levels := rfl
  compares := rfl
  found := rfl
  named := by decide
  isName := by decide

theorem discriminant_misses : ¬ flaggedSwitch.Resolves ∧ ¬ playerName.Resolves := by
  constructor
  · intro h
    exact absurd (Position.direct_of_resolves h).cut (by decide)
  · intro h
    exact absurd (Position.direct_of_resolves h).fields (by decide)

end CmcServer.ProtoDef
