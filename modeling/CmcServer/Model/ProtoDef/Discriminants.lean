import CmcServer.Model.ProtoDef.Beautify

/-! # The discriminants of switches

How `gen_read_code` and `gen_write_code` come from the function of a type to the types inside it,
with the destinations and the parents that they hand on, and the lvalue that a switch compares. -/

namespace CmcServer.ProtoDef

/-! ## Lvalues as text -/

def Root.text : Root → String
  | .packet => "packet"
  | .deref => "(*packet)"
  | .addr => "(&packet)"

def Step.text : Step → String
  | .arrow name => s!"->{name}"
  | .dot name => s!".{name}"
  | .index i => s!"[i{i}]"

def stepsText (root : Root) : List Step → String
  | [] => root.text
  | step :: steps => stepsText root steps ++ step.text

/-- The C expression. -/
def LVal.text (place : LVal) : String := stepsText place.root place.steps

/-! ## The way to a type -/

def FieldTrees.toList : FieldTrees → List (String × TypeTree)
  | .nil => []
  | .cons name t fields => (name, t) :: fields.toList

def CaseTrees.toList : CaseTrees → List (String × TypeTree)
  | .nil => []
  | .default t => [("", t)]
  | .cons name t _ cases => (name, t) :: cases.toList

/-- A call that a method makes for a type inside its own: a field of a container, a field of a
switch, the count or the element of an array, the latter with its loop variable, or the type of an
option. -/
inductive Move where
  | field (name : String)
  | case (name : String)
  | count
  | element (i : ℕ)
  | value
  deriving DecidableEq, Repr

/-- The argument of the call. -/
def Move.destinationText : Move → String → String
  | .field name, place => accessFieldText place name
  | .case name, place => accessFieldText place name
  | .count, place => accessFieldText place "length"
  | .element i, place =>
      let elements := accessFieldText place "elements"
      s!"{elements}[i{i}]"
  | .value, place => accessFieldText place "value"

/-- The types inside a type, each with the containers that `_parent` leads to. Only the `add_field`
of containers and switches sets `_parent`, and a switch has no fields to find. The code of a void
is not asked for. -/
inductive Inside : TypeTree → List FieldTrees → Move → TypeTree → List FieldTrees → Prop
  | field {fields : FieldTrees} {parents : List FieldTrees} {name : String} {t : TypeTree} :
      (name, t) ∈ fields.toList →
        Inside (.container fields) parents (.field name) t (fields :: parents)
  | case {switchName : String} {isAbstract : Bool} {compareTo : String} {cases : CaseTrees}
      {parents : List FieldTrees} {name : String} {t : TypeTree} :
      (name, t) ∈ cases.toList → t.isVoid = false →
        Inside (.switch switchName isAbstract compareTo cases) parents (.case name) t []
  | count {count element : TypeTree} {parents : List FieldTrees} :
      Inside (.array count element) parents .count count []
  | element {count element : TypeTree} {parents : List FieldTrees} {i : ℕ} :
      Inside (.array count element) parents (.element i) element []
  | restElement {element : TypeTree} {parents : List FieldTrees} {i : ℕ} :
      Inside (.restArray element) parents (.element i) element []
  | value {base : TypeTree} {parents : List FieldTrees} :
      Inside (.option base) parents .value base []

/-- Several calls after each other. A typedef ends the way, as its code is another function. -/
inductive Leads : TypeTree → List FieldTrees → List Move → TypeTree → List FieldTrees → Prop
  | refl {t : TypeTree} {parents : List FieldTrees} : Leads t parents [] t parents
  | step {t t' t'' : TypeTree} {parents parents' parents'' : List FieldTrees} {move : Move}
      {moves : List Move} :
      Inside t parents move t' parents' → Leads t' parents' moves t'' parents'' →
        Leads t parents (move :: moves) t'' parents''

/-- The destination at the end of the way. -/
def destinationText (place : String) (moves : List Move) : String :=
  moves.foldl (fun place move => move.destinationText place) place

/-! ## The compared lvalue -/

/-- `access_field(get_parent_field(destination), compare_to_name)`. -/
def discriminantText (parents : List FieldTrees) (compareTo place : String) : Option String := do
  let found ← findField parents compareTo.toList
  return accessFieldText (parentFieldText place) found.1

end CmcServer.ProtoDef
