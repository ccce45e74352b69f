import CmcServer.Model.ProtoDef.Trees
import CmcServer.Lib.RetryQueue

/-! # The base types

`generate_type`, which builds a type tree from the JSON of a type, and the queue in which
`generate_base_types` takes the definitions. -/

namespace CmcServer.ProtoDef

open Runs

/-- `snake_case`, for ASCII characters. -/
def snakeCase (name : String) : String :=
  match name.toList with
  | [] => ""
  | c :: cs =>
      String.ofList (c.toLower ::
        cs.flatMap fun c => if c.isUpper then ['_', c.toLower] else [c])

/-! ## The JSON of types -/

mutual

/-- A type is a name, or a kind with its parameters. The bits of a bitfield pass the assertion of
`get_bytes`. -/
inductive TypeExpr where
  | named (name : String)
  | container (fields : FieldExprs)
  | switch (compareTo : String) (cases : CaseExprs)
  | pstring (countType : TypeExpr)
  | array (countType type : TypeExpr)
  | buffer (countType : TypeExpr)
  | bitfield (fields : List BitField) (fits : (fields.map BitField.size).sum ≤ 64)
  | option (type : TypeExpr)
  | particleData (compareTo : String)
  | entityMetadataLoop

/-- The fields of a container. One without a name is anonymous. -/
inductive FieldExprs where
  | nil
  | cons (name : Option String) (type : TypeExpr) (fields : FieldExprs)

/-- The fields of a switch by the strings that select them, and its default. -/
inductive CaseExprs where
  | nil
  | default (type : TypeExpr)
  | cons (value : String) (type : TypeExpr) (cases : CaseExprs)

end

/-- The entries of `TYPES` when the program starts. -/
def natives : List (String × TypeTree) :=
  [("char", .native "i8" "char" 1),
    ("u8", .native "u8" "uint8_t" 1),
    ("u16", .native "u16" "uint16_t" 2),
    ("i8", .native "i8" "int8_t" 1),
    ("i16", .native "i16" "int16_t" 2),
    ("i32", .native "i32" "int32_t" 4),
    ("i64", .native "i64" "int64_t" 8),
    ("f32", .native "f32" "float" 4),
    ("f64", .native "f64" "double" 8),
    ("bool", .native "bool" "bool" 1),
    ("UUID", .native "uuid" "uuid_t" 16),
    ("varint", .native "varint" "int32_t" (-1)),
    ("varlong", .native "varlong" "int64_t" (-1)),
    ("void", .void),
    ("nbt", .native "nbt" "nbt_t" (-1)),
    ("optionalNbt", .native "nbt" "nbt_t" (-1)),
    ("restBuffer", .restArray (.native "u8" "uint8_t" 1))]

/-! ## `generate_type` -/

/-- The exceptions of `generate_type`. -/
inductive TypeError where
  | notFound (name : String)
  | assertion
  deriving DecidableEq, Repr

section

variable (types : String → Option TypeTree)

/-- `get_type`. -/
def getType (name : String) : Except TypeError TypeTree :=
  match types name with
  | none => .error (.notFound name)
  | some t => .ok t

/-- The instance of `particle_data`, which has to be an abstract switch, that compares with a
field. -/
def particleInstance (compareTo : String) : TypeTree → Except TypeError TypeTree
  | .typedef name (.switch _ true _ cases) =>
      .ok (.switch (name ++ "_t") true (snakeCase compareTo) cases)
  | _ => .error .assertion

/-- The names of the cases of a switch. -/
def caseNames (compareTo : String) (switchNames : List (String × String)) :
    List (String × String) :=
  if compareTo = "positionType" then [("block", "block_position"), ("entity", "entity_id")]
  else switchNames

mutual

/-- `generate_type`. Only the outermost switch gets `switch_names`. -/
def TypeExpr.generateType : TypeExpr → List (String × String) → Except TypeError TypeTree
  | .named name, _ => getType types name
  | .container fields, _ => do
      let fields ← fields.generateType
      return .container fields
  | .switch compareTo cases, switchNames => do
      let cases ← cases.generateType (caseNames compareTo switchNames)
      return .switch "" (snakeCase compareTo = "$compare_to") (snakeCase compareTo) cases
  | .pstring countType, _ => do
      let count ← countType.generateType []
      let char ← getType types "char"
      return .array count char
  | .array countType type, _ => do
      let count ← countType.generateType []
      let element ← type.generateType []
      return .array count element
  | .buffer countType, _ => do
      let count ← countType.generateType []
      let byte ← getType types "u8"
      return .array count byte
  | .bitfield fields fits, _ =>
      return .bitfield (fields.map fun field => { field with name := snakeCase field.name })
        (by simpa [Function.comp_def] using fits)
  | .option type, _ => do
      let base ← type.generateType []
      return .option base
  | .particleData compareTo, _ => do
      let particleData ← getType types "particle_data"
      particleInstance compareTo particleData
  | .entityMetadataLoop, _ => return .native "entity_metadata_loop" "void*" (-1)

def FieldExprs.generateType : FieldExprs → Except TypeError FieldTrees
  | .nil => return .nil
  | .cons name type fields => do
      let t ← type.generateType []
      let fields ← fields.generateType
      return .cons (snakeCase (name.getD "")) t fields

def CaseExprs.generateType (switchNames : List (String × String)) :
    CaseExprs → Except TypeError CaseTrees
  | .nil => return .nil
  | .default type => do
      let t ← type.generateType []
      return .default t
  | .cons value type cases => do
      let t ← type.generateType []
      let cases ← cases.generateType switchNames
      return .cons (snakeCase ((switchNames.lookup value).getD "")) t value cases

end

end

/-! ## `generate_base_types` -/

/-- `typ == 'native'`. -/
def TypeExpr.isNative : TypeExpr → Bool
  | .named name => name = "native"
  | _ => false

/-- The `switch_names` of a definition. -/
def switchNames (name : String) : List (String × String) :=
  if name = "entity_metadata_item" then
    [("0", "byte"), ("1", "varint"), ("2", "float_value"), ("3", "string"), ("4", "chat"),
      ("5", "opt_chat"), ("6", "slot"), ("7", "boolean"), ("8", "rotation"), ("9", "position"),
      ("10", "opt_position"), ("11", "direction"), ("12", "opt_uuid"), ("13", "opt_block_id"),
      ("14", "nbt"), ("15", "particle"), ("16", "villager_data"), ("17", "opt_varint"),
      ("18", "pose")]
  else if name = "particle_data" then
    [("2", "block"), ("3", "block_marker"), ("14", "dust"), ("15", "dust_color_transition"),
      ("24", "falling_dust"), ("35", "item"), ("36", "vibration")]
  else []

/-- The local variables of `generate_base_types` and `TYPES`. `generated` are the definitions that
`generate_definition`, `generate_read` and `generate_write` are called for, which are taken to
return, `reported` the names of the printed lines, and `raised` says that an exception was not
caught. -/
structure BaseTypes where
  queue : List (TypeExpr × String)
  seen : String → Option ℕ
  types : String → Option TypeTree
  generated : List (String × TypeTree)
  reported : List String
  raised : Bool

namespace BaseTypes

/-- The queue in front of the loop. -/
def start (protocolTypes : List (String × TypeExpr)) : BaseTypes where
  queue := protocolTypes.map fun d => (d.2, snakeCase d.1)
  seen := fun _ => none
  types := fun name => natives.lookup name
  generated := []
  reported := []
  raised := false

/-- The value of `seen[name]` for the try that starts. -/
def count (s : BaseTypes) (name : String) : ℕ :=
  match s.seen name with
  | none => 0
  | some n => n + 1

/-- The entries that the loop passes over. -/
def skips (typ : TypeExpr) (name : String) : Bool :=
  typ.isNative || name = "entity_metadata"

/-- One round of the loop. -/
def next (s : BaseTypes) : Option BaseTypes :=
  match s.raised, s.queue with
  | true, _ => none
  | false, [] => none
  | false, (typ, name) :: queue =>
      if skips typ name then some { s with queue }
      else
        let seen := Function.update s.seen name (some (s.count name))
        if s.count name > 2 then some { s with queue, seen, reported := s.reported ++ [name] }
        else
          match typ.generateType s.types (switchNames name) with
          | .error (.notFound _) => some { s with queue := queue ++ [(typ, name)], seen }
          | .error .assertion => some { s with queue, seen, raised := true }
          | .ok t =>
              some { s with
                queue, seen,
                types := Function.update s.types name (some (.typedef name t))
                generated := s.generated ++ [(name, t)] }

/-! ## The loop ends

A name that comes up for the fourth time leaves the queue. -/

/-- What the entries of the queue have left. -/
def left (s : BaseTypes) : ℕ := RetryQueue.left 3 s.count (s.queue.map Prod.snd)

/-- The numbers of tries after a try. -/
theorem count_update (s t : BaseTypes) (name : String)
    (h : t.seen = Function.update s.seen name (some (s.count name))) :
    t.count = Function.update s.count name (s.count name + 1) := by
  funext other
  by_cases hother : other = name
  · subst hother
    simp [count, h]
  · simp [count, h, hother]

theorem next_decreases (s t : BaseTypes) (h : s.next = some t) : t.left < s.left := by
  unfold next at h
  split at h
  · cases h
  · cases h
  · rename_i typ name queue _ hqueue
    have hpop : ∀ t : BaseTypes, t.seen = Function.update s.seen name (some (s.count name)) →
        t.queue = queue → t.left < s.left := by
      intro t hseen ht
      rw [left, left, count_update s t name hseen, ht, hqueue]
      exact RetryQueue.left_pop 3 s.count name (queue.map Prod.snd)
    split at h
    · cases h
      rw [left, left, hqueue]
      exact RetryQueue.left_cons 3 s.count name (queue.map Prod.snd)
    · dsimp only at h
      split at h
      · cases h
        exact hpop _ rfl rfl
      · split at h <;> cases h
        · rw [left, left, count_update s _ name rfl, hqueue]
          simp only [List.map_append, List.map_cons, List.map_nil]
          exact RetryQueue.left_requeue (by omega) _
        · exact hpop _ rfl rfl
        · exact hpop _ rfl rfl

end BaseTypes

/-- `generate_base_types`. -/
def generateBaseTypes (protocolTypes : List (String × TypeExpr)) : BaseTypes :=
  finish BaseTypes.next BaseTypes.left BaseTypes.next_decreases (BaseTypes.start protocolTypes)

end CmcServer.ProtoDef
