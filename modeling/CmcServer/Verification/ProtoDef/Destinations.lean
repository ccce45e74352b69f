import CmcServer.Verification.ProtoDef.LvalueTexts

/-! # Destinations

The lvalue that the generators hand on to a type inside another, what `get_parent_field` leaves of
it, and the value that it denotes. -/

namespace CmcServer.ProtoDef

/-! ## Destinations -/

namespace Move

def isNamed : Move → Bool
  | .field name => name ≠ ""
  | .case name => name ≠ ""
  | _ => true

def isField : Move → Bool
  | .field _ => true
  | _ => false

def loopVariable : Move → Option ℕ
  | .element i => some i
  | _ => none

/-- Its name is a C identifier. -/
def Named : Move → Prop
  | .field name => IsName name
  | .case name => IsName name
  | _ => True

instance : DecidablePred Named
  | .field name => inferInstanceAs (Decidable (IsName name))
  | .case name => inferInstanceAs (Decidable (IsName name))
  | .count | .element _ | .value => .isTrue trivial

/-- The lvalue whose text is the argument of the call. -/
def destination : Move → LVal → LVal
  | .field name, place => accessField place name
  | .case name, place => accessField place name
  | .count, place => accessField place "length"
  | .element i, place => (accessField place "elements").at i
  | .value, place => accessField place "value"

end Move

def destinationOf (place : LVal) (moves : List Move) : LVal :=
  moves.foldl (fun place move => move.destination place) place

/-- The parameter of the function of a type. -/
def TypeTree.source : TypeTree → LVal
  | .switch _ _ _ _ | .container _ | .bitfield _ _ => ⟨.packet, []⟩
  | _ => ⟨.deref, []⟩

theorem text_source (t : TypeTree) : t.source.text = sourceText t := by
  cases t <;> rfl

theorem formed_source (t : TypeTree) : t.source.Formed := by
  cases t <;> exact .root _

theorem steps_source (t : TypeTree) : t.source.steps = [] := by
  cases t <;> rfl

theorem steps_accessField (place : LVal) {name : String} (hname : name ≠ "") :
    (accessField place name).steps.length = place.steps.length + 1 := by
  rw [accessField, if_neg hname]
  split <;> rfl

section

variable {place : LVal} {move : Move}

theorem formed_destination (h : place.Formed) (hmove : move.Named) :
    (move.destination place).Formed := by
  cases move with
  | field name => exact .field h hmove
  | case name => exact .field h hmove
  | count => exact .field h (by decide)
  | element i =>
      refine .element (.field h (by decide)) ?_
      rw [← List.length_pos_iff, steps_accessField place (by decide)]
      exact Nat.succ_pos _
  | value => exact .field h (by decide)

theorem text_destination (h : place.Formed) (move : Move) :
    move.destinationText place.text = (move.destination place).text := by
  cases move with
  | field name => exact h.accessFieldText name
  | case name => exact h.accessFieldText name
  | count => exact h.accessFieldText "length"
  | element i =>
      rw [Move.destinationText]
      simp only [h.accessFieldText]
      refine String.toList_injective ?_
      simp [Move.destination, LVal.at, LVal.text, stepsText, index_text, toString]
  | value => exact h.accessFieldText "value"

theorem steps_destination (place : LVal) (move : Move) :
    place.steps.length ≤ (move.destination place).steps.length ∧
      ((move.destination place).steps.length = place.steps.length ↔ move.isNamed = false) := by
  have hfield : ∀ name, place.steps.length ≤ (accessField place name).steps.length ∧
      ((accessField place name).steps.length = place.steps.length ↔
        decide (name ≠ "") = false) := by
    intro name
    by_cases hname : name = ""
    · simp [hname, accessField_empty]
    · simp [hname, steps_accessField]
  cases move with
  | field name => exact hfield name
  | case name => exact hfield name
  | count => simp [Move.destination, Move.isNamed, steps_accessField]
  | element i => simp [Move.destination, Move.isNamed, LVal.at, steps_accessField, Nat.add_assoc]
  | value => simp [Move.destination, Move.isNamed, steps_accessField]

end

section

variable {place : LVal} {moves : List Move}

theorem formed_destinationOf (h : place.Formed) (hmoves : ∀ move ∈ moves, move.Named) :
    (destinationOf place moves).Formed := by
  induction moves generalizing place with
  | nil => exact h
  | cons move moves ih =>
      exact ih (formed_destination h (hmoves move List.mem_cons_self))
        fun m hm => hmoves m (List.mem_cons_of_mem move hm)

/-- The destinations of the generators are the texts of lvalues. -/
theorem text_destinationOf (h : place.Formed) (hmoves : ∀ move ∈ moves, move.Named) :
    destinationText place.text moves = (destinationOf place moves).text := by
  induction moves generalizing place with
  | nil => rfl
  | cons move moves ih =>
      rw [destinationText, List.foldl_cons, text_destination h]
      exact ih (formed_destination h (hmoves move List.mem_cons_self))
        fun m hm => hmoves m (List.mem_cons_of_mem move hm)

theorem destinationOf_cons (place : LVal) (move : Move) (moves : List Move) :
    destinationOf place (move :: moves) = destinationOf (move.destination place) moves := rfl

theorem destinationOf_append (place : LVal) (moves moves' : List Move) :
    destinationOf place (moves ++ moves') = destinationOf (destinationOf place moves) moves' :=
  List.foldl_append

theorem steps_destinationOf (place : LVal) (moves : List Move) :
    place.steps.length ≤ (destinationOf place moves).steps.length ∧
      ((destinationOf place moves).steps.length = place.steps.length ↔
        ∀ move ∈ moves, move.isNamed = false) := by
  induction moves generalizing place with
  | nil => simp [destinationOf]
  | cons move moves ih =>
      obtain ⟨hmove, hmoveEq⟩ := steps_destination place move
      obtain ⟨hmoves, hmovesEq⟩ := ih (move.destination place)
      rw [destinationOf_cons, List.forall_mem_cons, ← hmoveEq, ← hmovesEq]
      omega

/-! ## Ways of fields -/

/-- A way that only goes through fields of containers. -/
def OfFields (moves : List Move) : Prop := ∀ move ∈ moves, move.isField = true

instance (moves : List Move) : Decidable (OfFields moves) :=
  inferInstanceAs (Decidable (∀ move ∈ moves, move.isField = true))

theorem OfFields.tail {move : Move} (h : OfFields (move :: moves)) : OfFields moves :=
  fun m hm => h m (List.mem_cons_of_mem move hm)

/-- A field has no name or adds a selection. -/
@[elab_as_elim]
theorem OfFields.induction {motive : LVal → (moves : List Move) → OfFields moves → Prop}
    (nil : ∀ place h, motive place [] h)
    (anonymous : ∀ place moves (hrest : OfFields moves) h, motive place moves hrest →
      motive place (.field "" :: moves) h)
    (named : ∀ place name moves (hrest : OfFields moves) h, name ≠ "" →
      motive (accessField place name) moves hrest → motive place (.field name :: moves) h)
    (place : LVal) (moves : List Move) (h : OfFields moves) : motive place moves h := by
  induction moves generalizing place with
  | nil => exact nil place h
  | cons move moves ih =>
      have hrest : OfFields moves := h.tail
      have hmove : move.isField = true := h move List.mem_cons_self
      cases move with
      | field name =>
          by_cases hname : name = ""
          · subst hname
            exact anonymous place moves hrest h (ih place hrest)
          · exact named place name moves hrest h hname (ih (accessField place name) hrest)
      | _ => cases hmove

theorem destinationOf_anonymous (place : LVal) (moves : List Move) :
    destinationOf place (.field "" :: moves) = destinationOf place moves := by
  rw [destinationOf_cons, Move.destination, accessField_empty]

theorem destinationOf_named (place : LVal) (name : String) (moves : List Move) :
    destinationOf place (.field name :: moves) = destinationOf (accessField place name) moves := rfl

theorem countP_named {name : String} (hname : name ≠ "") (moves : List Move) :
    (Move.field name :: moves).countP Move.isNamed = moves.countP Move.isNamed + 1 := by
  simp [Move.isNamed, hname]

theorem countP_anonymous (moves : List Move) :
    (Move.field "" :: moves).countP Move.isNamed = moves.countP Move.isNamed := by
  simp [Move.isNamed]

/-- Without a name on the way the destination of the container is kept. -/
theorem destinationOf_unnamed (hfields : OfFields moves)
    (hnone : moves.countP Move.isNamed = 0) : destinationOf place moves = place := by
  induction place, moves, hfields using OfFields.induction with
  | nil => rfl
  | anonymous place moves _ _ ih =>
      rw [countP_anonymous] at hnone
      rw [destinationOf_anonymous, ih hnone]
  | named place name moves _ _ hname _ =>
      rw [countP_named hname] at hnone
      cases hnone

/-- The only name on the way is cut off. -/
theorem getParentField_destinationOf (hfields : OfFields moves)
    (hone : moves.countP Move.isNamed = 1) :
    getParentField (destinationOf place moves) = place := by
  induction place, moves, hfields using OfFields.induction with
  | nil => cases hone
  | anonymous place moves _ _ ih =>
      rw [countP_anonymous] at hone
      rw [destinationOf_anonymous, ih hone]
  | named place name moves hrest _ hname _ =>
      rw [countP_named hname] at hone
      rw [destinationOf_named, destinationOf_unnamed hrest (Nat.succ_injective hone),
        getParentField_accessField place hname]

/-- Only the last name on the way is cut off. -/
theorem steps_getParentField (hfields : OfFields moves) (hsome : 0 < moves.countP Move.isNamed) :
    (getParentField (destinationOf place moves)).steps.length + 1 =
      place.steps.length + moves.countP Move.isNamed := by
  induction place, moves, hfields using OfFields.induction with
  | nil => cases hsome
  | anonymous place moves _ _ ih =>
      rw [countP_anonymous] at hsome ⊢
      rw [destinationOf_anonymous, ih hsome]
  | named place name moves hrest hfields hname ih =>
      rcases Nat.eq_zero_or_pos (moves.countP Move.isNamed) with hnone | hmore
      · have hone : (Move.field name :: moves).countP Move.isNamed = 1 := by
          rw [countP_named hname, hnone]
        rw [getParentField_destinationOf hfields hone, hone]
      · rw [destinationOf_named, ih hmore, steps_accessField place hname, countP_named hname]
        omega

theorem getParentField_steps_lt {place : LVal} (h : place.steps ≠ []) :
    (getParentField place).steps.length < place.steps.length := by
  have hdrop := List.length_dropWhile_le (fun step => !Step.isDot step) place.steps
  have hpos := List.length_pos_iff.mpr h
  rw [getParentField, List.length_tail]
  omega

/-- What `get_parent_field` leaves has as many selections as the destination of the container
exactly if it cuts one name off, or has nothing to cut off. -/
theorem steps_getParentField_eq (hfields : OfFields moves) :
    (getParentField (destinationOf place moves)).steps.length = place.steps.length ↔
      moves.countP Move.isNamed = 1 ∨ (moves.countP Move.isNamed = 0 ∧ place.steps = []) := by
  rcases Nat.eq_zero_or_pos (moves.countP Move.isNamed) with hnone | hsome
  · rw [destinationOf_unnamed hfields hnone, hnone]
    constructor
    · intro h
      by_contra hne
      have hsteps : place.steps ≠ [] := fun hsteps => hne (Or.inr ⟨rfl, hsteps⟩)
      exact absurd h (getParentField_steps_lt hsteps).ne
    · rintro (h | ⟨-, h⟩)
      · cases h
      · simp [getParentField, h]
  · have hsteps : (getParentField (destinationOf place moves)).steps.length + 1 =
        place.steps.length + moves.countP Move.isNamed := steps_getParentField hfields hsome
    omega

theorem getParentField_eq (hfields : OfFields moves)
    (h : moves.countP Move.isNamed = 1 ∨ (moves.countP Move.isNamed = 0 ∧ place.steps = [])) :
    getParentField (destinationOf place moves) = place := by
  rcases h with hone | ⟨hnone, hsteps⟩
  · exact getParentField_destinationOf hfields hone
  · rw [destinationOf_unnamed hfields hnone, getParentField, hsteps]
    obtain ⟨root, steps⟩ := place
    exact congrArg (LVal.mk root) hsteps.symm

end

/-! ## Values -/

/-- The value that some code is about: the values of the loop variables, its place and the number of
loops around it. -/
structure Frame where
  env : Env
  place : Loc
  depth : ℕ

section

variable (round : ℕ → ℕ)

/-- The value that the code of a call is about. The loop inside `n` others is in round `round n`. -/
def Move.enter : Move → Frame → Frame
  | .field name, frame => { frame with place := frame.place.sub name }
  | .case name, frame => { frame with place := frame.place.sub name }
  | .count, frame => { frame with place := frame.place.sub "length" }
  | .element i, frame =>
      { env := frame.env.bind i (round frame.depth)
        place := .index (round frame.depth) :: frame.place.sub "elements"
        depth := frame.depth + 1 }
  | .value, frame => { frame with place := frame.place.sub "value" }

def enterAll (frame : Frame) (moves : List Move) : Frame :=
  moves.foldl (fun frame move => move.enter round frame) frame

theorem enterAll_append (frame : Frame) (moves moves' : List Move) :
    enterAll round frame (moves ++ moves') = enterAll round (enterAll round frame moves) moves' :=
  List.foldl_append

/-- No loops stand between a container and what is in its fields. -/
theorem env_enterAll {moves : List Move} (h : OfFields moves) (frame : Frame) :
    (enterAll round frame moves).env = frame.env := by
  induction moves generalizing frame with
  | nil => rfl
  | cons move moves ih =>
      have hrest : OfFields moves := h.tail
      have hmove : move.isField = true := h move List.mem_cons_self
      cases move with
      | field name => exact ih hrest _
      | _ => cases hmove

end

/-! ## Loop variables -/

/-- With different loop variables a destination denotes the value. -/
theorem loc_destinationOf (round : ℕ → ℕ) {moves : List Move} {place : LVal} {used : List ℕ}
    {frame : Frame} (huses : place.Uses used) (hplace : place.loc frame.env = frame.place)
    (hfresh : ∀ i ∈ moves.filterMap Move.loopVariable, i ∉ used)
    (hnodup : (moves.filterMap Move.loopVariable).Nodup) :
    (destinationOf place moves).loc (enterAll round frame moves).env =
      (enterAll round frame moves).place := by
  induction moves generalizing place used frame with
  | nil => exact hplace
  | cons move moves ih =>
      have hfield : ∀ name, (accessField place name).loc frame.env = frame.place.sub name :=
        fun name => by rw [loc_accessField, hplace]
      cases move with
      | field name => exact ih (huses.accessField name) (hfield name) hfresh hnodup
      | case name => exact ih (huses.accessField name) (hfield name) hfresh hnodup
      | count => exact ih (huses.accessField "length") (hfield "length") hfresh hnodup
      | value => exact ih (huses.accessField "value") (hfield "value") hfresh hnodup
      | element i =>
          have hvariables : (Move.element i :: moves).filterMap Move.loopVariable =
              i :: moves.filterMap Move.loopVariable := rfl
          rw [hvariables] at hfresh hnodup
          have hi : i ∉ used := hfresh i List.mem_cons_self
          have helements := huses.accessField "elements"
          obtain ⟨hother, hnodup⟩ := List.nodup_cons.mp hnodup
          refine ih (helements.at i) ?_ ?_ hnodup
          · change ((accessField place "elements").at i).loc
                (frame.env.bind i (round frame.depth)) =
              .index (round frame.depth) :: frame.place.sub "elements"
            rw [loc_at, LVal.loc_bind helements hi, hfield "elements"]
            simp [Env.bind]
          · intro j hj
            rw [List.mem_cons, not_or]
            exact ⟨fun hji => hother (hji ▸ hj), hfresh j (List.mem_cons_of_mem i hj)⟩

def indicesOf : Loc → List ℤ
  | [] => []
  | .field _ :: l => indicesOf l
  | .index i :: l => i :: indicesOf l

def Step.loopVariable : Step → Option ℕ
  | .index i => some i
  | _ => none

theorem indicesOf_sub (l : Loc) (name : String) : indicesOf (l.sub name) = indicesOf l := by
  rw [Loc.sub]
  split <;> rfl

theorem indicesOf_loc (env : Env) (steps : List Step) :
    indicesOf (locOfSteps env steps) =
      (steps.filterMap Step.loopVariable).map env.index ++ indicesOf env.packet := by
  induction steps with
  | nil => rfl
  | cons step steps ih =>
      cases step with
      | arrow name => exact ih
      | dot name => exact ih
      | index i => exact congrArg (env.index i :: ·) ih

theorem loopVariables_accessField (place : LVal) (name : String) :
    (accessField place name).steps.filterMap Step.loopVariable =
      place.steps.filterMap Step.loopVariable := by
  rw [accessField]
  split
  · rfl
  · split <;> rfl

theorem loopVariables_destinationOf (place : LVal) (moves : List Move) :
    (destinationOf place moves).steps.filterMap Step.loopVariable =
      (moves.filterMap Move.loopVariable).reverse ++ place.steps.filterMap Step.loopVariable := by
  induction moves generalizing place with
  | nil => rfl
  | cons move moves ih =>
      rw [destinationOf_cons, ih]
      cases move with
      | element i =>
          have hat : ((accessField place "elements").at i).steps.filterMap Step.loopVariable =
              i :: (accessField place "elements").steps.filterMap Step.loopVariable := rfl
          rw [Move.destination, hat, loopVariables_accessField]
          simp [Move.loopVariable]
      | field name => exact congrArg _ (loopVariables_accessField place name)
      | case name => exact congrArg _ (loopVariables_accessField place name)
      | count => exact congrArg _ (loopVariables_accessField place "length")
      | value => exact congrArg _ (loopVariables_accessField place "value")

/-- The indices are different and below the number of loops. -/
structure Frame.Numbered (frame : Frame) : Prop where
  nodup : (indicesOf frame.place).Nodup
  lt : ∀ j ∈ indicesOf frame.place, j < frame.depth

theorem Frame.Numbered.sub {frame : Frame} (h : frame.Numbered) (name : String) :
    Frame.Numbered { frame with place := frame.place.sub name } where
  nodup := by
    rw [indicesOf_sub]
    exact h.nodup
  lt := by
    rw [indicesOf_sub]
    exact h.lt

/-- If each loop is in the round that says how many loops are around it, it adds a new index. -/
theorem Frame.Numbered.enter {frame : Frame} (h : frame.Numbered) (move : Move) :
    (move.enter id frame).Numbered := by
  cases move with
  | field name => exact h.sub name
  | case name => exact h.sub name
  | count => exact h.sub "length"
  | value => exact h.sub "value"
  | element i =>
      have helements := h.sub "elements"
      constructor
      · refine List.nodup_cons.mpr ⟨fun hmem => ?_, helements.nodup⟩
        exact absurd (helements.lt _ hmem) (lt_irrefl _)
      · intro j hj
        change j < ((frame.depth + 1 : ℕ) : ℤ)
        rcases List.mem_cons.mp hj with rfl | hj
        · exact Int.ofNat_lt.mpr frame.depth.lt_succ_self
        · exact (helements.lt j hj).trans (Int.ofNat_lt.mpr frame.depth.lt_succ_self)

theorem Frame.Numbered.enterAll {frame : Frame} (h : frame.Numbered) (moves : List Move) :
    (ProtoDef.enterAll id frame moves).Numbered := by
  induction moves generalizing frame with
  | nil => exact h
  | cons move moves ih => exact ih (h.enter move)

def Frame.start (env : Env) : Frame := ⟨env, env.packet, 0⟩

theorem packet_enterAll (round : ℕ → ℕ) (frame : Frame) (moves : List Move) :
    (enterAll round frame moves).env.packet = frame.env.packet := by
  induction moves generalizing frame with
  | nil => rfl
  | cons move moves ih =>
      rw [enterAll, List.foldl_cons]
      refine (ih _).trans ?_
      cases move <;> rfl

/-- The destination of a type denotes the value exactly if the loops around the type have different
loop variables. -/
theorem loc_destinationOf_iff {place : LVal} (hsteps : place.steps = []) (moves : List Move) :
    (∀ env round, (destinationOf place moves).loc (enterAll round (.start env) moves).env =
        (enterAll round (.start env) moves).place) ↔
      (moves.filterMap Move.loopVariable).Nodup := by
  constructor
  · intro h
    have hplace := congrArg indicesOf (h ⟨[], fun _ => 0⟩ id)
    have hstart : (Frame.start ⟨[], fun _ => 0⟩).Numbered :=
      ⟨List.nodup_nil, fun j hj => by cases hj⟩
    have hnumbered := (hstart.enterAll moves).nodup
    rw [← hplace, LVal.loc, indicesOf_loc, loopVariables_destinationOf, hsteps,
      packet_enterAll] at hnumbered
    have hnodup := (List.nodup_append.mp hnumbered).1.of_map
    simpa using hnodup
  · intro hnodup env round
    have huses : place.Uses [] := by
      intro i hi
      rw [hsteps] at hi
      cases hi
    refine loc_destinationOf round huses ?_ (fun i _ => List.not_mem_nil) hnodup
    rw [LVal.loc, hsteps]
    rfl

theorem Loc.sub_left_inj {l l' : Loc} {name : String} : l.sub name = l'.sub name ↔ l = l' := by
  unfold Loc.sub
  split <;> simp

theorem length_locOfSteps (env : Env) (steps : List Step) :
    (locOfSteps env steps).length = steps.length + env.packet.length := by
  induction steps with
  | nil => simp [locOfSteps]
  | cons step steps ih => cases step <;> simp only [locOfSteps, List.length_cons, ih] <;> omega

theorem length_sub (l : Loc) (place : LVal) (name : String) :
    (l.sub name).length + place.steps.length =
      l.length + (accessField place name).steps.length := by
  by_cases hname : name = ""
  · simp [hname, Loc.sub, accessField_empty]
  · rw [Loc.sub_of_ne hname, steps_accessField place hname, List.length_cons]
    omega

theorem length_enterAll (round : ℕ → ℕ) (frame : Frame) (place : LVal) (moves : List Move) :
    (enterAll round frame moves).place.length + place.steps.length =
      frame.place.length + (destinationOf place moves).steps.length := by
  induction moves generalizing frame place with
  | nil => rfl
  | cons move moves ih =>
      have hmoves := ih (move.enter round frame) (move.destination place)
      have hmove : (move.enter round frame).place.length + place.steps.length =
          frame.place.length + (move.destination place).steps.length := by
        cases move with
        | element i =>
            have helements := length_sub frame.place place "elements"
            simp only [Move.enter, Move.destination, LVal.at, List.length_cons]
            omega
        | field name => exact length_sub frame.place place name
        | case name => exact length_sub frame.place place name
        | count => exact length_sub frame.place place "length"
        | value => exact length_sub frame.place place "value"
      simp only [enterAll, destinationOf, List.foldl_cons] at hmoves ⊢
      omega

end CmcServer.ProtoDef
