import CmcServer.Model.ProtoDef.Semantics

/-! # Sizes, emitted lvalues and the places they denote -/

namespace CmcServer.ProtoDef

/-! ## Sizes -/

theorem getBytes_pos (bits : ℕ) : 0 < getBytes bits := by
  unfold getBytes
  split
  · decide
  · split
    · decide
    · split <;> decide

theorem Ty.getSize_pos {t : Ty} (h : t.isVariable = false) : 0 < t.getSize := by
  rw [Ty.isVariable, isVariableSize, decide_eq_false_iff_not] at h
  omega

theorem native_size_pos {n : Native} (h : (Ty.native n).isVariable = false) : 0 < n.size :=
  Ty.getSize_pos h

theorem bitfield_ne_nil {fields : List BitField} (h : (Ty.bitfield fields).isVariable = false) :
    fields ≠ [] := by
  rintro rfl
  simp [Ty.isVariable, Ty.getSize, isVariableSize] at h

theorem bitfield_getSize {fields : List BitField} (h : fields ≠ []) :
    (Ty.bitfield fields).getSize = bitsSize fields := by
  cases fields with
  | nil => exact absurd rfl h
  | cons field fields => rfl

theorem bitfield_fixed {fields : List BitField} (h : fields ≠ []) :
    (Ty.bitfield fields).isVariable = false := by
  have hpos := getBytes_pos (fields.map BitField.size).sum
  rw [Ty.isVariable, bitfield_getSize h, isVariableSize, bitsSize, decide_eq_false_iff_not]
  omega

/-- A type of fixed size is a number, a bitfield or a typedef of a type of fixed size. -/
@[elab_as_elim]
theorem Ty.fixed_induction {motive : (t : Ty) → t.isVariable = false → Prop}
    (native : ∀ n h, motive (.native n) h)
    (typedef : ∀ name base (hbase : base.isVariable = false) h,
      motive base hbase → motive (.typedef name base) h)
    (bitfield : ∀ fields h, motive (.bitfield fields) h) (t : Ty) (h : t.isVariable = false) :
    motive t h := by
  cases t with
  | native n => exact native n h
  | typedef name base =>
      have hbase : base.isVariable = false := by simpa using h
      exact typedef name base hbase h (base.fixed_induction native typedef bitfield hbase)
  | bitfield fields => exact bitfield fields h
  | void => simp at h
  | container fields => simp at h
  | «switch» up compareTo cases => simp at h
  | array count element => simp at h
  | rest element => simp at h
  | option base => simp at h

/-! ## Places -/

theorem Loc.suffix_sub (l : Loc) (name : String) : l <:+ l.sub name := by
  rw [Loc.sub]
  split
  · exact List.suffix_refl l
  · exact List.suffix_cons _ l

theorem Loc.sub_of_ne {name : String} (h : name ≠ "") (l : Loc) :
    l.sub name = .field name :: l := if_neg h

theorem Loc.sub_inj {l : Loc} {a b : String} : l.sub a = l.sub b ↔ a = b := by
  unfold Loc.sub
  by_cases ha : a = "" <;> by_cases hb : b = "" <;> simp [ha, hb, Ne.symm]

theorem cons_suffix_unique {x y : Sel} {l p : Loc} (hx : x :: l <:+ p) (hy : y :: l <:+ p) :
    x = y := by
  have h := List.suffix_of_suffix_length_le hx hy (by simp)
  have heq := List.IsSuffix.eq_of_length h (by simp)
  exact (List.cons.inj heq).1

theorem unpack_of_not_mem {l p : Loc} {fields : List BitField}
    (h : p ∉ fields.map fun field => l.sub field.name) (packed offset : ℕ) (mem : Loc → ℤ) :
    unpack l packed fields offset mem p = mem p := by
  induction fields generalizing offset mem with
  | nil => rfl
  | cons field fields ih =>
      rw [List.map_cons, List.mem_cons, not_or] at h
      rw [unpack, ih h.2, Function.update_of_ne h.1]

/-! ## Lvalues -/

theorem loc_accessField (env : Env) (place : LVal) (name : String) :
    (accessField place name).loc env = (place.loc env).sub name := by
  unfold accessField Loc.sub
  split
  · rfl
  · split <;> rfl

theorem loc_at (env : Env) (elements : LVal) (i : ℕ) :
    (elements.at i).loc env = .index (env.index i) :: elements.loc env := rfl

/-- An lvalue that only mentions loop variables of `used`. -/
def LVal.Uses (place : LVal) (used : List ℕ) : Prop := ∀ i, .index i ∈ place.steps → i ∈ used

theorem LVal.Uses.accessField {place : LVal} {used : List ℕ} (h : place.Uses used)
    (name : String) : (accessField place name).Uses used := by
  intro i hi
  unfold ProtoDef.accessField at hi
  split at hi
  · exact h i hi
  · split at hi
    · rcases List.mem_cons.mp hi with hi | hi
      · cases hi
      · exact h i hi
    · rcases List.mem_cons.mp hi with hi | hi
      · cases hi
      · exact h i hi

theorem LVal.Uses.at {elements : LVal} {used : List ℕ} (h : elements.Uses used) (i : ℕ) :
    (elements.at i).Uses (i :: used) := by
  intro j hj
  rcases List.mem_cons.mp hj with hj | hj
  · cases hj
    exact List.mem_cons_self
  · exact List.mem_cons_of_mem i (h j hj)

theorem uses_sourceOf (t : Ty) (used : List ℕ) : (sourceOf t).Uses used := by
  intro i hi
  cases t <;> simp [sourceOf] at hi

theorem uses_fixedSourceOf (dir : Dir) (t : Ty) (used : List ℕ) :
    (fixedSourceOf dir t).Uses used := by
  cases dir with
  | read =>
      intro i hi
      cases hi
  | write => exact uses_sourceOf t used

/-! ## Spots -/

/-- A place inside what the function around it got as `packet`, with the path from there. -/
structure Spot where
  packet : Loc
  path : Loc
  deriving DecidableEq

namespace Spot

def loc (p : Spot) : Loc := p.path ++ p.packet

def sub (p : Spot) (name : String) : Spot := { p with path := p.path.sub name }

def elem (p : Spot) (j : ℕ) : Spot := { p with path := .index j :: p.path }

/-- The structure that `get_parent_field` finds: the last field is taken away, and the packet
itself is its own parent. -/
def parent (p : Spot) : Spot := { p with path := (p.path.dropWhile Sel.isIndex).tail }

theorem loc_sub (p : Spot) (name : String) : (p.sub name).loc = p.loc.sub name := by
  simp only [loc, sub, Loc.sub]
  split <;> rfl

theorem loc_elem (p : Spot) (j : ℕ) : (p.elem j).loc = .index j :: p.loc := rfl

theorem loc_mk_nil (l : Loc) : (Spot.mk l []).loc = l := rfl

theorem parent_sub {name : String} (h : name ≠ "") (p : Spot) : (p.sub name).parent = p := by
  simp [parent, sub, Loc.sub, h, Sel.isIndex]

end Spot

/-! ## Spots of lvalues -/

def selsOf (env : Env) : List Step → Loc
  | [] => []
  | .arrow name :: steps => .field name :: selsOf env steps
  | .dot name :: steps => .field name :: selsOf env steps
  | .index i :: steps => .index (env.index i) :: selsOf env steps

def LVal.spot (env : Env) (place : LVal) : Spot := ⟨env.packet, selsOf env place.steps⟩

theorem LVal.loc_spot (env : Env) (place : LVal) : (place.spot env).loc = place.loc env := by
  rw [LVal.spot, LVal.loc, Spot.loc]
  induction place.steps with
  | nil => rfl
  | cons step steps ih =>
      cases step <;> simp only [selsOf, locOfSteps, List.cons_append, ih]

theorem spot_sourceOf (env : Env) (t : Ty) : (sourceOf t).spot env = ⟨env.packet, []⟩ := by
  cases t <;> rfl

theorem spot_accessField (env : Env) (place : LVal) (name : String) :
    (accessField place name).spot env = (place.spot env).sub name := by
  unfold accessField LVal.spot Spot.sub Loc.sub
  split
  · rfl
  · split <;> rfl

theorem loc_member (env : Env) (place : LVal) (name : String) :
    (accessField place name).loc env = ((place.spot env).sub name).loc := by
  rw [← LVal.loc_spot, spot_accessField]

/-- Hiding a loop variable that an lvalue does not mention does not move it. -/
theorem LVal.spot_bind {place : LVal} {used : List ℕ} {i : ℕ} (h : place.Uses used)
    (hi : i ∉ used) (env : Env) (value : ℤ) : place.spot (env.bind i value) = place.spot env := by
  unfold LVal.spot
  unfold LVal.Uses at h
  congr 1
  generalize place.steps = steps at h
  induction steps with
  | nil => rfl
  | cons step steps ih =>
      have hrest := ih fun j hj => h j (List.mem_cons_of_mem _ hj)
      cases step with
      | arrow name => simp only [selsOf, hrest]
      | dot name => simp only [selsOf, hrest]
      | index j =>
          have hne : j ≠ i := by
            rintro rfl
            exact hi (h j List.mem_cons_self)
          rw [selsOf, selsOf, hrest]
          simp [Env.bind, Function.update_of_ne hne]

theorem LVal.loc_bind {place : LVal} {used : List ℕ} {i : ℕ} (h : place.Uses used)
    (hi : i ∉ used) (env : Env) (value : ℤ) : place.loc (env.bind i value) = place.loc env := by
  rw [← LVal.loc_spot, ← LVal.loc_spot, LVal.spot_bind h hi]

theorem LVal.spot_at {elements : LVal} {used : List ℕ} {i : ℕ} (h : elements.Uses used)
    (hi : i ∉ used) (env : Env) (j : ℕ) :
    (elements.at i).spot (env.bind i j) = (elements.spot env).elem j := by
  have hspot := congrArg Spot.path (LVal.spot_bind h hi env j)
  simp only [LVal.spot] at hspot
  simp only [LVal.spot, LVal.at, selsOf, Spot.elem, hspot]
  simp [Env.bind]

/-- An lvalue with an arrow only in front. -/
def LVal.Shaped (place : LVal) : Prop :=
  ∀ front name back, place.steps = front ++ .arrow name :: back → back = []

theorem shaped_sourceOf (t : Ty) : (sourceOf t).Shaped := by
  intro front name back h
  cases t <;> simp [sourceOf] at h

theorem shaped_fixedSourceOf (dir : Dir) (t : Ty) : (fixedSourceOf dir t).Shaped := by
  cases dir with
  | read =>
      intro front name back h
      cases front <;> cases h
  | write => exact shaped_sourceOf t

theorem LVal.Shaped.accessField {place : LVal} (h : place.Shaped) (name : String) :
    (accessField place name).Shaped := by
  intro front name' back heq
  unfold ProtoDef.accessField at heq
  split at heq
  · exact h front name' back heq
  · split at heq
    · rename_i hroot
      cases front with
      | nil => exact (List.cons.inj heq).2.symm.trans hroot.1
      | cons step front =>
          have := (List.cons.inj heq).2
          simp [hroot.1] at this
    · cases front with
      | nil => cases (List.cons.inj heq).1
      | cons step front => exact h front name' back (List.cons.inj heq).2

theorem LVal.Shaped.at {elements : LVal} (h : elements.Shaped) (i : ℕ) :
    (elements.at i).Shaped := by
  intro front name back heq
  cases front with
  | nil => cases (List.cons.inj heq).1
  | cons step front => exact h front name back (List.cons.inj heq).2

/-- `get_parent_field` cuts the text of an lvalue where its spot has its last field. -/
theorem spot_getParentField {place : LVal} (h : place.Shaped) (env : Env) :
    (getParentField place).spot env = (place.spot env).parent := by
  unfold LVal.spot getParentField Spot.parent
  unfold LVal.Shaped at h
  simp only
  congr 1
  generalize place.steps = steps at h
  induction steps with
  | nil => rfl
  | cons step steps ih =>
      cases step with
      | arrow name =>
          have hnil : steps = [] := h [] name steps rfl
          subst hnil
          rfl
      | dot name => rfl
      | index i =>
          have htail : ∀ front name back, steps = front ++ .arrow name :: back → back = [] := by
            intro front name back heq
            exact h (.index i :: front) name back (by rw [heq]; rfl)
          simpa [List.dropWhile, Step.isDot, selsOf, Sel.isIndex] using ih htail

theorem loc_sibling {place : LVal} (h : place.Shaped) (env : Env) (name : String) :
    (accessField (getParentField place) name).loc env =
      ((place.spot env).parent.sub name).loc := by
  rw [loc_member, spot_getParentField h]

/-! ## Equations of the generator -/

section

variable (dir : Dir) (rnd : String → ℕ → ℕ) (fn name : String) {n : Native} {t base : Ty}
  (place : LVal) (k : ℕ)

theorem genCode_native_fixed (h : (Ty.native n).isVariable = false) :
    genCode dir rnd fn (.native n) place k = .fixed dir n place := by
  simp [genCode, h]

theorem genCode_native_variable (h : (Ty.native n).isVariable = true) :
    genCode dir rnd fn (.native n) place k = .variable dir n place := by
  simp [genCode, h]

theorem genCode_typedef_fixed (h : base.isVariable = false) :
    genCode dir rnd fn (.typedef name base) place k =
      .callFixed (genCode dir rnd name base (fixedSourceOf dir base) 0) place base.getSize := by
  simp [genCode, h]

theorem genCode_typedef_variable (h : base.isVariable = true) :
    genCode dir rnd fn (.typedef name base) place k =
      .call (genCode dir rnd name base (sourceOf base) 0) place := by
  simp [genCode, h]

theorem reserve_variable (h : t.isVariable = true) : reserve t = .skip := by
  simp [reserve, h]

theorem reserve_fixed (h : t.isVariable = false) :
    reserve t = .seq (.checkSize t.getSize) (.subSize t.getSize) := by
  simp [reserve, h]

theorem reserveElements_variable (length : Len) (h : t.isVariable = true) :
    reserveElements length t = .skip := by
  simp [reserveElements, h]

theorem reserveElements_fixed (length : Len) (h : t.isVariable = false) :
    reserveElements length t =
      .seq (.checkCount length t.getSize) (.subCount length t.getSize) := by
  simp [reserveElements, h]

end

/-! ## Loop variables -/

section

variable (rnd : String → ℕ → ℕ)

mutual

/-- The loops that are nested in one function have different loop variables. The loops around a
type use `used`. -/
def Ty.Fresh (fn : String) : Ty → (used : List ℕ) → (k : ℕ) → Prop
  | .native _, _, _ => True
  | .typedef name base, _, _ => base.Fresh name [] 0
  | .void, _, _ => True
  | .container fields, used, k => fields.Fresh fn used k
  | .switch _ _ cases, used, k => cases.Fresh fn used k
  | .array count element, used, k =>
      count.Fresh fn used k ∧ rnd fn (k + count.draws) ∉ used ∧
        element.Fresh fn (rnd fn (k + count.draws) :: used) (k + count.draws + 1)
  | .rest element, used, k =>
      rnd fn k ∉ used ∧ element.Fresh fn (rnd fn k :: used) (k + 1)
  | .bitfield _, _, _ => True
  | .option _, _, _ => True

def Fields.Fresh (fn : String) : Fields → (used : List ℕ) → (k : ℕ) → Prop
  | .nil, _, _ => True
  | .cons _ t fields, used, k => t.Fresh fn used k ∧ fields.Fresh fn used (k + t.draws)

def Cases.Fresh (fn : String) : Cases → (used : List ℕ) → (k : ℕ) → Prop
  | .nil, _, _ => True
  | .cons _ t _ cases, used, k => t.Fresh fn used k ∧ cases.Fresh fn used (k + t.draws)

end

end

end CmcServer.ProtoDef
