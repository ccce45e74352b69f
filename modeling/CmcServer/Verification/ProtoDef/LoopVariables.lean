import CmcServer.Verification.ProtoDef.Bounds

/-! # Loop variables

The generators draw the numbers of loop variables at random, and the lvalues of inner loops mention
the variables of outer ones. In resolved code every variable is named after its loop. -/

namespace CmcServer.ProtoDef

open EarlyReturn

/-! ## Resolved code -/

section

variable (ρ : ℕ → ℕ)

def Step.rename : Step → Step
  | .index i => .index (ρ i)
  | .arrow name => .arrow name
  | .dot name => .dot name

def LVal.rename (place : LVal) : LVal := { place with steps := place.steps.map (Step.rename ρ) }

def Len.rename (length : Len) : Len := { length with place := length.place.rename ρ }

def Test.rename : Test → Test
  | .present place => .present (place.rename ρ)
  | .eqInt place value => .eqInt (place.rename ρ) value
  | .eqString place value => .eqString (place.rename ρ) value

end

/-- The code with each loop variable named after the number of loops around its loop, counted from
`n`. A name stands for the innermost loop that declares it, and `ρ` is what the names around the
code stand for. A function starts with the name 0, which no loop has. -/
def Cmd.resolve : Cmd → (ρ : ℕ → ℕ) → (n : ℕ) → Cmd
  | .skip, _, _ => .skip
  | .seq c d, ρ, n => .seq (c.resolve ρ n) (d.resolve ρ n)
  | .fail, _, _ => .fail
  | .checkSize size, _, _ => .checkSize size
  | .subSize size, _, _ => .subSize size
  | .checkCount length size, ρ, _ => .checkCount (length.rename ρ) size
  | .subCount length size, ρ, _ => .subCount (length.rename ρ) size
  | .setRest place, ρ, _ => .setRest (place.rename ρ)
  | .fixed dir native place, ρ, _ => .fixed dir native (place.rename ρ)
  | .variable dir native place, ρ, _ => .variable dir native (place.rename ρ)
  | .bits dir fields place, ρ, _ => .bits dir fields (place.rename ρ)
  | .alloc length element, ρ, _ => .alloc (length.rename ρ) element
  | .loop i length body, ρ, n =>
      .loop n (length.rename (Function.update ρ i n))
        (body.resolve (Function.update ρ i n) (n + 1))
  | .ite test c d, ρ, n => .ite (test.rename ρ) (c.resolve ρ n) (d.resolve ρ n)
  | .call body place, ρ, _ => .call (body.resolve (fun _ => 0) 1) (place.rename ρ)
  | .callFixed body place size, ρ, _ =>
      .callFixed (body.resolve (fun _ => 0) 1) (place.rename ρ) size

/-! ## Resolved code does the same -/

/-- The names have the values that the loops they stand for have in the resolved code. -/
structure Renamed (ρ : ℕ → ℕ) (n : ℕ) (env env' : Env) : Prop where
  packet : env'.packet = env.packet
  lt : ∀ i, ρ i < n
  index : ∀ i, env'.index (ρ i) = env.index i

theorem Renamed.start (packet : Loc) :
    Renamed (fun _ => 0) 1 ⟨packet, fun _ => 0⟩ ⟨packet, fun _ => 0⟩ :=
  ⟨rfl, fun _ => Nat.one_pos, fun _ => rfl⟩

section

variable {ρ : ℕ → ℕ} {n : ℕ} {env env' : Env}

theorem Renamed.bind (h : Renamed ρ n env env') (i : ℕ) (value : ℤ) :
    Renamed (Function.update ρ i n) (n + 1) (env.bind i value) (env'.bind n value) where
  packet := h.packet
  lt := by
    intro j
    by_cases hj : j = i
    · rw [hj, Function.update_self]
      exact n.lt_succ_self
    · rw [Function.update_of_ne hj]
      exact (h.lt j).trans n.lt_succ_self
  index := by
    intro j
    by_cases hj : j = i
    · simp [Env.bind, hj]
    · have hne : ρ j ≠ n := (h.lt j).ne
      simp [Env.bind, Function.update_of_ne hj, Function.update_of_ne hne, h.index]

theorem Renamed.loc (h : Renamed ρ n env env') (place : LVal) :
    (place.rename ρ).loc env' = place.loc env := by
  rw [LVal.loc, LVal.loc, LVal.rename]
  induction place.steps with
  | nil => exact h.packet
  | cons step steps ih =>
      cases step <;> simp only [List.map_cons, Step.rename, locOfSteps, ih, h.index]

theorem Renamed.value (h : Renamed ρ n env env') (length : Len) (s : Core) :
    (length.rename ρ).value env' s = length.value env s := by
  rw [Len.value, Len.value, Len.rename, h.loc]

theorem Renamed.product (h : Renamed ρ n env env') (length : Len) (s : Core) (size : ℤ) :
    (length.rename ρ).product env' s size = length.product env s size := by
  rw [Len.product, Len.product, h.value, Len.rename]

theorem Renamed.holds (h : Renamed ρ n env env') (test : Test) (s : Core) :
    (test.rename ρ).holds env' s = test.holds env s := by
  cases test <;> simp only [Test.rename, Test.holds, h.loc]

end

theorem exec_resolve (sizeof : Ty → ℕ) (c : Cmd) {ρ : ℕ → ℕ} {n : ℕ} {env env' : Env}
    (h : Renamed ρ n env env') : exec sizeof (c.resolve ρ n) env' = exec sizeof c env := by
  induction c generalizing ρ n env env' with
  | skip => rfl
  | seq c d ihc ihd =>
      funext s
      rw [Cmd.resolve, exec, exec, ihc h, ihd h]
  | fail => rfl
  | ite test c d ihc ihd =>
      funext s
      rw [Cmd.resolve, exec, exec, h.holds, ihc h, ihd h]
  | loop i length body ih =>
      have hbody : ∀ j : ℕ, exec sizeof (body.resolve (Function.update ρ i n) (n + 1))
          (env'.bind n j) = exec sizeof body (env.bind i j) := fun j => ih (h.bind i j)
      have hmore : ∀ (j : ℕ) (s : Core), (length.rename (Function.update ρ i n)).value
          (env'.bind n j) s = length.value (env.bind i j) s :=
        fun j s => (h.bind i j).value length s
      rw [Cmd.resolve, exec_loop, exec_loop]
      simp only [hbody, hmore]
  | call body place ih =>
      funext s
      rw [Cmd.resolve, exec, exec, h.loc, ih (.start _)]
  | callFixed body place size ih =>
      funext s
      rw [Cmd.resolve, exec, exec, h.loc, ih (.start _)]
  | checkSize size => rfl
  | subSize size => rfl
  | checkCount length size =>
      funext s
      rw [Cmd.resolve, exec, exec, h.product, h.value]
  | subCount length size =>
      funext s
      rw [Cmd.resolve, exec, exec, h.product]
  | setRest place =>
      funext s
      rw [Cmd.resolve, exec, exec, h.loc]
  | alloc length element =>
      funext s
      rw [Cmd.resolve, exec, exec, h.value]
  | fixed dir native place =>
      funext s
      cases dir <;> rw [Cmd.resolve, exec, exec, h.loc]
  | bits dir fields place =>
      funext s
      cases dir <;> rw [Cmd.resolve, exec, exec, h.loc]
  | «variable» dir native place =>
      funext s
      cases dir <;> rw [Cmd.resolve, exec, exec, h.loc]

/-! ## Lvalues under two drawings -/

section

variable {ρ : ℕ → ℕ}

theorem rename_accessField (place : LVal) (name : String) :
    (accessField place name).rename ρ = accessField (place.rename ρ) name := by
  unfold accessField
  split
  · rfl
  · rename_i hname
    by_cases harrow : place.steps = [] ∧ place.root ≠ .deref
    · rw [if_pos harrow, if_pos (by simpa [LVal.rename] using harrow)]
      rfl
    · rw [if_neg harrow, if_neg (by simpa [LVal.rename] using harrow)]
      rfl

theorem rename_getParentField (place : LVal) :
    (getParentField place).rename ρ = getParentField (place.rename ρ) := by
  have hdot : ∀ step : Step, (step.rename ρ).isDot = step.isDot := by
    intro step
    cases step <;> rfl
  simp only [getParentField, LVal.rename, List.map_tail, List.dropWhile_map]
  congr 4
  funext step
  simp [hdot]

theorem rename_at (elements : LVal) (i : ℕ) :
    (elements.at i).rename ρ = (elements.rename ρ).at (ρ i) := rfl

/-- The variable of a loop is new to an lvalue that does not mention it. -/
theorem rename_update {place : LVal} {used : List ℕ} {i : ℕ} (h : place.Uses used) (hi : i ∉ used)
    (n : ℕ) : place.rename (Function.update ρ i n) = place.rename ρ := by
  rw [LVal.rename, LVal.rename]
  congr 1
  apply List.map_congr_left
  intro step hstep
  cases step with
  | index j =>
      have hne : j ≠ i := by
        rintro rfl
        exact hi (h j hstep)
      rw [Step.rename, Step.rename, Function.update_of_ne hne]
  | arrow name => rfl
  | dot name => rfl

/-- A loop that takes a name over changes what the lvalues with this name stand for. -/
theorem captured {place : LVal} {i n : ℕ} (hmem : .index i ∈ place.steps) (hn : ρ i < n) :
    place.rename (Function.update ρ i n) ≠ place.rename ρ := by
  intro h
  have hsteps := List.map_inj_left.mp (congrArg LVal.steps h) _ hmem
  simp [Step.rename] at hsteps
  omega

end

/-- An lvalue that mentions the variables of all loops around it, under two drawings of which the
second is fresh. -/
structure Aligned (used used₀ : List ℕ) (ρ ρ₀ : ℕ → ℕ) (n : ℕ) (place place₀ : LVal) : Prop where
  uses : place.Uses used
  uses₀ : place₀.Uses used₀
  mentions : ∀ i ∈ used, .index i ∈ place.steps
  rename_eq : place.rename ρ = place₀.rename ρ₀
  lt : ∀ i, ρ i < n

section

variable {used used₀ : List ℕ} {ρ ρ₀ : ℕ → ℕ} {n : ℕ} {place place₀ : LVal}

theorem Aligned.accessField (h : Aligned used used₀ ρ ρ₀ n place place₀) (name : String) :
    Aligned used used₀ ρ ρ₀ n (accessField place name) (accessField place₀ name) where
  uses := h.uses.accessField name
  uses₀ := h.uses₀.accessField name
  mentions := by
    intro i hi
    unfold ProtoDef.accessField
    split
    · exact h.mentions i hi
    · split <;> exact List.mem_cons_of_mem _ (h.mentions i hi)
  rename_eq := by rw [rename_accessField, rename_accessField, h.rename_eq]
  lt := h.lt

theorem Aligned.at (h : Aligned used used₀ ρ ρ₀ n place place₀) {i i₀ : ℕ} (hi : i ∉ used)
    (hi₀ : i₀ ∉ used₀) :
    Aligned (i :: used) (i₀ :: used₀) (Function.update ρ i n) (Function.update ρ₀ i₀ n) (n + 1)
      (place.at i) (place₀.at i₀) where
  uses := h.uses.at i
  uses₀ := h.uses₀.at i₀
  mentions := by
    intro j hj
    obtain rfl | hj := List.mem_cons.mp hj
    · exact List.mem_cons_self
    · exact List.mem_cons_of_mem _ (h.mentions j hj)
  rename_eq := by
    rw [rename_at, rename_at, rename_update h.uses hi, rename_update h.uses₀ hi₀, h.rename_eq,
      Function.update_self, Function.update_self]
  lt := by
    intro j
    by_cases hj : j = i
    · rw [hj, Function.update_self]
      exact n.lt_succ_self
    · rw [Function.update_of_ne hj]
      exact (h.lt j).trans n.lt_succ_self

theorem aligned_start {place : LVal} (h : place.steps = []) :
    Aligned [] [] (fun _ => 0) (fun _ => 0) 1 place place where
  uses := fun i hi => by simp [h] at hi
  uses₀ := fun i hi => by simp [h] at hi
  mentions := fun _ hi => absurd hi List.not_mem_nil
  rename_eq := rfl
  lt := fun _ => Nat.one_pos

theorem steps_sourceOf (t : Ty) : (sourceOf t).steps = [] := by
  cases t <;> rfl

theorem steps_fixedSourceOf (dir : Dir) (t : Ty) : (fixedSourceOf dir t).steps = [] := by
  cases dir with
  | read => rfl
  | write => exact steps_sourceOf t

/-- The loop over an array is the same under both drawings if its name is not one of those around
it and its body is the same. -/
theorem Aligned.loop (h : Aligned used used₀ ρ ρ₀ n place place₀) {i i₀ : ℕ} (hi₀ : i₀ ∉ used₀)
    (wide : Bool) (body body₀ : Cmd) :
    (Cmd.loop i ⟨place, wide⟩ body).resolve ρ n = (Cmd.loop i₀ ⟨place₀, wide⟩ body₀).resolve ρ₀ n ↔
      i ∉ used ∧ body.resolve (Function.update ρ i n) (n + 1) =
        body₀.resolve (Function.update ρ₀ i₀ n) (n + 1) := by
  simp only [Cmd.resolve, Len.rename, Cmd.loop.injEq, Len.mk.injEq, true_and, and_true]
  rw [rename_update h.uses₀ hi₀, ← h.rename_eq]
  apply and_congr_left'
  constructor
  · intro hsame hi
    exact captured (h.mentions i hi) (h.lt i) hsame
  · intro hi
    exact rename_update h.uses hi n

end

/-! ## Two drawings of one type -/

mutual

/-- The default of a switch is its last field, as `generate_type` adds it. -/
def Ty.DefaultsLast : Ty → Prop
  | .native _ | .void | .bitfield _ => True
  | .typedef _ base => base.DefaultsLast
  | .container fields => fields.DefaultsLast
  | .switch _ _ cases => cases.DefaultsLast
  | .array count element => count.DefaultsLast ∧ element.DefaultsLast
  | .rest element => element.DefaultsLast
  | .option base => base.DefaultsLast

def Fields.DefaultsLast : Fields → Prop
  | .nil => True
  | .cons _ t fields => t.DefaultsLast ∧ fields.DefaultsLast

def Cases.DefaultsLast : Cases → Prop
  | .nil => True
  | .cons _ t value cases =>
      t.DefaultsLast ∧ (value = .default → cases = .nil) ∧ cases.DefaultsLast

end

section

variable (ρ : ℕ → ℕ) (n : ℕ)

theorem resolve_reserve (t : Ty) : (reserve t).resolve ρ n = reserve t := by
  rw [reserve]
  split <;> rfl

theorem resolve_reserveElements (length : Len) (t : Ty) :
    (reserveElements length t).resolve ρ n = reserveElements (length.rename ρ) t := by
  rw [reserveElements, reserveElements]
  split <;> rfl

theorem rename_caseTest (discriminant : LVal) (value : CaseValue) :
    (caseTest discriminant value).rename ρ = caseTest (discriminant.rename ρ) value := by
  cases value <;> rfl

end

section

variable (dir : Dir) (rnd rnd₀ : String → ℕ → ℕ)

mutual

/-- With fresh names on the other side, the resolved code is the same exactly if the names are
fresh. -/
theorem Ty.resolve_iff (t : Ty) (hlast : t.DefaultsLast) {fn : String} {used used₀ : List ℕ}
    {k n : ℕ} {ρ ρ₀ : ℕ → ℕ} {place place₀ : LVal}
    (h : Aligned used used₀ ρ ρ₀ n place place₀) (hfresh₀ : t.Fresh rnd₀ fn used₀ k) :
    (genCode dir rnd fn t place k).resolve ρ n = (genCode dir rnd₀ fn t place₀ k).resolve ρ₀ n ↔
      t.Fresh rnd fn used k := by
  cases t with
  | native native =>
      rw [genCode, genCode]
      split <;> simp [Cmd.resolve, h.rename_eq, Ty.Fresh]
  | typedef name base =>
      rw [genCode, genCode]
      split
      · have hbase := base.resolve_iff hlast (aligned_start (steps_sourceOf base)) hfresh₀
        simpa [Cmd.resolve, h.rename_eq, Ty.Fresh] using hbase
      · have hbase := base.resolve_iff hlast (aligned_start (steps_fixedSourceOf dir base)) hfresh₀
        simpa [Cmd.resolve, h.rename_eq, Ty.Fresh] using hbase
  | void => simp [genCode, Cmd.resolve, Ty.Fresh]
  | container fields =>
      rw [genCode, genCode, Ty.Fresh]
      exact fields.resolve_iff hlast none h hfresh₀
  | «switch» up compareTo cases =>
      rw [genCode, genCode, Ty.Fresh]
      apply cases.resolve_iff hlast h _ hfresh₀
      rw [rename_accessField, rename_accessField, rename_getParentField, rename_getParentField,
        h.rename_eq]
  | array count element =>
      obtain ⟨hcount₀, hi₀, helement₀⟩ := hfresh₀
      have hlength := (h.accessField "length").rename_eq
      have hcount := count.resolve_iff hlast.1 (h.accessField "length") hcount₀
      have hloop := (h.accessField "length").loop (i := rnd fn (k + count.draws)) hi₀ count.isWide
        (genCode dir rnd fn element ((accessField place "elements").at (rnd fn (k + count.draws)))
          (k + count.draws + 1))
        (genCode dir rnd₀ fn element
          ((accessField place₀ "elements").at (rnd₀ fn (k + count.draws))) (k + count.draws + 1))
      have helement := fun hi : rnd fn (k + count.draws) ∉ used =>
        element.resolve_iff hlast.2 ((h.accessField "elements").at hi hi₀) helement₀
      cases dir <;>
        simp only [genCode, Ty.Fresh, Cmd.resolve, Cmd.seq.injEq, resolve_reserve,
          resolve_reserveElements, Len.rename, hlength, true_and] at hloop ⊢ <;>
        rw [hcount, hloop, and_congr_right helement]
  | rest element =>
      obtain ⟨hi₀, helement₀⟩ := hfresh₀
      have hlength := (h.accessField "length").rename_eq
      have hloop := (h.accessField "length").loop (i := rnd fn k) hi₀ false
        (genCode dir rnd fn element ((accessField place "elements").at (rnd fn k)) (k + 1))
        (genCode dir rnd₀ fn element ((accessField place₀ "elements").at (rnd₀ fn k)) (k + 1))
      have helement := fun hi : rnd fn k ∉ used =>
        element.resolve_iff hlast ((h.accessField "elements").at hi hi₀) helement₀
      cases dir <;>
        simp only [genCode, Ty.Fresh, Cmd.resolve, Cmd.seq.injEq, resolve_reserveElements,
          Len.rename, hlength, true_and] at hloop ⊢ <;>
        rw [hloop, and_congr_right helement]
  | bitfield fields => simp [genCode, Cmd.resolve, h.rename_eq, Ty.Fresh]
  | option base =>
      have hpresent := (h.accessField "present").rename_eq
      simp [genCode, Cmd.resolve, resolve_reserve, Test.rename, hpresent, Ty.Fresh]

theorem Fields.resolve_iff (fields : Fields) (hlast : fields.DefaultsLast) (run : Option ℤ)
    {fn : String} {used used₀ : List ℕ} {k n : ℕ} {ρ ρ₀ : ℕ → ℕ} {place place₀ : LVal}
    (h : Aligned used used₀ ρ ρ₀ n place place₀) (hfresh₀ : fields.Fresh rnd₀ fn used₀ k) :
    (genFields dir rnd fn run fields place k).resolve ρ n =
        (genFields dir rnd₀ fn run fields place₀ k).resolve ρ₀ n ↔
      fields.Fresh rnd fn used k := by
  cases fields with
  | nil => cases run <;> simp [genFields, Cmd.resolve, Fields.Fresh]
  | cons name t fields =>
      have ht := t.resolve_iff hlast.1 (h.accessField name) hfresh₀.1
      have hrest := fun run => fields.resolve_iff hlast.2 run h hfresh₀.2
      rw [Fields.Fresh, ← ht]
      cases hvar : t.isVariable with
      | true =>
          rw [← hrest none]
          cases run <;>
            simp only [genFields, hvar, if_true, Cmd.resolve, Cmd.seq.injEq, true_and]
      | false =>
          cases run with
          | none =>
              rw [← hrest (some (Fields.cons name t fields).fixedTotal)]
              simp only [genFields, hvar, Bool.false_eq_true, if_false, Cmd.resolve,
                Cmd.seq.injEq, true_and]
          | some total =>
              rw [← hrest (some total)]
              simp only [genFields, hvar, Bool.false_eq_true, if_false, Cmd.resolve,
                Cmd.seq.injEq]

theorem Cases.resolve_iff (cases : Cases) (hlast : cases.DefaultsLast) {fn : String}
    {used used₀ : List ℕ} {k n : ℕ} {ρ ρ₀ : ℕ → ℕ} {place place₀ discriminant discriminant₀ : LVal}
    (h : Aligned used used₀ ρ ρ₀ n place place₀)
    (hdiscriminant : discriminant.rename ρ = discriminant₀.rename ρ₀)
    (hfresh₀ : cases.Fresh rnd₀ fn used₀ k) :
    (genCases dir rnd fn discriminant cases place k).resolve ρ n =
        (genCases dir rnd₀ fn discriminant₀ cases place₀ k).resolve ρ₀ n ↔
      cases.Fresh rnd fn used k := by
  cases cases with
  | nil => simp [genCases, Cmd.resolve, Cases.Fresh]
  | cons name t value cases =>
      obtain ⟨hlt, hdefault, hlrest⟩ := hlast
      have ht := t.resolve_iff hlt (h.accessField name) hfresh₀.1
      have hcode : (caseCode t (genCode dir rnd fn t (accessField place name) k)).resolve ρ n =
          (caseCode t (genCode dir rnd₀ fn t (accessField place₀ name) k)).resolve ρ₀ n ↔
            t.Fresh rnd fn used k := by
        rw [← ht]
        cases t <;> simp [caseCode, Ty.isVoid, Cmd.resolve, resolve_reserve, genCode]
      have hrest := cases.resolve_iff hlrest h hdiscriminant hfresh₀.2
      rw [Cases.Fresh]
      cases value with
      | default =>
          rw [genCases, genCases, hcode, hdefault rfl, Cases.Fresh, and_true]
      | int value =>
          simp only [genCases, Cmd.resolve, Cmd.ite.injEq, rename_caseTest, hdiscriminant, hcode,
            hrest, true_and]
      | bool value =>
          simp only [genCases, Cmd.resolve, Cmd.ite.injEq, rename_caseTest, hdiscriminant, hcode,
            hrest, true_and]
      | string value =>
          simp only [genCases, Cmd.resolve, Cmd.ite.injEq, rename_caseTest, hdiscriminant, hcode,
            hrest, true_and]

end

end

/-! ## Fresh drawings -/

def emitted (dir : Dir) (rnd : String → ℕ → ℕ) (name : String) (t : Ty) : Cmd :=
  genCode dir rnd name t (sourceOf t) 0

/-- A drawing in which no two loops of a function get the same name. -/
def distinct (_ : String) (k : ℕ) : ℕ := k

mutual

theorem Ty.distinct_fresh (t : Ty) (fn : String) {used : List ℕ} {k : ℕ}
    (h : ∀ i ∈ used, i < k) : t.Fresh distinct fn used k := by
  cases t with
  | native native => trivial
  | typedef name base => exact base.distinct_fresh name fun i hi => absurd hi List.not_mem_nil
  | void => trivial
  | container fields => exact fields.distinct_fresh fn h
  | «switch» up compareTo cases => exact cases.distinct_fresh fn h
  | array count element =>
      refine ⟨count.distinct_fresh fn h, ?_, element.distinct_fresh fn ?_⟩
      · intro hmem
        have := h _ hmem
        rw [distinct] at this
        omega
      · intro i hi
        obtain rfl | hi := List.mem_cons.mp hi
        · exact Nat.lt_succ_self _
        · have := h i hi
          omega
  | rest element =>
      refine ⟨?_, element.distinct_fresh fn ?_⟩
      · intro hmem
        exact absurd (h _ hmem) (lt_irrefl k)
      · intro i hi
        obtain rfl | hi := List.mem_cons.mp hi
        · exact Nat.lt_succ_self _
        · have := h i hi
          omega
  | bitfield fields => trivial
  | option base => trivial

theorem Fields.distinct_fresh (fields : Fields) (fn : String) {used : List ℕ} {k : ℕ}
    (h : ∀ i ∈ used, i < k) : fields.Fresh distinct fn used k := by
  cases fields with
  | nil => trivial
  | cons name t fields =>
      exact ⟨t.distinct_fresh fn h,
        fields.distinct_fresh fn fun i hi => (h i hi).trans_le (by omega)⟩

theorem Cases.distinct_fresh (cases : Cases) (fn : String) {used : List ℕ} {k : ℕ}
    (h : ∀ i ∈ used, i < k) : cases.Fresh distinct fn used k := by
  cases cases with
  | nil => trivial
  | cons name t value cases =>
      exact ⟨t.distinct_fresh fn h,
        cases.distinct_fresh fn fun i hi => (h i hi).trans_le (by omega)⟩

end

/-- The names of a drawing do not matter: every variable stands for the loop that it stands for when
all names are different, and the emitted function is the same. -/
structure Hygienic (dir : Dir) (rnd : String → ℕ → ℕ) (name : String) (t : Ty) : Prop where
  uncaptured : (emitted dir rnd name t).resolve (fun _ => 0) 1 =
    (emitted dir distinct name t).resolve (fun _ => 0) 1
  same : ∀ (sizeof : Ty → ℕ) (packet : Loc) (s : Core),
    callFunction sizeof (emitted dir rnd name t) packet s =
      callFunction sizeof (emitted dir distinct name t) packet s

theorem call_eq_of_resolve_eq {c d : Cmd}
    (h : c.resolve (fun _ => 0) 1 = d.resolve (fun _ => 0) 1) (sizeof : Ty → ℕ) (packet : Loc)
    (s : Core) : callFunction sizeof c packet s = callFunction sizeof d packet s := by
  rw [callFunction, callFunction, ← exec_resolve sizeof c (.start packet), h,
    exec_resolve sizeof d (.start packet)]

/-- A drawing is hygienic exactly if the loops that are nested in one function get different
names. -/
theorem loop_variables_hygienic_iff (dir : Dir) (rnd : String → ℕ → ℕ) (name : String) (t : Ty)
    (hlast : t.DefaultsLast) : Hygienic dir rnd name t ↔ t.Fresh rnd name [] 0 := by
  have hresolve := t.resolve_iff dir rnd distinct hlast (aligned_start (steps_sourceOf t))
    (t.distinct_fresh name (k := 0) fun i hi => absurd hi List.not_mem_nil)
  constructor
  · intro h
    exact hresolve.mp h.uncaptured
  · intro h
    exact ⟨hresolve.mpr h, call_eq_of_resolve_eq (hresolve.mpr h)⟩

/-! ## Tags -/

theorem tags_defaultsLast : tags.DefaultsLast := by
  simp [tags, Packets.container, Packets.string, Packets.varint, Ty.DefaultsLast,
    Fields.DefaultsLast]

/-- Two different numbers are drawn for `tags`. -/
theorem loop_variables_hygienic_tags : Hygienic .read (fun _ k => 3 * k) "tags" tags := by
  apply (loop_variables_hygienic_iff .read _ "tags" tags tags_defaultsLast).mpr
  simp [tags, Packets.container, Packets.string, Packets.varint, Ty.Fresh, Fields.Fresh, Ty.draws]

/-- If both loops of `tags` get the number 7, the entry of the second tag goes to the first. -/
theorem tags_captured : ¬ ∀ (dir : Dir) (rnd rnd' : String → ℕ → ℕ) (name : String) (t : Ty),
    t.DefaultsLast → (∀ fn k, rnd fn k ≤ 1000) → (∀ fn k, rnd' fn k ≤ 1000) →
      ∀ (sizeof : Ty → ℕ) (packet : Loc) (s : Core),
        callFunction sizeof (emitted dir rnd name t) packet s =
          callFunction sizeof (emitted dir rnd' name t) packet s := by
  intro h
  have hsame := h .read (fun _ _ => 7) (fun _ k => k % 1000) "tags" tags tags_defaultsLast
    (fun _ _ => by decide) (fun _ k => by have := Nat.mod_lt k (show 0 < 1000 by decide); omega)
    (fun _ => 1) [] (Core.start (Bytes.ofList [2, 0, 1, 5, 0, 1, 6] fun _ => 0) 7 usedArena
      fun _ => 0)
  have hfirst := congrArg (fun result => result.map fun r => r.2.mem
    [.index 0, .field "elements", .field "entries", .index 0, .field "elements"]) hsame
  revert hfirst
  decide +kernel

end CmcServer.ProtoDef
