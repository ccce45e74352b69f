import CmcServer.Verification.ProtoDef.Values

/-! # Types that can be read back

The types whose readers undo their writers, and the scalars that make up their values. -/

namespace CmcServer.ProtoDef

/-! ## Scalars -/

section

variable (m : Loc → ℤ)

mutual

/-- The places of the scalars that make up the value at a place. -/
def Ty.scalars : Ty → Spot → List Loc
  | .native _, p => [p.loc]
  | .typedef _ base, p => base.scalars ⟨p.loc, []⟩
  | .void, _ => []
  | .container fields, p => fields.scalars p
  | .switch _ compareTo cases, p => cases.scalars (p.parent.sub compareTo).loc p
  | .array count element, p =>
      count.scalars (p.sub "length") ++
        (List.range (countAt m p)).flatMap fun j => element.scalars ((p.sub "elements").elem j)
  | .rest element, p =>
      (p.sub "length").loc ::
        (List.range (countAt m p)).flatMap fun j => element.scalars ((p.sub "elements").elem j)
  | .bitfield fields, p => fields.map fun field => p.loc.sub field.name
  | .option base, p =>
      (p.sub "present").loc ::
        if m (p.sub "present").loc = 0 then [] else base.scalars (p.sub "value")

def Fields.scalars : Fields → Spot → List Loc
  | .nil, _ => []
  | .cons name t fields, p => t.scalars (p.sub name) ++ fields.scalars p

def Cases.scalars : Cases → Loc → Spot → List Loc
  | .nil, _, _ => []
  | .cons name t value cases, discriminant, p =>
      if value.holds m discriminant then t.scalars (p.sub name)
      else cases.scalars discriminant p

end

theorem suffix_loc_sub (p : Spot) (name : String) : p.loc <:+ (p.sub name).loc := by
  rw [Spot.loc_sub]
  exact p.loc.suffix_sub name

theorem suffix_loc_elem (p : Spot) (j : ℕ) : p.loc <:+ ((p.sub "elements").elem j).loc := by
  rw [Spot.loc_elem]
  exact (suffix_loc_sub p "elements").trans (List.suffix_cons _ _)

mutual

theorem Ty.scalars_under (t : Ty) (p : Spot) : ∀ l ∈ t.scalars m p, p.loc <:+ l := by
  cases t with
  | native n =>
      intro l hl
      rw [Ty.scalars, List.mem_singleton] at hl
      rw [hl]
  | typedef name base =>
      rw [Ty.scalars]
      exact base.scalars_under ⟨p.loc, []⟩
  | void =>
      intro l hl
      simp [Ty.scalars] at hl
  | container fields =>
      rw [Ty.scalars]
      exact fields.scalars_under p
  | «switch» up compareTo cases =>
      rw [Ty.scalars]
      exact cases.scalars_under _ p
  | array count element =>
      intro l hl
      rw [Ty.scalars, List.mem_append, List.mem_flatMap] at hl
      rcases hl with hl | ⟨j, -, hl⟩
      · exact (suffix_loc_sub p _).trans (count.scalars_under _ l hl)
      · exact (suffix_loc_elem p j).trans (element.scalars_under _ l hl)
  | rest element =>
      intro l hl
      rw [Ty.scalars, List.mem_cons, List.mem_flatMap] at hl
      rcases hl with rfl | ⟨j, -, hl⟩
      · exact suffix_loc_sub p _
      · exact (suffix_loc_elem p j).trans (element.scalars_under _ l hl)
  | bitfield fields =>
      intro l hl
      rw [Ty.scalars, List.mem_map] at hl
      rcases hl with ⟨field, -, rfl⟩
      exact p.loc.suffix_sub field.name
  | option base =>
      intro l hl
      rw [Ty.scalars, List.mem_cons] at hl
      rcases hl with rfl | hl
      · exact suffix_loc_sub p _
      · split at hl
        · cases hl
        · exact (suffix_loc_sub p _).trans (base.scalars_under _ l hl)

theorem Fields.scalars_under (fields : Fields) (p : Spot) :
    ∀ l ∈ fields.scalars m p, p.loc <:+ l := by
  cases fields with
  | nil =>
      intro l hl
      simp [Fields.scalars] at hl
  | cons name t fields =>
      intro l hl
      rw [Fields.scalars, List.mem_append] at hl
      rcases hl with hl | hl
      · exact (suffix_loc_sub p name).trans (t.scalars_under _ l hl)
      · exact fields.scalars_under p l hl

theorem Cases.scalars_under (cases : Cases) (discriminant : Loc) (p : Spot) :
    ∀ l ∈ cases.scalars m discriminant p, p.loc <:+ l := by
  cases cases with
  | nil =>
      intro l hl
      simp [Cases.scalars] at hl
  | cons name t value cases =>
      intro l hl
      rw [Cases.scalars] at hl
      split at hl
      · exact (suffix_loc_sub p name).trans (t.scalars_under _ l hl)
      · exact cases.scalars_under discriminant p l hl

end

end

/-! ## Members -/

mutual

/-- The members that an anonymous member of a type adds to the structure around it. -/
def Ty.names : Ty → List String
  | .container fields => fields.names
  | .switch _ _ cases => cases.names
  | .array _ _ | .rest _ => ["length", "elements"]
  | .bitfield fields => fields.map BitField.name
  | .option _ => ["present", "value"]
  | .native _ | .typedef _ _ | .void => []

def Fields.names : Fields → List String
  | .nil => []
  | .cons name t fields => (if name = "" then t.names else [name]) ++ fields.names

def Cases.names : Cases → List String
  | .nil => []
  | .cons name t _ cases => (if name = "" then t.names else [name]) ++ cases.names

end

/-- C has anonymous members of structures and unions only. -/
def Ty.isAnonymous : Ty → Bool
  | .native _ | .typedef _ _ => false
  | _ => true

def IsMember (name : String) (t : Ty) : Prop := name = "" → t.isAnonymous = true

/-! ## Accepted types -/

/-- The natives whose value a `switch` statement takes. -/
def Native.isInteger : Native → Bool
  | .i8 | .u8 | .i16 | .u16 | .i32 | .i64 | .varint | .varlong => true
  | _ => false

/-- `get_c_value_for_type`: the values that a field of a type is compared with. -/
def CaseValue.Matches : CaseValue → Ty → Prop
  | .int _, .native n => n.isInteger = true
  | .bool _, .native n => n = .bool
  | .string _, .typedef _ base => base = .array (.native .varint) (.native .i8)
  | .default, _ => True
  | _, _ => False

def Fields.toList : Fields → List (String × Ty)
  | .nil => []
  | .cons name t fields => (name, t) :: fields.toList

section

variable (forward : Bool)

mutual

/-- Natives of fixed size, varints, arrays counted by varints, containers, switches on a sibling
and typedefs of those with a variable size. The reader of a typedef of a native of fixed size
assigns to `(&packet)`, which is not C. `siblings` are the fields that a switch may be compared
with: those in front of it and, with `forward`, all others of its container. -/
def Ty.Accepted : Ty → (siblings : List (String × Ty)) → Prop
  | .native n, _ => n ≠ .varlong ∧ n ≠ .nbt
  | .typedef _ base, _ => base.isVariable = true ∧ base.Accepted []
  | .void, _ => True
  | .container fields, _ => fields.Accepted (if forward then fields.toList else [])
  | .switch up compareTo cases, siblings =>
      up = 0 ∧ ∃ t, (compareTo, t) ∈ siblings ∧ cases.Accepted t
  | .array count element, _ => count = .native .varint ∧ element.Accepted []
  | .rest _, _ | .bitfield _, _ | .option _, _ => False

def Fields.Accepted : Fields → (siblings : List (String × Ty)) → Prop
  | .nil, _ => True
  | .cons name t fields, siblings =>
      t.Accepted siblings ∧ IsMember name t ∧
        (Fields.cons name t .nil).names.Disjoint fields.names ∧
        fields.Accepted ((name, t) :: siblings)

def Cases.Accepted : Cases → (compared : Ty) → Prop
  | .nil, _ => True
  | .cons name t value cases, compared =>
      t.Accepted [] ∧ IsMember name t ∧ value.Matches compared ∧ cases.Accepted compared

end

end

def Ty.isSwitch : Ty → Bool
  | .switch _ _ _ => true
  | _ => false

mutual

/-- Every `compareTo` denotes a field of the container that the switch is in. -/
def Ty.Resolves : Ty → Spot → Prop
  | .typedef _ base, p => base.Resolves ⟨p.loc, []⟩
  | .container fields, p => fields.Resolves p
  | .switch _ _ cases, p => cases.Resolves p
  | .array _ element, p => ∀ j, element.Resolves ((p.sub "elements").elem j)
  | _, _ => True

def Fields.Resolves : Fields → Spot → Prop
  | .nil, _ => True
  | .cons name t fields, p =>
      (t.isSwitch = true → (p.sub name).parent = p) ∧ t.Resolves (p.sub name) ∧ fields.Resolves p

def Cases.Resolves : Cases → Spot → Prop
  | .nil, _ => True
  | .cons name t _ cases, p => t.Resolves (p.sub name) ∧ cases.Resolves p

end

/-! ## Members do not overlap -/

section

variable (m : Loc → ℤ) {forward : Bool}

def InMember (p : Spot) (names : List String) (l : Loc) : Prop :=
  ∃ x ∈ names, .field x :: p.loc <:+ l

theorem InMember.mono {p : Spot} {names names' : List String} {l : Loc} (h : InMember p names l)
    (hsub : names ⊆ names') : InMember p names' l := by
  rcases h with ⟨x, hx, hl⟩
  exact ⟨x, hsub hx, hl⟩

theorem inMember_named {name : String} (hname : name ≠ "") (t : Ty) (p : Spot) :
    ∀ l ∈ t.scalars m (p.sub name), InMember p [name] l := by
  intro l hl
  have hunder := t.scalars_under m (p.sub name) l hl
  rw [Spot.loc_sub, Loc.sub_of_ne hname] at hunder
  exact ⟨name, List.mem_singleton_self name, hunder⟩

theorem sub_empty (p : Spot) : p.sub "" = p := by
  rw [Spot.sub, Loc.sub, if_pos rfl]

mutual

/-- The value of an anonymous member lies in the members that it adds. -/
theorem Ty.inMember_names (t : Ty) {siblings : List (String × Ty)}
    (hacc : t.Accepted forward siblings) (hanon : t.isAnonymous = true) (p : Spot) :
    ∀ l ∈ t.scalars m p, InMember p t.names l := by
  cases t with
  | native n => cases hanon
  | typedef name base => cases hanon
  | void =>
      intro l hl
      simp [Ty.scalars] at hl
  | container fields =>
      rw [Ty.scalars, Ty.names]
      exact fields.inMember_names hacc p
  | «switch» up compareTo cases =>
      rcases hacc with ⟨-, compared, -, hcases⟩
      rw [Ty.scalars, Ty.names]
      exact cases.inMember_names hcases _ p
  | array count element =>
      intro l hl
      rw [Ty.scalars, List.mem_append, List.mem_flatMap] at hl
      rcases hl with hl | ⟨j, -, hl⟩
      · apply (inMember_named m (by decide) count p l hl).mono
        simp [Ty.names]
      · have hunder := element.scalars_under m _ l hl
        rw [Spot.loc_elem, Spot.loc_sub, Loc.sub_of_ne (by decide)] at hunder
        refine ⟨"elements", by simp [Ty.names], (List.suffix_cons _ _).trans hunder⟩
  | rest element => exact hacc.elim
  | bitfield fields => exact hacc.elim
  | option base => exact hacc.elim

theorem Fields.inMember_names (fields : Fields) {siblings : List (String × Ty)}
    (hacc : fields.Accepted forward siblings) (p : Spot) :
    ∀ l ∈ fields.scalars m p, InMember p fields.names l := by
  cases fields with
  | nil =>
      intro l hl
      simp [Fields.scalars] at hl
  | cons name t fields =>
      rcases hacc with ⟨hat, hmember, -, harest⟩
      intro l hl
      rw [Fields.scalars, List.mem_append] at hl
      rw [Fields.names]
      rcases hl with hl | hl
      · apply InMember.mono _ (List.subset_append_left _ _)
        split
        · rename_i hname
          rw [hname, sub_empty] at hl
          exact t.inMember_names hat (hmember hname) p l hl
        · rename_i hname
          exact inMember_named m hname t p l hl
      · exact (fields.inMember_names harest p l hl).mono (List.subset_append_right _ _)

theorem Cases.inMember_names (cases : Cases) {compared : Ty}
    (hacc : cases.Accepted forward compared) (discriminant : Loc) (p : Spot) :
    ∀ l ∈ cases.scalars m discriminant p, InMember p cases.names l := by
  cases cases with
  | nil =>
      intro l hl
      simp [Cases.scalars] at hl
  | cons name t value cases =>
      rcases hacc with ⟨hat, hmember, -, harest⟩
      intro l hl
      rw [Cases.scalars] at hl
      rw [Cases.names]
      split at hl
      · apply InMember.mono _ (List.subset_append_left _ _)
        split
        · rename_i hname
          rw [hname, sub_empty] at hl
          exact t.inMember_names hat (hmember hname) p l hl
        · rename_i hname
          exact inMember_named m hname t p l hl
      · exact (cases.inMember_names harest discriminant p l hl).mono
          (List.subset_append_right _ _)

end

theorem disjoint_fields {name : String} {t : Ty} {fields : Fields}
    {siblings : List (String × Ty)}
    (hacc : (Fields.cons name t fields).Accepted forward siblings) (p : Spot) :
    (t.scalars m (p.sub name)).Disjoint (fields.scalars m p) := by
  rcases hacc with ⟨hat, hmember, hnames, harest⟩
  intro l hl hrest
  have hone : (Fields.cons name t .nil).Accepted forward siblings := by
    exact ⟨hat, hmember, by simp [Fields.names], trivial⟩
  have hfirst := (Fields.cons name t .nil).inMember_names m hone p l (by
    simpa [Fields.scalars] using hl)
  rcases hfirst with ⟨x, hx, hxl⟩
  rcases fields.inMember_names m harest p l hrest with ⟨y, hy, hyl⟩
  have heq : x = y := by
    simpa using cons_suffix_unique hxl hyl
  subst heq
  exact hnames hx hy

theorem length_not_mem_element (element : Ty) (p : Spot) (j : ℕ) :
    (p.sub "length").loc ∉ element.scalars m ((p.sub "elements").elem j) := by
  intro hl
  have hunder := element.scalars_under m _ _ hl
  have hlen := hunder.length_le
  rw [Spot.loc_elem, Spot.loc_sub, Spot.loc_sub] at hlen
  simp [Loc.sub] at hlen

theorem disjoint_elements (element : Ty) (p : Spot) {i j : ℕ} (h : i ≠ j) :
    (element.scalars m (p.elem i)).Disjoint (element.scalars m (p.elem j)) := by
  intro l hi hj
  have heq := cons_suffix_unique (element.scalars_under m _ l hi) (element.scalars_under m _ l hj)
  simp only [Sel.index.injEq, Int.natCast_inj] at heq
  exact h heq

end

/-! ## Discriminants -/

section

variable {m m' : Loc → ℤ}

theorem eqChars_congr {l : Loc} (chars : List Char) (i : ℕ)
    (h : ∀ j, i ≤ j → j < i + chars.length →
      m' (.index j :: l.sub "elements") = m (.index j :: l.sub "elements")) :
    eqChars m' l chars i = eqChars m l chars i := by
  induction chars generalizing i with
  | nil => rfl
  | cons c chars ih =>
      have hrest := ih (i + 1) fun j hlo hhi => h j (by omega) (by
        rw [List.length_cons]
        omega)
      push_cast at hrest
      rw [eqChars, eqChars, h i (le_refl i) (by simp), hrest]

/-- A discriminant that was copied selects the same case. -/
theorem holds_of_copied {value : CaseValue} {compared : Ty} (hmatches : value.Matches compared)
    {p : Spot} {name : String}
    (hcopied : ∀ l ∈ compared.scalars m (p.sub name), m' l = m l) :
    value.holds m' (p.sub name).loc = value.holds m (p.sub name).loc := by
  cases value with
  | default => rfl
  | int value =>
      cases compared with
      | native n => rw [CaseValue.holds, CaseValue.holds, hcopied _ (List.mem_singleton_self _)]
      | _ => exact hmatches.elim
  | bool value =>
      cases compared with
      | native n => rw [CaseValue.holds, CaseValue.holds, hcopied _ (List.mem_singleton_self _)]
      | _ => exact hmatches.elim
  | string value =>
      cases compared with
      | typedef typeName base =>
          have hbase : base = .array (.native .varint) (.native .i8) := hmatches
          subst hbase
          set l := (p.sub name).loc with hl
          have hlength : m' (l.sub "length") = m (l.sub "length") := by
            apply hcopied
            simp [Ty.scalars, ← hl, Spot.loc_sub, Spot.loc_mk_nil]
          have helement : ∀ j : ℕ, (j : ℤ) < m (l.sub "length") →
              m' (.index j :: l.sub "elements") = m (.index j :: l.sub "elements") := by
            intro j hj
            apply hcopied
            simp [Ty.scalars, ← hl, Spot.loc_sub, Spot.loc_mk_nil, Spot.loc_elem, countAt, hj]
          rw [CaseValue.holds, CaseValue.holds, hlength]
          by_cases hlen : m (l.sub "length") = value.toList.length
          · have hchars : eqChars m' l value.toList (0 : ℕ) = eqChars m l value.toList (0 : ℕ) :=
              eqChars_congr value.toList 0 fun j _ hj => helement j (by omega)
            rw [Nat.cast_zero] at hchars
            rw [hchars]
          · simp [hlen]
      | _ => exact hmatches.elim

end

end CmcServer.ProtoDef
