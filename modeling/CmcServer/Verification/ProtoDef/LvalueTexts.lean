import CmcServer.Model.ProtoDef.Discriminants
import CmcServer.Verification.ProtoDef.Places

/-! # Lvalues and their text

`access_field` and `get_parent_field` work on strings. On the text of an emitted lvalue they do what
`accessField` and `getParentField` do on the lvalue itself, and the text says which lvalue it is. -/

namespace CmcServer.ProtoDef

/-! ## Names -/

def isNameChar (c : Char) : Bool := c.isAlphanum || c = '_'

/-- A C identifier or the empty name of an anonymous field. -/
def IsName (name : String) : Prop := ∀ c ∈ name.toList, isNameChar c = true

instance (name : String) : Decidable (IsName name) :=
  decidable_of_iff (name.toList.all isNameChar = true) List.all_eq_true

theorem IsName.not_mem {name : String} (h : IsName name) {c : Char} (hc : isNameChar c = false) :
    c ∉ name.toList := by
  intro hmem
  rw [h c hmem] at hc
  cases hc

theorem isNameChar_of_mem_repr {i : ℕ} {c : Char} (h : c ∈ (Nat.repr i).toList) :
    isNameChar c = true := by
  rw [Nat.toList_repr] at h
  have hdigit := Nat.isDigit_of_mem_toDigits (by decide) (by decide) h
  simp [isNameChar, Char.isAlphanum, hdigit]

/-- A text is split in one way at its last character outside a class. -/
theorem split_unique {α : Type*} {p : α → Bool} {a b rest rest' : List α} {x y : α}
    (ha : ∀ c ∈ a, p c = true) (hb : ∀ c ∈ b, p c = true) (hx : p x = false) (hy : p y = false)
    (h : rest ++ x :: a = rest' ++ y :: b) : rest = rest' ∧ x = y ∧ a = b := by
  induction rest generalizing rest' with
  | nil =>
      cases rest' with
      | nil => exact ⟨rfl, List.cons.inj h⟩
      | cons c rest' =>
          obtain ⟨-, htail⟩ := List.cons.inj h
          have hmem : y ∈ a := htail ▸ List.mem_append_right rest' List.mem_cons_self
          rw [ha y hmem] at hy
          cases hy
  | cons c rest ih =>
      cases rest' with
      | nil =>
          obtain ⟨-, htail⟩ := List.cons.inj h
          have hmem : x ∈ b := htail ▸ List.mem_append_right rest List.mem_cons_self
          rw [hb x hmem] at hx
          cases hx
      | cons c' rest' =>
          obtain ⟨hhead, htail⟩ := List.cons.inj h
          obtain ⟨hrest, hxy, hab⟩ := ih htail
          exact ⟨by rw [hhead, hrest], hxy, hab⟩

theorem repr_injective {i j : ℕ} (h : (Nat.repr i).toList = (Nat.repr j).toList) : i = j := by
  rw [Nat.toList_repr, Nat.toList_repr] at h
  have hi := Nat.ofDigitChars_ten_toDigits (n := i)
  rw [h, Nat.ofDigitChars_ten_toDigits] at hi
  exact hi.symm

/-! ## Reading lvalues back -/

def Step.Named : Step → Prop
  | .arrow name => IsName name
  | .dot name => IsName name
  | .index _ => True

def LVal.Named (place : LVal) : Prop := ∀ step ∈ place.steps, step.Named

theorem arrow_text (name : String) :
    (Step.arrow name).text.toList = '-' :: '>' :: name.toList := by
  simp [Step.text, toString]

theorem dot_text (name : String) : (Step.dot name).text.toList = '.' :: name.toList := by
  simp [Step.text, toString]

theorem index_text (i : ℕ) :
    (Step.index i).text.toList = '[' :: 'i' :: ((Nat.repr i).toList ++ [']']) := by
  simp [Step.text, toString]

/-- What stands in front of the last separator, the separator and the name behind it. -/
def lastPart (root : Root) : List Step → Option (List Char × Char × List Char)
  | [] =>
      match root with
      | .packet => none
      | .deref => some ("(*packet".toList, ')', [])
      | .addr => some ("(&packet".toList, ')', [])
  | .arrow name :: steps => some ((stepsText root steps).toList ++ ['-'], '>', name.toList)
  | .dot name :: steps => some ((stepsText root steps).toList, '.', name.toList)
  | .index i :: steps =>
      some ((stepsText root steps).toList ++ '[' :: 'i' :: (Nat.repr i).toList, ']', [])

theorem lastPart_none {root : Root} {steps : List Step} (h : lastPart root steps = none) :
    root = .packet ∧ steps = [] := by
  cases steps with
  | nil =>
      cases root with
      | packet => exact ⟨rfl, rfl⟩
      | deref => cases h
      | addr => cases h
  | cons step steps => cases step <;> cases h

theorem lastPart_some {root : Root} {steps : List Step} (hsteps : ∀ step ∈ steps, step.Named)
    {front name : List Char} {x : Char} (h : lastPart root steps = some (front, x, name)) :
    (stepsText root steps).toList = front ++ x :: name ∧ isNameChar x = false ∧
      ∀ c ∈ name, isNameChar c = true := by
  cases steps with
  | nil =>
      cases root with
      | packet => cases h
      | deref =>
          cases h
          exact ⟨by simp [stepsText, Root.text], by decide, by simp⟩
      | addr =>
          cases h
          exact ⟨by simp [stepsText, Root.text], by decide, by simp⟩
  | cons step steps =>
      have hstep : step.Named := hsteps step List.mem_cons_self
      cases step with
      | arrow name =>
          cases h
          exact ⟨by simp [stepsText, arrow_text], by decide, hstep⟩
      | dot name =>
          cases h
          exact ⟨by simp [stepsText, dot_text], by decide, hstep⟩
      | index i =>
          cases h
          exact ⟨by simp [stepsText, index_text], by decide, by simp⟩

theorem lastPart_congr {root root' : Root} {steps steps' : List Step}
    (hsteps : ∀ step ∈ steps, step.Named) (hsteps' : ∀ step ∈ steps', step.Named)
    (h : stepsText root steps = stepsText root' steps') :
    lastPart root steps = lastPart root' steps' := by
  have hpacket : ∀ c ∈ (stepsText .packet []).toList, isNameChar c = true :=
    List.all_eq_true.mp (by decide)
  cases hpart : lastPart root steps with
  | none =>
      obtain ⟨rfl, rfl⟩ := lastPart_none hpart
      cases hpart' : lastPart root' steps' with
      | none => rfl
      | some part =>
          obtain ⟨front, x, name⟩ := part
          obtain ⟨htext, hx, -⟩ := lastPart_some hsteps' hpart'
          have hmem : x ∈ (stepsText .packet []).toList := by simp [h, htext]
          rw [hpacket x hmem] at hx
          cases hx
  | some part =>
      obtain ⟨front, x, name⟩ := part
      obtain ⟨htext, hx, hname⟩ := lastPart_some hsteps hpart
      cases hpart' : lastPart root' steps' with
      | none =>
          obtain ⟨rfl, rfl⟩ := lastPart_none hpart'
          have hmem : x ∈ (stepsText .packet []).toList := by simp [← h, htext]
          rw [hpacket x hmem] at hx
          cases hx
      | some part' =>
          obtain ⟨front', y, name'⟩ := part'
          obtain ⟨htext', hy, hname'⟩ := lastPart_some hsteps' hpart'
          rw [h, htext'] at htext
          obtain ⟨hfront, hxy, hnames⟩ := split_unique hname' hname hy hx htext
          rw [hfront, hxy, hnames]

theorem stepsText_injective {root root' : Root} {steps steps' : List Step}
    (hsteps : ∀ step ∈ steps, step.Named) (hsteps' : ∀ step ∈ steps', step.Named)
    (h : stepsText root steps = stepsText root' steps') : root = root' ∧ steps = steps' := by
  induction steps generalizing steps' with
  | nil =>
      have hpart := lastPart_congr hsteps hsteps' h
      cases steps' with
      | nil => cases root <;> cases root' <;> simp_all [lastPart]
      | cons step' steps' => cases root <;> cases step' <;> simp_all [lastPart]
  | cons step steps ih =>
      have hpart := lastPart_congr hsteps hsteps' h
      cases steps' with
      | nil => cases root' <;> cases step <;> simp_all [lastPart]
      | cons step' steps' =>
          have hrest : ∀ s ∈ steps, s.Named := fun s hs => hsteps s (List.mem_cons_of_mem _ hs)
          have hrest' : ∀ s ∈ steps', s.Named := fun s hs => hsteps' s (List.mem_cons_of_mem _ hs)
          have hfront : (stepsText root steps).toList = (stepsText root' steps').toList →
              root = root' ∧ steps = steps' := fun hfront =>
            ih hrest hrest' (String.toList_injective hfront)
          cases step <;> cases step' <;>
            simp only [lastPart, Option.some.injEq, Prod.mk.injEq] at hpart
          case arrow.arrow name name' =>
            obtain ⟨hroot, rfl⟩ := hfront (List.append_cancel_right hpart.1)
            rw [String.toList_injective hpart.2.2]
            exact ⟨hroot, rfl⟩
          case dot.dot name name' =>
            obtain ⟨hroot, rfl⟩ := hfront hpart.1
            rw [String.toList_injective hpart.2.2]
            exact ⟨hroot, rfl⟩
          case index.index i j =>
            have hname : ∀ k : ℕ, ∀ c ∈ 'i' :: (Nat.repr k).toList, isNameChar c = true := by
              intro k c hc
              rcases List.mem_cons.mp hc with rfl | hc
              · rfl
              · exact isNameChar_of_mem_repr hc
            obtain ⟨htext, -, hindex⟩ := split_unique (hname i) (hname j) rfl rfl hpart.1
            obtain ⟨hroot, rfl⟩ := hfront htext
            rw [repr_injective (List.cons.inj hindex).2]
            exact ⟨hroot, rfl⟩
          all_goals exact absurd hpart.2.1 (by decide)

/-- An lvalue is known from its text. -/
theorem LVal.text_injective {place place' : LVal} (hplace : place.Named) (hplace' : place'.Named)
    (h : place.text = place'.text) : place = place' := by
  obtain ⟨root, steps⟩ := place
  obtain ⟨root', steps'⟩ := place'
  obtain ⟨rfl, rfl⟩ := stepsText_injective hplace hplace' h
  rfl

/-! ## Strings -/

theorem beforeLastDot_append {cs : List Char} (front : List Char) (h : '.' ∉ cs) :
    beforeLastDot (front ++ cs) = beforeLastDot front := by
  have hskip : ∀ c ∈ cs.reverse, decide (c ≠ '.') = true := by
    intro c hc
    rw [decide_eq_true_eq]
    rintro rfl
    exact h (List.mem_reverse.mp hc)
  rw [beforeLastDot, beforeLastDot, List.reverse_append, List.dropWhile_append_of_pos hskip]

theorem beforeLastDot_dot (front : List Char) : beforeLastDot (front ++ ['.']) = front := by
  simp [beforeLastDot]

theorem beforeArrow_arrow {cs : List Char} (h : '-' ∉ cs) (back : List Char) :
    beforeArrow (cs ++ '-' :: '>' :: back) = cs := by
  induction cs with
  | nil => rfl
  | cons c cs ih =>
      rw [List.mem_cons, not_or] at h
      rw [List.cons_append, beforeArrow, ih h.2]
      rintro _ rfl
      exact absurd rfl h.1

theorem beforeArrow_append {front : List Char} (h : ['-', '>'] <:+: front) (cs : List Char) :
    beforeArrow (front ++ cs) = beforeArrow front := by
  induction front with
  | nil => cases List.infix_nil.mp h
  | cons c front ih =>
      by_cases harrow : ['-', '>'] <+: c :: front
      · obtain ⟨back, hback⟩ := harrow
        rw [← hback]
        rfl
      · have hrest : ['-', '>'] <:+: front := by
          rcases List.infix_cons_iff.mp h with hfront | hinfix
          · exact absurd hfront harrow
          · exact hinfix
        have hkeep : ∀ front', front <+: front' →
            beforeArrow (c :: front') = c :: beforeArrow front' := by
          intro front' hfront
          rw [beforeArrow]
          rintro back rfl rfl
          cases front with
          | nil => cases List.infix_nil.mp hrest
          | cons d front =>
              rw [(List.cons_prefix_cons.mp hfront).1] at harrow
              exact harrow (List.prefix_append ['-', '>'] front)
        rw [List.cons_append, hkeep _ (List.prefix_append front cs), ih hrest,
          hkeep _ (List.prefix_refl front)]

/-! ## Emitted lvalues -/

/-- The lvalues that the generators build. -/
inductive LVal.Formed : LVal → Prop
  | root (root : Root) : Formed ⟨root, []⟩
  | field {place : LVal} {name : String} :
      Formed place → IsName name → Formed (accessField place name)
  | element {place : LVal} {i : ℕ} : Formed place → place.steps ≠ [] → Formed (place.at i)

theorem accessField_empty (place : LVal) : accessField place "" = place := if_pos rfl

theorem accessField_arrow {name : String} (hname : name ≠ "") {root : Root}
    (hroot : root ≠ .deref) :
    accessField ⟨root, []⟩ name = ⟨root, [.arrow name]⟩ := by
  simp [accessField, hname, hroot]

theorem accessField_dot {place : LVal} {name : String} (hname : name ≠ "")
    (h : ¬ (place.steps = [] ∧ place.root ≠ .deref)) :
    accessField place name = ⟨place.root, .dot name :: place.steps⟩ := by
  rw [accessField, if_neg hname, if_neg h]

/-- A field is cut off again. -/
theorem getParentField_accessField (place : LVal) {name : String} (hname : name ≠ "") :
    getParentField (accessField place name) = place := by
  by_cases h : place.steps = [] ∧ place.root ≠ .deref
  · obtain ⟨root, steps⟩ := place
    obtain ⟨rfl, hroot⟩ := h
    rw [accessField_arrow hname hroot]
    simp [getParentField, Step.isDot]
  · rw [accessField_dot hname h]
    simp [getParentField, Step.isDot]

theorem accessField_cases {motive : LVal → Prop} (place : LVal) (name : String)
    (empty : name = "" → motive place)
    (arrow : ∀ root, name ≠ "" → root ≠ .deref → place = ⟨root, []⟩ →
      motive ⟨root, [.arrow name]⟩)
    (dot : name ≠ "" → ¬ (place.steps = [] ∧ place.root ≠ .deref) →
      motive ⟨place.root, .dot name :: place.steps⟩) : motive (accessField place name) := by
  by_cases hname : name = ""
  · rw [hname, accessField_empty]
    exact empty hname
  · by_cases h : place.steps = [] ∧ place.root ≠ .deref
    · obtain ⟨root, steps⟩ := place
      obtain ⟨rfl, hroot⟩ := h
      rw [accessField_arrow hname hroot]
      exact arrow root hname hroot rfl
    · rw [accessField_dot hname h]
      exact dot hname h

theorem root_text_front (root : Root) (steps : List Step) :
    root.text.toList <+: (stepsText root steps).toList := by
  induction steps with
  | nil => exact List.prefix_refl _
  | cons step steps ih =>
      rw [stepsText, String.toList_append]
      exact ih.trans (List.prefix_append _ _)

namespace LVal.Formed

variable {place : LVal}

theorem named (h : place.Formed) : place.Named := by
  induction h with
  | root root =>
      intro step hstep
      cases hstep
  | @field place name _ hname ih =>
      refine accessField_cases (motive := LVal.Named) place name (fun _ => ih) ?_ ?_
      · intro root _ _ _ step hstep
        rw [List.mem_singleton.mp hstep]
        exact hname
      · intro _ _ step hstep
        rcases List.mem_cons.mp hstep with rfl | hstep
        · exact hname
        · exact ih step hstep
  | element _ _ ih =>
      intro step hstep
      rcases List.mem_cons.mp hstep with rfl | hstep
      · trivial
      · exact ih step hstep

theorem parent (h : place.Formed) : (getParentField place).Formed := by
  induction h with
  | root root => exact .root root
  | @field place name hplace _ ih =>
      by_cases hname : name = ""
      · rw [hname, accessField_empty]
        exact ih
      · rw [getParentField_accessField place hname]
        exact hplace
  | element _ _ ih => exact ih

/-- The first selection is an arrow, or a dot behind `(*packet)`. -/
theorem selected (h : place.Formed) (hsteps : place.steps ≠ []) :
    (place.root ≠ .deref → ['-', '>'] <:+: place.text.toList) ∧
      (place.root = .deref → '.' ∈ place.text.toList) := by
  induction h with
  | root root => exact absurd rfl hsteps
  | @field place name _ _ ih =>
      revert hsteps
      refine accessField_cases (motive := fun p => p.steps ≠ [] →
        (p.root ≠ .deref → ['-', '>'] <:+: p.text.toList) ∧
          (p.root = .deref → '.' ∈ p.text.toList)) place name (fun _ => ih) ?_ ?_
      · intro root _ hroot _ _
        refine ⟨fun _ => ⟨root.text.toList, name.toList, ?_⟩, fun h => absurd h hroot⟩
        simp [LVal.text, stepsText, arrow_text]
      · intro _ hselected _
        rw [LVal.text, stepsText, String.toList_append, dot_text]
        constructor
        · intro hroot
          have hsteps : place.steps ≠ [] := fun hsteps => hselected ⟨hsteps, hroot⟩
          exact ((ih hsteps).1 hroot).trans (List.prefix_append _ _).isInfix
        · exact fun _ => List.mem_append_right _ List.mem_cons_self
  | @element place i _ hplace ih =>
      rw [LVal.text, LVal.at, stepsText, String.toList_append]
      constructor
      · exact fun hroot => ((ih hplace).1 hroot).trans (List.prefix_append _ _).isInfix
      · exact fun hroot => List.mem_append_left _ ((ih hplace).2 hroot)

theorem accessFieldText (h : place.Formed) (name : String) :
    accessFieldText place.text name = (accessField place name).text := by
  refine accessField_cases (motive := fun p => ProtoDef.accessFieldText place.text name = p.text)
    place name ?_ ?_ ?_
  · intro hname
    rw [ProtoDef.accessFieldText, if_pos hname]
  · rintro root hname hroot rfl
    have htest : ¬ (['-', '>'] <:+: root.text.toList ∨ '[' ∈ root.text.toList ∨
        '*' ∈ root.text.toList) := by
      cases root with
      | packet => decide
      | deref => exact absurd rfl hroot
      | addr => decide
    rw [ProtoDef.accessFieldText, if_neg hname]
    refine (if_neg htest).trans (String.toList_injective ?_)
    simp [LVal.text, stepsText, arrow_text, toString]
  · intro hname hselected
    have htest : ['-', '>'] <:+: place.text.toList ∨ '[' ∈ place.text.toList ∨
        '*' ∈ place.text.toList := by
      by_cases hroot : place.root = .deref
      · have hfront := root_text_front place.root place.steps
        have hstar : '*' ∈ place.root.text.toList := by
          rw [hroot]
          decide
        exact Or.inr (Or.inr (hfront.subset hstar))
      · exact Or.inl ((h.selected fun hsteps => hselected ⟨hsteps, hroot⟩).1 hroot)
    rw [ProtoDef.accessFieldText, if_neg hname, if_pos htest]
    refine String.toList_injective ?_
    simp [LVal.text, stepsText, dot_text, toString]

theorem parentFieldText (h : place.Formed) :
    parentFieldText place.text = (getParentField place).text := by
  induction h with
  | root root =>
      cases root <;> rfl
  | @field place name hplace hname ih =>
      have hdot : '.' ∉ name.toList := hname.not_mem rfl
      refine accessField_cases (motive := fun p =>
        ProtoDef.parentFieldText p.text = (getParentField p).text) place name (fun _ => ih) ?_ ?_
      · rintro root - hroot rfl
        have htext : (LVal.text ⟨root, [.arrow name]⟩).toList =
            root.text.toList ++ '-' :: '>' :: name.toList := by
          simp [LVal.text, stepsText, arrow_text]
        have hnone : '.' ∉ root.text.toList ∧ '-' ∉ root.text.toList := by
          cases root <;> decide
        rw [ProtoDef.parentFieldText, htext, if_neg, beforeArrow_arrow hnone.2]
        · simp [getParentField, Step.isDot, LVal.text, stepsText]
        · simp [hnone.1, hdot]
      · intro _ _
        have htext : (LVal.text ⟨place.root, .dot name :: place.steps⟩).toList =
            place.text.toList ++ ['.'] ++ name.toList := by
          simp [LVal.text, stepsText, dot_text]
        rw [ProtoDef.parentFieldText, htext, if_pos (by simp), beforeLastDot_append _ hdot,
          beforeLastDot_dot]
        simp [getParentField, Step.isDot, LVal.text]
  | @element place i hplace hsteps ih =>
      have htext : (place.at i).text.toList =
          place.text.toList ++ '[' :: 'i' :: ((Nat.repr i).toList ++ [']']) := by
        rw [LVal.text, LVal.at, stepsText, String.toList_append, index_text]
        rfl
      have hindex : '.' ∉ '[' :: 'i' :: ((Nat.repr i).toList ++ [']']) := by
        simp only [List.mem_cons, List.mem_append, List.not_mem_nil, or_false, not_or]
        refine ⟨by decide, by decide, fun hmem => ?_, by decide⟩
        exact absurd (isNameChar_of_mem_repr hmem) (by decide)
      have hparent : getParentField (place.at i) = getParentField place := rfl
      rw [hparent, ← ih, ProtoDef.parentFieldText, ProtoDef.parentFieldText, htext]
      by_cases hdot : '.' ∈ place.text.toList
      · rw [if_pos (List.mem_append_left _ hdot), if_pos hdot, beforeLastDot_append _ hindex]
      · have hroot : place.root ≠ .deref := fun hroot => hdot ((hplace.selected hsteps).2 hroot)
        have harrow := (hplace.selected hsteps).1 hroot
        rw [if_neg (by simp only [List.mem_append, hdot, hindex, or_self, not_false_eq_true]),
          if_neg hdot, beforeArrow_append harrow]

end LVal.Formed

end CmcServer.ProtoDef
