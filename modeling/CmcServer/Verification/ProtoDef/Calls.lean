import CmcServer.Model.ProtoDef.Discriminants
import CmcServer.Lib.Yields
import Mathlib.Data.List.Forall2

/-! # The calls of the generators

Where a method of a type returns code, the methods of the types inside it have returned theirs, with
the destinations and the parents that the ways through the type tree give. But for the type of an
option their code is part of it. -/

namespace CmcServer.ProtoDef

/-! ## Parts of the code -/

def GivesCode (x : Gen String) (code : String) : Prop := ∃ k k', x k = some (code, k')

theorem yields_givesCode (x : Gen String) : Yields x (GivesCode x) :=
  fun k _ k' h => ⟨k, k', h⟩

def IsPart (code whole : String) : Prop := code.toList <:+: whole.toList

namespace IsPart

variable {code whole : String}

theorem refl (code : String) : IsPart code code := List.infix_refl _

theorem trans {other : String} (h : IsPart code whole) (h' : IsPart whole other) :
    IsPart code other := List.IsInfix.trans h h'

theorem append (h : IsPart code whole) (back : String) : IsPart code (whole ++ back) := by
  rw [IsPart, String.toList_append]
  exact List.IsInfix.trans h (List.prefix_append _ _).isInfix

theorem after (h : IsPart code whole) (front : String) : IsPart code (front ++ whole) := by
  rw [IsPart, String.toList_append]
  exact List.IsInfix.trans h (List.suffix_append _ _).isInfix

end IsPart

/-- The method returns a part of the code. -/
def Contains (code : String) (x : Gen String) : Prop := ∃ part, GivesCode x part ∧ IsPart part code

section

variable {x y : Gen String} {whole : String}

theorem Contains.append (h : Contains whole x) (back : String) : Contains (whole ++ back) x := by
  obtain ⟨part, hgives, hpart⟩ := h
  exact ⟨part, hgives, hpart.append back⟩

theorem Contains.after (h : Contains whole x) (front : String) : Contains (front ++ whole) x := by
  obtain ⟨part, hgives, hpart⟩ := h
  exact ⟨part, hgives, hpart.after front⟩

theorem yields_contains (x : Gen String) : Yields x fun code => Contains code x :=
  fun k code k' h => ⟨code, ⟨k, k', h⟩, .refl code⟩

end

/-! ## One call -/

section

variable {dir : Dir} {rnd : ℕ → ℕ} {parents : List FieldTrees} {place name : String} {t : TypeTree}

theorem yields_contains_field {fields : FieldTrees} (h : (name, t) ∈ fields.toList)
    (run : Option ℤ) : Yields (fields.genText dir rnd run parents place) fun code =>
      Contains code (t.genText dir rnd parents (accessFieldText place name)) := by
  cases fields with
  | nil => cases h
  | cons other t' fields =>
      rw [FieldTrees.genText]
      rcases List.mem_cons.mp h with heq | hrest
      · cases heq
        refine .bind (yields_contains _) fun code hcode => .ite (fun _ => ?_) fun _ => ?_
        · exact .bind .trivial fun rest _ => .pure ((hcode.after _).append _)
        · exact .bind .trivial fun rest _ => .pure ((hcode.after _).append _)
      · refine .bind .trivial fun code _ => .ite (fun _ => ?_) fun _ => ?_
        · exact .bind (yields_contains_field hrest none) fun rest hcode => .pure (hcode.after _)
        · exact .bind (yields_contains_field hrest _) fun rest hcode => .pure (hcode.after _)

theorem fieldCode_of_not_void (h : t.isVoid = false) (code : Gen String) :
    fieldCode t code = code := by
  rw [fieldCode, h]
  rfl

theorem yields_contains_case {cases : CaseTrees} (h : (name, t) ∈ cases.toList)
    (hvoid : t.isVoid = false) (compareToType : TypeTree) :
    Yields (cases.genSwitchText dir rnd compareToType place) fun code =>
      Contains code (t.genText dir rnd [] (accessFieldText place name)) := by
  cases cases with
  | nil => cases h
  | default t' =>
      cases List.mem_singleton.mp h
      rw [CaseTrees.genSwitchText, fieldCode_of_not_void hvoid]
      exact .bind (yields_contains _) fun code hcode =>
        .pure (((hcode.after _).after _).append _)
  | cons other t' value cases =>
      rw [CaseTrees.genSwitchText]
      rcases List.mem_cons.mp h with heq | hrest
      · cases heq
        rw [fieldCode_of_not_void hvoid]
        refine .bind .trivial fun value _ => .bind (yields_contains _) fun code hcode => ?_
        exact .bind .trivial fun rest _ => .pure ((((hcode.after _).after _).append _).append _)
      · refine .bind .trivial fun value _ => .bind .trivial fun code _ => ?_
        exact .bind (yields_contains_case hrest hvoid compareToType) fun rest hcode =>
          .pure (hcode.after _)

theorem yields_contains_chain {cases : CaseTrees} (h : (name, t) ∈ cases.toList)
    (hvoid : t.isVoid = false) (discriminant : String) :
    Yields (cases.genChainText dir rnd discriminant place) fun code =>
      Contains code (t.genText dir rnd [] (accessFieldText place name)) := by
  cases cases with
  | nil => cases h
  | default t' =>
      cases List.mem_singleton.mp h
      rw [CaseTrees.genChainText]
      exact .bind (yields_contains _) fun code hcode =>
        .pure (((hcode.after _).after _).append _)
  | cons other t' value cases =>
      rw [CaseTrees.genChainText]
      rcases List.mem_cons.mp h with heq | hrest
      · cases heq
        rw [fieldCode_of_not_void hvoid]
        refine .bind (yields_contains _) fun code hcode => .bind .trivial fun rest _ => .pure ?_
        exact (((hcode.after _).after _).append _).append _
      · refine .bind .trivial fun code _ => ?_
        exact .bind (yields_contains_chain hrest hvoid discriminant) fun rest hcode =>
          .pure ((hcode.after _).after _)

/-- The call with the loop variable that has been drawn for it. -/
def Move.draw (i : ℕ) : Move → Move
  | .element _ => .element i
  | move => move

theorem yields_randint (rnd : ℕ → ℕ) : Yields (randint rnd) fun i => ∃ k, i = rnd k := by
  intro k i k' h
  cases h
  exact ⟨k, rfl⟩

/-- The method calls the method of the type at the end of the moves, with the variables drawn for
them, and the code of that is part of its own unless an option drops it. -/
def CallsInto (dir : Dir) (rnd : ℕ → ℕ) (parents : List FieldTrees) (place : String)
    (moves : List Move) (t : TypeTree) (code : String) : Prop :=
  ∃ drawn part, List.Forall₂ (fun move move' => ∃ k, move' = move.draw (rnd k)) moves drawn ∧
    GivesCode (t.genText dir rnd parents (destinationText place drawn)) part ∧
    (.value ∉ moves → IsPart part code)

theorem Contains.elementsText {code : String} {x : Gen String} (h : Contains code x) (i : ℕ)
    (length : String) : Contains (elementsText i length code) x :=
  (h.after _).append _

theorem Contains.callsInto {move : Move} {code : String} {k : ℕ}
    (h : Contains code (t.genText dir rnd parents ((move.draw (rnd k)).destinationText place))) :
    CallsInto dir rnd parents place [move] t code := by
  obtain ⟨part, hgives, hpart⟩ := h
  exact ⟨[move.draw (rnd k)], part, .cons ⟨k, rfl⟩ .nil, hgives, fun _ => hpart⟩

/-- A method makes the calls for the types inside its own. -/
theorem Inside.calls {t' : TypeTree} {parents' : List FieldTrees} {move : Move}
    (h : Inside t parents move t' parents') (dir : Dir) (rnd : ℕ → ℕ) (place : String) :
    Yields (t.genText dir rnd parents place) (CallsInto dir rnd parents' place [move] t') := by
  cases h with
  | @field fields _ name _ hmem =>
      rw [TypeTree.genText]
      exact (yields_contains_field hmem none).mono fun code hcode => hcode.callsInto (k := 0)
  | @case _ _ _ cases _ name _ hmem hvoid =>
      rw [TypeTree.genText]
      refine .ite (fun _ => .failure) fun _ => .bind .trivial fun found _ => ?_
      refine .ite (fun _ => ?_) fun _ => ?_
      · exact (yields_contains_chain hmem hvoid _).mono fun code hcode => hcode.callsInto (k := 0)
      · refine .bind (yields_contains_case hmem hvoid found.2) fun code hcode => .pure ?_
        exact ((hcode.after _).append _).callsInto (k := 0)
  | @count count element =>
      rw [TypeTree.genText]
      refine .bind (yields_contains _) fun countCode hcode => .bind .trivial fun i _ => ?_
      refine .bind .trivial fun code _ => .pure ?_
      exact (((((hcode.after _).append _).append _).after _).append _).callsInto (k := 0)
  | @element count element _ i =>
      rw [TypeTree.genText]
      refine .bind .trivial fun countCode _ => .bind (yields_randint rnd) fun i hi => ?_
      obtain ⟨k, rfl⟩ := hi
      refine .bind (yields_contains _) fun code hcode => .pure ?_
      exact (((hcode.elementsText _ _).after _).after _ |>.append _).callsInto (k := k)
  | @restElement element _ i =>
      rw [TypeTree.genText]
      refine .bind (yields_randint rnd) fun i hi => ?_
      obtain ⟨k, rfl⟩ := hi
      refine .bind (yields_contains _) fun code hcode => .pure ?_
      exact (((hcode.elementsText _ _).after _).after _ |>.append _).callsInto (k := k)
  | @value base =>
      rw [TypeTree.genText]
      refine .bind (yields_givesCode _) fun code hcode => .pure ?_
      exact ⟨[.value], code, .cons ⟨0, rfl⟩ .nil, hcode, fun h => absurd List.mem_cons_self h⟩

/-- The generators make the calls of all ways through a type tree. -/
theorem Leads.calls {t' : TypeTree} {parents' : List FieldTrees} {moves : List Move}
    (h : Leads t parents moves t' parents') (dir : Dir) (rnd : ℕ → ℕ) (place : String) :
    Yields (t.genText dir rnd parents place) (CallsInto dir rnd parents' place moves t') := by
  induction h generalizing place with
  | refl =>
      exact (yields_givesCode _).mono fun code hcode =>
        ⟨[], code, .nil, hcode, fun _ => .refl code⟩
  | step hinside _ ih =>
      refine (hinside.calls dir rnd place).mono ?_
      rintro code ⟨drawn, part, hdrawn, ⟨k, k', hpart⟩, hcode⟩
      obtain ⟨drawn', part', hdrawn', hgives, hpart'⟩ :=
        ih (destinationText place drawn) k _ k' hpart
      refine ⟨drawn ++ drawn', part', List.rel_append hdrawn hdrawn', ?_, fun hvalue => ?_⟩
      · rw [destinationText, List.foldl_append]
        exact hgives
      · rw [List.mem_cons, not_or] at hvalue
        exact (hpart' hvalue.2).trans (hcode (by simpa using hvalue.1))

end

end CmcServer.ProtoDef
