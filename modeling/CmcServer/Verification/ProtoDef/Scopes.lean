import CmcServer.Verification.ProtoDef.Values

/-! # Siblings

The fields that `compareTo` names, found by the containers around a switch and not by the emitted
lvalues, and what a value and its encoding are by these fields. -/

namespace CmcServer.ProtoDef

open Bytes

/-- The field that a `compareTo` names, by the places of the containers around the switch. -/
def siblingOf (around : List Loc) (up : ℕ) (compareTo : String) : Loc :=
  (around.getD up []).sub compareTo

def Loc.elem (l : Loc) (j : ℕ) : Loc := .index j :: l.sub "elements"

theorem elem_loc (p : Spot) (j : ℕ) : ((p.sub "elements").elem j).loc = p.loc.elem j := by
  rw [Spot.loc_elem, Spot.loc_sub, Loc.elem]

section

variable (nbt : Loc → List UInt8) (m : Loc → ℤ)

mutual

/-- The encoding of the value at a place, in the containers around it. -/
def Ty.encoding : Ty → (around : List Loc) → Loc → List UInt8
  | .native n, _, l => n.bytes nbt m l
  | .typedef _ base, _, l => base.encoding [] l
  | .void, _, _ => []
  | .container fields, around, l => fields.encoding (l :: around) l
  | .switch up compareTo cases, around, l => cases.encoding (siblingOf around up compareTo) l
  | .array count element, _, l =>
      count.encoding [] (l.sub "length") ++
        (List.range (m (l.sub "length")).toNat).flatMap fun j => element.encoding [] (l.elem j)
  | .rest element, _, l =>
      (List.range (m (l.sub "length")).toNat).flatMap fun j => element.encoding [] (l.elem j)
  | .bitfield fields, _, l => be (bitsSize fields) (pack (bitsSize fields) l m fields 0 0)
  | .option base, _, l =>
      Native.u8.encode (m (l.sub "present")) ++
        if m (l.sub "present") = 0 then [] else base.encoding [] (l.sub "value")

def Fields.encoding : Fields → (around : List Loc) → Loc → List UInt8
  | .nil, _, _ => []
  | .cons name t fields, around, l =>
      t.encoding around (l.sub name) ++ fields.encoding around l

def Cases.encoding : Cases → (sibling : Loc) → Loc → List UInt8
  | .nil, _, _ => []
  | .cons name t value cases, sibling, l =>
      if value.holds m sibling then t.encoding [] (l.sub name) else cases.encoding sibling l

end

mutual

/-- The memory at a place holds a value of the type: numbers are in range, varints and counts are
not negative, and a sibling selects a case of each switch. -/
def Ty.ValueAt : Ty → (around : List Loc) → Loc → Prop
  | .native n, _, l => n.InRange (m l)
  | .typedef _ base, _, l => base.ValueAt [] l
  | .void, _, _ => True
  | .container fields, around, l => fields.ValueAt (l :: around) l
  | .switch up compareTo cases, around, l => cases.ValueAt (siblingOf around up compareTo) l
  | .array count element, _, l =>
      count.ValueAt [] (l.sub "length") ∧ CountInRange count.isWide (m (l.sub "length")) ∧
        ∀ j < (m (l.sub "length")).toNat, element.ValueAt [] (l.elem j)
  | .rest element, _, l =>
      CountInRange false (m (l.sub "length")) ∧
        ∀ j < (m (l.sub "length")).toNat, element.ValueAt [] (l.elem j)
  | .bitfield _, _, _ => True
  | .option base, _, l =>
      (m (l.sub "present") = 0 ∨ m (l.sub "present") = 1) ∧
        (m (l.sub "present") ≠ 0 → base.ValueAt [] (l.sub "value"))

def Fields.ValueAt : Fields → (around : List Loc) → Loc → Prop
  | .nil, _, _ => True
  | .cons name t fields, around, l => t.ValueAt around (l.sub name) ∧ fields.ValueAt around l

def Cases.ValueAt : Cases → (sibling : Loc) → Loc → Prop
  | .nil, _, _ => False
  | .cons name t value cases, sibling, l =>
      if value.holds m sibling then t.ValueAt [] (l.sub name) else cases.ValueAt sibling l

end

/-! ## Types of fixed size -/

theorem Ty.encode_fixed {t : Ty} (h : t.isVariable = false) (around : List Loc) (p : Spot) :
    t.encode nbt m p = t.encoding nbt m around p.loc := by
  induction t, h using Ty.fixed_induction generalizing around p with
  | native n h => rfl
  | typedef name base hbase h ih => exact ih [] ⟨p.loc, []⟩
  | bitfield fields h => rfl

theorem Ty.length_encoding_fixed {t : Ty} (h : t.isVariable = false) (around : List Loc)
    (l : Loc) : ((t.encoding nbt m around l).length : ℤ) = t.getSize := by
  have hsame : t.encode nbt m ⟨l, []⟩ = t.encoding nbt m around l :=
    Ty.encode_fixed nbt m h around ⟨l, []⟩
  rw [← hsame]
  exact length_encode_fixed nbt m t h ⟨l, []⟩

/-! ## Emitted lvalues -/

mutual

/-- The lvalue that each switch compares is the sibling that its `compareTo` names. -/
def Ty.ComparesSiblings : Ty → (around : List Loc) → Spot → Prop
  | .typedef _ base, _, p => base.ComparesSiblings [] ⟨p.loc, []⟩
  | .container fields, around, p => fields.ComparesSiblings (p.loc :: around) p
  | .switch up compareTo cases, around, p =>
      (p.parent.sub compareTo).loc = siblingOf around up compareTo ∧ cases.ComparesSiblings p
  | .array count element, _, p =>
      count.ComparesSiblings [] (p.sub "length") ∧
        ∀ j, element.ComparesSiblings [] ((p.sub "elements").elem j)
  | .rest element, _, p => ∀ j, element.ComparesSiblings [] ((p.sub "elements").elem j)
  | .option base, _, p => base.ComparesSiblings [] (p.sub "value")
  | .native _, _, _ | .void, _, _ | .bitfield _, _, _ => True

def Fields.ComparesSiblings : Fields → (around : List Loc) → Spot → Prop
  | .nil, _, _ => True
  | .cons name t fields, around, p =>
      t.ComparesSiblings around (p.sub name) ∧ fields.ComparesSiblings around p

def Cases.ComparesSiblings : Cases → Spot → Prop
  | .nil, _ => True
  | .cons name t _ cases, p => t.ComparesSiblings [] (p.sub name) ∧ cases.ComparesSiblings p

end

variable {nbt m}

mutual

/-- Where the siblings are compared, what the emitted code finds is the value. -/
theorem Ty.isValue_iff (t : Ty) {around : List Loc} {p : Spot}
    (h : t.ComparesSiblings around p) : t.IsValue m p ↔ t.ValueAt m around p.loc := by
  cases t with
  | native n => rfl
  | typedef name base => exact base.isValue_iff h
  | void => rfl
  | container fields => exact fields.isValue_iff h
  | «switch» up compareTo cases =>
      rw [Ty.IsValue, Ty.ValueAt, ← h.1]
      exact cases.isValue_iff h.2 _
  | array count element =>
      rw [Ty.IsValue, Ty.ValueAt, count.isValue_iff h.1]
      simp only [countAt, Spot.loc_sub]
      refine and_congr_right fun _ => and_congr_right fun _ => forall₂_congr fun j _ => ?_
      rw [element.isValue_iff (h.2 j), elem_loc]
  | rest element =>
      rw [Ty.IsValue, Ty.ValueAt]
      simp only [countAt, Spot.loc_sub]
      refine and_congr_right fun _ => forall₂_congr fun j _ => ?_
      rw [element.isValue_iff (h j), elem_loc]
  | bitfield fields => rfl
  | option base =>
      rw [Ty.IsValue, Ty.ValueAt, base.isValue_iff h]
      simp only [Spot.loc_sub]

theorem Fields.isValue_iff (fields : Fields) {around : List Loc} {p : Spot}
    (h : fields.ComparesSiblings around p) :
    fields.IsValue m p ↔ fields.ValueAt m around p.loc := by
  cases fields with
  | nil => rfl
  | cons name t fields =>
      rw [Fields.IsValue, Fields.ValueAt, t.isValue_iff h.1, fields.isValue_iff h.2, Spot.loc_sub]

theorem Cases.isValue_iff (cases : Cases) {p : Spot} (h : cases.ComparesSiblings p)
    (discriminant : Loc) : cases.IsValue m discriminant p ↔ cases.ValueAt m discriminant p.loc := by
  cases cases with
  | nil => rfl
  | cons name t value cases =>
      rw [Cases.IsValue, Cases.ValueAt, t.isValue_iff h.1, cases.isValue_iff h.2, Spot.loc_sub]

end

end

end CmcServer.ProtoDef
