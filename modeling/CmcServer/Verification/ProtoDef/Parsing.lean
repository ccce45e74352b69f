import CmcServer.Lib.Parsers
import CmcServer.Verification.ProtoDef.Accepted
import CmcServer.Verification.ProtoDef.Bounds

/-! # The grammar of values

What the bytes of a value are and what they mean, by the types. A value in memory comes out of its
bytes, with the arena memory that it takes. -/

namespace CmcServer.ProtoDef

open Bytes Parsers

/-- The memory that a value is decoded into, and the arena memory that was taken for it. -/
structure Draft where
  mem : Loc → ℤ
  used : ℕ

def Draft.assign (l : Loc) (value : ℤ) (d : Draft) : Draft :=
  { d with mem := Function.update d.mem l value }

def Draft.take (bytes : ℕ) (d : Draft) : Draft := { d with used := d.used + bytes }

/-- A numeral of at most five bytes, of which 32 bits are kept. It is read into zero. -/
def parseVarint (l : Loc) : Parser UInt8 Draft := fun d bytes =>
  if d.mem l ≠ 0 then .undefined
  else
    match Base128.split 5 bytes with
    | none => .malformed
    | some (id, rest) => .parsed (d.assign l (toInt32 (Base128.value id))) rest

/-- A native. Varlongs are left undefined. -/
def Native.parse (n : Native) (l : Loc) : Parser UInt8 Draft :=
  match n with
  | .varint => parseVarint l
  | .varlong => unknown
  | .nbt => fail
  | n => take n.size.toNat fun bytes => Draft.assign l (n.decode bytes)

/-- A count of elements is not negative, and the size of all of them is an `int`. -/
def Countable (element : Ty) (count : ℤ) : Prop :=
  0 ≤ count ∧ count < 2 ^ 31 ∧ count * element.getSize < 2 ^ 31

instance (element : Ty) (count : ℤ) : Decidable (Countable element count) :=
  inferInstanceAs (Decidable (_ ∧ _ ∧ _))

section

variable (sizeof : Ty → ℕ)

/-- The elements of the array at a place, behind their count. -/
def parseElements (element : Ty) (p : Spot) (parse : ℕ → Parser UInt8 Draft) :
    Parser UInt8 Draft :=
  choose fun d =>
    if Countable element (d.mem (p.sub "length").loc) then
      seq (modify (Draft.take (countAt d.mem p * sizeof element)))
        (rounds parse (countAt d.mem p) 0)
    else unknown

def parsePresent (p : Spot) : Parser UInt8 Draft :=
  choose fun d => if d.mem (p.sub "present").loc = 0 then skip else unknown

mutual

/-- The value at a place. Present options and arrays without a count are left undefined. -/
def Ty.parse : Ty → Spot → Parser UInt8 Draft
  | .native n, p => n.parse p.loc
  | .typedef _ base, p => base.parse ⟨p.loc, []⟩
  | .void, _ => skip
  | .container fields, p => fields.parse p
  | .switch _ compareTo cases, p => cases.parse (p.parent.sub compareTo).loc p
  | .array count element, p =>
      seq (count.parse (p.sub "length")) <|
      parseElements sizeof element p fun j => element.parse ((p.sub "elements").elem j)
  | .rest _, _ => unknown
  | .bitfield [], _ => unknown
  | .bitfield fields, p =>
      take (bitsSize fields) fun bytes d =>
        { d with mem := unpack p.loc (ofBe bytes) fields 0 d.mem }
  | .option _, p => seq (Native.bool.parse (p.sub "present").loc) (parsePresent p)

def Fields.parse : Fields → Spot → Parser UInt8 Draft
  | .nil, _ => skip
  | .cons name t fields, p => seq (t.parse (p.sub name)) (fields.parse p)

def Cases.parse : Cases → Loc → Spot → Parser UInt8 Draft
  | .nil, _, _ => fail
  | .cons name t value cases, discriminant, p =>
      choose fun d =>
        if value.holds d.mem discriminant then t.parse (p.sub name)
        else cases.parse discriminant p

end

end

/-! ## What a value is parsed from -/

theorem local_parseVarint (l : Loc) : Local (parseVarint l) := by
  intro d bytes d' rest h
  rw [parseVarint] at h
  split at h
  · cases h
  · rename_i hzero
    cases hsplit : Base128.split 5 bytes with
    | none =>
        rw [hsplit] at h
        cases h
    | some parts =>
        rcases parts with ⟨id, rest'⟩
        rw [hsplit] at h
        cases h
        rcases Base128.split_eq_some_iff.mp hsplit with ⟨hid, hlength, rfl⟩
        refine ⟨id, rfl, fun more => ?_⟩
        rw [parseVarint, if_neg hzero, Base128.split_eq_some_iff.mpr ⟨hid, hlength, rfl⟩]

theorem native_parse_fixed {n : Native} (h : (Ty.native n).isVariable = false) (l : Loc) :
    n.parse l = take n.size.toNat fun bytes => Draft.assign l (n.decode bytes) := by
  have hpos := native_size_pos h
  cases n <;> first | rfl | simp [Native.size] at hpos

theorem local_native (n : Native) (l : Loc) : Local (n.parse l) := by
  cases h : (Ty.native n).isVariable with
  | false =>
      rw [native_parse_fixed h]
      exact local_take _ _
  | true =>
      cases n with
      | varint => exact local_parseVarint l
      | varlong => exact local_unknown
      | nbt => exact local_fail
      | _ => cases h

theorem local_parsePresent (p : Spot) : Local (parsePresent p) :=
  .choose fun _ => .ite local_skip local_unknown

section

variable (sizeof : Ty → ℕ)

theorem local_parseElements (element : Ty) (p : Spot) {parse : ℕ → Parser UInt8 Draft}
    (h : ∀ j, Local (parse j)) : Local (parseElements sizeof element p parse) :=
  .choose fun _ => .ite ((local_modify _).seq (.rounds h _ _)) local_unknown

mutual

/-- The bytes of a value alone decide what it is. -/
theorem Ty.local_parse (t : Ty) (p : Spot) : Local (t.parse sizeof p) := by
  cases t with
  | native n => exact local_native n p.loc
  | typedef name base => exact base.local_parse ⟨p.loc, []⟩
  | void => exact local_skip
  | container fields => exact fields.local_parse p
  | «switch» up compareTo cases => exact cases.local_parse _ p
  | array count element =>
      exact (count.local_parse _).seq
        (local_parseElements sizeof element p fun j => element.local_parse _)
  | rest element => exact local_unknown
  | bitfield fields =>
      cases fields with
      | nil => exact local_unknown
      | cons field fields => exact local_take _ _
  | option base => exact (local_native .bool _).seq (local_parsePresent p)

theorem Fields.local_parse (fields : Fields) (p : Spot) : Local (fields.parse sizeof p) := by
  cases fields with
  | nil => exact local_skip
  | cons name t fields => exact (t.local_parse _).seq (fields.local_parse p)

theorem Cases.local_parse (cases : Cases) (discriminant : Loc) (p : Spot) :
    Local (cases.parse sizeof discriminant p) := by
  cases cases with
  | nil => exact local_fail
  | cons name t value cases =>
      exact .choose fun d => .ite (t.local_parse _) (cases.local_parse discriminant p)

end

/-! ## Where a value is parsed into -/

/-- More arena memory was taken, and only places under `l` have changed. -/
structure Draft.Extends (l : Loc) (d d' : Draft) : Prop where
  used : d.used ≤ d'.used
  mem : ∀ x, ¬ l <:+ x → d'.mem x = d.mem x

theorem Draft.Extends.refl (l : Loc) (d : Draft) : d.Extends l d := ⟨Nat.le_refl _, fun _ _ => rfl⟩

theorem Draft.Extends.trans {l : Loc} {a b c : Draft} (h : a.Extends l b) (h' : b.Extends l c) :
    a.Extends l c :=
  ⟨h.used.trans h'.used, fun x hx => (h'.mem x hx).trans (h.mem x hx)⟩

theorem Draft.Extends.mono {l l' : Loc} (h : l' <:+ l) {d d' : Draft} (hd : d.Extends l d') :
    d.Extends l' d' :=
  ⟨hd.used, fun x hx => hd.mem x fun hl => hx (h.trans hl)⟩

theorem Draft.extends_assign (l : Loc) (value : ℤ) (d : Draft) :
    d.Extends l (d.assign l value) := by
  refine ⟨Nat.le_refl _, fun x hx => ?_⟩
  refine Function.update_of_ne ?_ _ _
  rintro rfl
  exact hx (List.suffix_refl _)

theorem relates_native (n : Native) (l : Loc) : Relates (Draft.Extends l) (n.parse l) := by
  cases h : (Ty.native n).isVariable with
  | false =>
      rw [native_parse_fixed h]
      exact relates_take fun bytes d => Draft.extends_assign l _ d
  | true =>
      cases n with
      | varint =>
          intro d bytes d' rest hp
          rw [Native.parse, parseVarint] at hp
          split at hp
          · cases hp
          · split at hp
            · cases hp
            · cases hp
              exact Draft.extends_assign l _ d
      | varlong => exact relates_unknown
      | nbt => exact relates_fail
      | _ => cases h

theorem relates_parsePresent (p : Spot) : Relates (Draft.Extends p.loc) (parsePresent p) :=
  .choose fun _ => .ite (relates_skip (.refl _)) relates_unknown

theorem relates_parseElements (element : Ty) (p : Spot) {parse : ℕ → Parser UInt8 Draft}
    (h : ∀ j : ℕ, Relates (Draft.Extends ((p.sub "elements").elem j).loc) (parse j)) :
    Relates (Draft.Extends p.loc) (parseElements sizeof element p parse) := by
  refine .choose fun d => .ite (.seq .trans (relates_modify fun d => ?_) ?_) relates_unknown
  · exact ⟨Nat.le_add_right _ _, fun _ _ => rfl⟩
  · exact .rounds (.refl _) .trans
      (fun j => (h j).mono fun _ _ => Draft.Extends.mono (suffix_loc_elem p j)) _ _

mutual

/-- A value is parsed into the memory under its place. -/
theorem Ty.relates_parse (t : Ty) (p : Spot) :
    Relates (Draft.Extends p.loc) (t.parse sizeof p) := by
  cases t with
  | native n => exact relates_native n p.loc
  | typedef name base => exact base.relates_parse ⟨p.loc, []⟩
  | void => exact relates_skip (.refl _)
  | container fields => exact fields.relates_parse p
  | «switch» up compareTo cases => exact cases.relates_parse _ p
  | array count element =>
      have hcount := (count.relates_parse (p.sub "length")).mono
        fun _ _ => Draft.Extends.mono (suffix_loc_sub p _)
      exact hcount.seq .trans
        (relates_parseElements sizeof element p fun j => element.relates_parse _)
  | rest element => exact relates_unknown
  | bitfield fields =>
      cases fields with
      | nil => exact relates_unknown
      | cons field fields =>
          exact relates_take fun bytes d => ⟨Nat.le_refl _, fun x hx =>
            unpack_of_not_suffix hx _ _ _ _⟩
  | option base =>
      have hpresent := (relates_native .bool (p.sub "present").loc).mono
        fun _ _ => Draft.Extends.mono (suffix_loc_sub p _)
      exact hpresent.seq .trans (relates_parsePresent p)

theorem Fields.relates_parse (fields : Fields) (p : Spot) :
    Relates (Draft.Extends p.loc) (fields.parse sizeof p) := by
  cases fields with
  | nil => exact relates_skip (.refl _)
  | cons name t fields =>
      exact ((t.relates_parse _).mono fun _ _ => Draft.Extends.mono (suffix_loc_sub p name)).seq
        .trans (fields.relates_parse p)

theorem Cases.relates_parse (cases : Cases) (discriminant : Loc) (p : Spot) :
    Relates (Draft.Extends p.loc) (cases.parse sizeof discriminant p) := by
  cases cases with
  | nil => exact relates_fail
  | cons name t value cases =>
      exact .choose fun d => .ite
        ((t.relates_parse _).mono fun _ _ => Draft.Extends.mono (suffix_loc_sub p name))
        (cases.relates_parse discriminant p)

end

end

end CmcServer.ProtoDef
