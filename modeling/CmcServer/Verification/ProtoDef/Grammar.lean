import CmcServer.Verification.ProtoDef.Parsing
import CmcServer.Verification.ProtoDef.Scopes

/-! # The grammar by scopes

What the bytes of a value are and mean, where a switch looks for its sibling among the fields that
are already read. -/

namespace CmcServer.ProtoDef

open Bytes Parsers

section

variable (sizeof : Ty → ℕ)

mutual

/-- The value at a place, in containers of which some fields are read. Besides what `parse` leaves
undefined these are a switch in front of its sibling, a typedef with a reader that is not C and a
bitfield that no integer type holds. -/
def Ty.grammar : Ty → (around : List (Loc × List String)) → Loc → Parser UInt8 Draft
  | .native n, _, l => n.parse l
  | .typedef _ base, _, l => if base.readerCompiles then base.grammar [] l else unknown
  | .void, _, _ => skip
  | .container fields, around, l => fields.grammar around [] l
  | .switch up compareTo cases, around, l =>
      if compareTo ∈ (around.getD up ([], [])).2 then
        cases.grammar (siblingOf (around.map Prod.fst) up compareTo) l
      else unknown
  | .array count element, _, l =>
      seq (count.grammar [] (l.sub "length")) <|
      parseElements sizeof element ⟨l, []⟩ fun j => element.grammar [] (l.elem j)
  | .rest _, _, _ => unknown
  | .bitfield fields, _, l =>
      if fields ≠ [] ∧ bitsSize fields ∈ [1, 2, 4, 8] then
        take (bitsSize fields) fun bytes d => { d with mem := unpack l (ofBe bytes) fields 0 d.mem }
      else unknown
  | .option _, _, l => seq (Native.bool.parse (l.sub "present")) (parsePresent ⟨l, []⟩)

def Fields.grammar :
    Fields → (around : List (Loc × List String)) → (read : List String) → Loc → Parser UInt8 Draft
  | .nil, _, _, _ => skip
  | .cons name t fields, around, read, l =>
      seq (t.grammar ((l, read) :: around) (l.sub name)) (fields.grammar around (name :: read) l)

def Cases.grammar : Cases → (sibling : Loc) → Loc → Parser UInt8 Draft
  | .nil, _, _ => fail
  | .cons name t value cases, sibling, l =>
      choose fun d =>
        if value.holds d.mem sibling then t.grammar [] (l.sub name) else cases.grammar sibling l

end

theorem parseElements_congr (element : Ty) {p q : Spot} (h : p.loc = q.loc)
    (parse : ℕ → Parser UInt8 Draft) :
    parseElements sizeof element p parse = parseElements sizeof element q parse := by
  simp only [parseElements, countAt, Spot.loc_sub, h]

theorem abstracts_parseElements (element : Ty) (p : Spot) {parse parse' : ℕ → Parser UInt8 Draft}
    (h : ∀ j, Abstracts (parse j) (parse' j)) :
    Abstracts (parseElements sizeof element p parse) (parseElements sizeof element p parse') :=
  .choose fun _ => .ite (.seq (abstracts_refl _) (.rounds h _ _)) (abstracts_refl _)

mutual

/-- Where the siblings are compared, the emitted code follows the grammar. -/
theorem Ty.grammar_abstracts (t : Ty) (around : List (Loc × List String)) {p : Spot}
    (h : t.ComparesSiblings (around.map Prod.fst) p) :
    Abstracts (t.grammar sizeof around p.loc) (t.parse sizeof p) := by
  cases t with
  | native n => exact abstracts_refl _
  | typedef name base =>
      rw [Ty.grammar]
      split
      · exact base.grammar_abstracts [] h
      · exact abstracts_unknown _
  | void => exact abstracts_refl _
  | container fields => exact fields.grammar_abstracts around h []
  | «switch» up compareTo cases =>
      rcases h with ⟨hsame, hcases⟩
      rw [Ty.grammar, Ty.parse, ← hsame]
      split
      · exact cases.grammar_abstracts hcases _
      · exact abstracts_unknown _
  | array count element =>
      have hcount := count.grammar_abstracts [] h.1
      have helements := abstracts_parseElements sizeof element p fun j =>
        element.grammar_abstracts [] (h.2 j)
      rw [Ty.grammar, Ty.parse,
        parseElements_congr sizeof element (show Spot.loc ⟨p.loc, []⟩ = p.loc from rfl)]
      simp only [elem_loc] at helements
      rw [Spot.loc_sub] at hcount
      exact hcount.seq helements
  | rest element => exact abstracts_unknown _
  | bitfield fields =>
      rw [Ty.grammar]
      split
      · cases fields with
        | nil =>
            rename_i hfields
            exact absurd rfl hfields.1
        | cons field fields => exact abstracts_refl _
      · exact abstracts_unknown _
  | option base =>
      rw [Ty.grammar, Ty.parse, Spot.loc_sub]
      have hsame : parsePresent ⟨p.loc, []⟩ = parsePresent p := by
        simp only [parsePresent, Spot.loc_sub]
        rfl
      rw [hsame]
      exact abstracts_refl _

theorem Fields.grammar_abstracts (fields : Fields) (around : List (Loc × List String)) {p : Spot}
    (h : fields.ComparesSiblings (p.loc :: around.map Prod.fst) p) (read : List String) :
    Abstracts (fields.grammar sizeof around read p.loc) (fields.parse sizeof p) := by
  cases fields with
  | nil => exact abstracts_refl _
  | cons name t fields =>
      have ht := t.grammar_abstracts ((p.loc, read) :: around) h.1
      rw [Spot.loc_sub] at ht
      exact ht.seq (fields.grammar_abstracts around h.2 (name :: read))

theorem Cases.grammar_abstracts (cases : Cases) {p : Spot} (h : cases.ComparesSiblings p)
    (sibling : Loc) :
    Abstracts (cases.grammar sizeof sibling p.loc) (cases.parse sizeof sibling p) := by
  cases cases with
  | nil => exact abstracts_refl _
  | cons name t value cases =>
      have ht := t.grammar_abstracts [] h.1
      rw [Spot.loc_sub] at ht
      exact .choose fun d => .ite ht (cases.grammar_abstracts h.2 sibling)

end

end

end CmcServer.ProtoDef
