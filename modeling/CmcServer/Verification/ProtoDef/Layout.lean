import CmcServer.Verification.ProtoDef.Values

/-! # The layout of an encoding

The encoding of a value, cut into the pieces that a writer treats alike: those it checks the room
of before it writes them, varints, which it writes without a check, and what it leaves out. -/

namespace CmcServer.ProtoDef

open Bytes

/-! ## Pieces -/

inductive Piece where
  /-- A room check for `room` bytes, and then the bytes. -/
  | checked (room : ℤ) (bytes : List UInt8)
  /-- A room check alone. The bytes it pays for are not written. -/
  | reserved (room : ℤ)
  | varint (bytes : List UInt8)
  /-- The end of a function that accounts for `n` bytes, `gap` of which it did not write. -/
  | returned (n gap : ℕ)
  | nbt (bytes : List UInt8)
  /-- Bytes of the encoding that are neither written nor accounted for. -/
  | dropped (bytes : List UInt8)
  deriving DecidableEq

namespace Piece

def written : Piece → List UInt8
  | .checked _ bytes | .varint bytes => bytes
  | _ => []

/-- The number of bytes that a writer takes from `size`. -/
def used : Piece → ℕ
  | .checked _ bytes | .varint bytes | .nbt bytes => bytes.length
  | .reserved room => room.toNat
  | .returned _ _ | .dropped _ => 0

/-- The number of bytes that `data` moves on. -/
def advance : Piece → ℕ
  | .checked _ bytes | .varint bytes => bytes.length
  | .returned _ gap => gap
  | .reserved _ | .nbt _ | .dropped _ => 0

def lost : Piece → ℕ
  | .dropped bytes => bytes.length
  | _ => 0

end Piece

def usedBy (pieces : List Piece) : ℕ := (pieces.map Piece.used).sum

def advanceBy (pieces : List Piece) : ℕ := (pieces.map Piece.advance).sum

def lostBy (pieces : List Piece) : ℕ := (pieces.map Piece.lost).sum

@[simp] theorem usedBy_nil : usedBy [] = 0 := rfl

@[simp] theorem advanceBy_nil : advanceBy [] = 0 := rfl

@[simp] theorem lostBy_nil : lostBy [] = 0 := rfl

@[simp] theorem usedBy_cons (x : Piece) (xs : List Piece) : usedBy (x :: xs) = x.used + usedBy xs :=
  by simp [usedBy]

@[simp] theorem advanceBy_cons (x : Piece) (xs : List Piece) :
    advanceBy (x :: xs) = x.advance + advanceBy xs := by
  simp [advanceBy]

@[simp] theorem lostBy_cons (x : Piece) (xs : List Piece) : lostBy (x :: xs) = x.lost + lostBy xs :=
  by simp [lostBy]

@[simp] theorem usedBy_append (xs ys : List Piece) : usedBy (xs ++ ys) = usedBy xs + usedBy ys := by
  simp [usedBy]

@[simp] theorem advanceBy_append (xs ys : List Piece) :
    advanceBy (xs ++ ys) = advanceBy xs + advanceBy ys := by
  simp [advanceBy]

@[simp] theorem lostBy_append (xs ys : List Piece) : lostBy (xs ++ ys) = lostBy xs + lostBy ys := by
  simp [lostBy]

/-! ## Walking over pieces -/

/-- The bytes accounted for so far, the offset of the next byte and the buffer. -/
structure Walk where
  used : ℕ
  data : ℕ
  buffer : ℕ → UInt8

/-- How a walk ends: behind the last piece, at a check that fails, or at a piece that is written
although it does not fit. -/
inductive Verdict where
  | done (w : Walk)
  | fails
  | overruns

namespace Piece

def step (x : Piece) (w : Walk) : Walk where
  used := w.used + x.used
  data := w.data + x.advance
  buffer := store w.buffer w.data x.written

/-- The check at a piece fails. A function that accounts for `2 ^ 31` bytes or more returns a
negative number, and NBT always fails. -/
def Fails (x : Piece) (size : ℕ) (w : Walk) : Prop :=
  match x with
  | .checked room _ | .reserved room => (size : ℤ) - w.used < room
  | .returned n _ => 2 ^ 31 ≤ n
  | .nbt _ => True
  | .varint _ | .dropped _ => False

/-- What is written fits. A check that passes says so, unless its product overflowed. -/
def Fits (x : Piece) (size : ℕ) (w : Walk) : Prop :=
  match x with
  | .checked room bytes => room = bytes.length
  | .varint bytes => w.data + bytes.length ≤ size
  | _ => True

instance (x : Piece) (size : ℕ) (w : Walk) : Decidable (x.Fails size w) := by
  cases x <;> unfold Fails <;> infer_instance

instance (x : Piece) (size : ℕ) (w : Walk) : Decidable (x.Fits size w) := by
  cases x <;> unfold Fits <;> infer_instance

end Piece

/-- Walk over pieces in a buffer of `size` bytes. -/
def walk (size : ℕ) : List Piece → Walk → Verdict
  | [], w => .done w
  | x :: xs, w =>
      if x.Fails size w then .fails
      else if x.Fits size w then walk size xs (x.step w)
      else .overruns

theorem walk_fails {x : Piece} {size : ℕ} {w : Walk} (h : x.Fails size w) (xs : List Piece) :
    walk size (x :: xs) w = .fails := by
  rw [walk, if_pos h]

theorem walk_step {x : Piece} {size : ℕ} {w : Walk} (h : ¬ x.Fails size w) (hfits : x.Fits size w)
    (xs : List Piece) : walk size (x :: xs) w = walk size xs (x.step w) := by
  rw [walk, if_neg h, if_pos hfits]

theorem walk_overruns {x : Piece} {size : ℕ} {w : Walk} (h : ¬ x.Fails size w)
    (hfits : ¬ x.Fits size w) (xs : List Piece) : walk size (x :: xs) w = .overruns := by
  rw [walk, if_neg h, if_neg hfits]

def Verdict.bind : Verdict → (Walk → Verdict) → Verdict
  | .done w, f => f w
  | .fails, _ => .fails
  | .overruns, _ => .overruns

theorem walk_append (size : ℕ) (xs ys : List Piece) (w : Walk) :
    walk size (xs ++ ys) w = (walk size xs w).bind (walk size ys) := by
  induction xs generalizing w with
  | nil => rfl
  | cons x xs ih =>
      simp only [List.cons_append, walk]
      split
      · rfl
      · split
        · exact ih _
        · rfl

theorem walk_done {size : ℕ} {pieces : List Piece} {w w' : Walk}
    (h : walk size pieces w = .done w') :
    w'.used = w.used + usedBy pieces ∧ w'.data = w.data + advanceBy pieces := by
  induction pieces generalizing w with
  | nil =>
      cases h
      exact ⟨rfl, rfl⟩
  | cons x xs ih =>
      rw [walk] at h
      split at h
      · cases h
      · split at h
        · rcases ih h with ⟨hused, hdata⟩
          simp only [Piece.step] at hused hdata
          simp only [usedBy_cons, advanceBy_cons]
          omega
        · cases h

/-! ## The layout of a value -/

section

variable (nbt : Loc → List UInt8) (m : Loc → ℤ)

/-- `length * n` for a length of 32 or 64 bits. -/
def roomOf (wide : Bool) (length n : ℤ) : ℤ :=
  if wide then toInt64 (length * n) else toInt32 (length * n)

/-- The end of a function that was given these pieces. -/
def returnedBy (pieces : List Piece) : Piece :=
  .returned (usedBy pieces) (usedBy pieces - advanceBy pieces)

theorem returnedBy_fails {pieces : List Piece} {size : ℕ} {w : Walk} :
    (returnedBy pieces).Fails size w ↔ 2 ^ 31 ≤ usedBy pieces := Iff.rfl

/-- The encodings of the fields up to the first one of variable size. -/
def Fields.runBytes : Fields → Spot → List UInt8
  | .nil, _ => []
  | .cons name t fields, p =>
      if t.isVariable then [] else t.encode nbt m (p.sub name) ++ fields.runBytes p

def elementsBytes (element : Ty) (p : Spot) : List UInt8 :=
  (List.range (countAt m p)).flatMap fun j => element.encode nbt m ((p.sub "elements").elem j)

mutual

/-- The layout of a value. A value of fixed size comes with the check that is emitted for it. -/
def Ty.layout : Ty → Spot → List Piece
  | .native n, p =>
      if (Ty.native n).isVariable then
        [if n = .nbt then .nbt (nbt p.loc) else .varint (n.bytes nbt m p.loc)]
      else [.checked n.size (n.bytes nbt m p.loc)]
  | .typedef _ base, p =>
      if base.isVariable then
        base.layout ⟨p.loc, []⟩ ++ [returnedBy (base.layout ⟨p.loc, []⟩)]
      else [.checked base.getSize (base.encode nbt m ⟨p.loc, []⟩)]
  | .void, _ => []
  | .container fields, p => fields.layout false p
  | .switch _ compareTo cases, p => cases.layout (p.parent.sub compareTo).loc p
  | .array count element, p =>
      count.layout (p.sub "length") ++
        if element.isVariable then
          (List.range (countAt m p)).flatMap fun j => element.layout ((p.sub "elements").elem j)
        else
          [.checked (roomOf count.isWide (m (p.sub "length").loc) element.getSize)
            (elementsBytes nbt m element p)]
  | .rest element, p =>
      if element.isVariable then
        (List.range (countAt m p)).flatMap fun j => element.layout ((p.sub "elements").elem j)
      else
        [.checked (roomOf false (m (p.sub "length").loc) element.getSize)
          (elementsBytes nbt m element p)]
  | .bitfield fields, p =>
      [.checked (bitsSize fields) ((Ty.bitfield fields).encode nbt m p)]
  | .option base, p =>
      .checked 1 (Native.u8.encode (m (p.sub "present").loc)) ::
        if m (p.sub "present").loc = 0 then []
        else if base.isVariable then [.dropped (base.encode nbt m (p.sub "value"))]
        else [.reserved base.getSize]

/-- The fields of a container. In a run of fixed fields the first one has the check of all. -/
def Fields.layout : Fields → (inRun : Bool) → Spot → List Piece
  | .nil, _, _ => []
  | .cons name t fields, inRun, p =>
      if t.isVariable then t.layout (p.sub name) ++ fields.layout false p
      else if inRun then fields.layout true p
      else
        .checked (Fields.cons name t fields).fixedTotal
            ((Fields.cons name t fields).runBytes nbt m p) :: fields.layout true p

def Cases.layout : Cases → Loc → Spot → List Piece
  | .nil, _, _ => []
  | .cons name t value cases, discriminant, p =>
      if value.holds m discriminant then t.layout (p.sub name)
      else cases.layout discriminant p

end

/-! ## Layouts and encodings -/

theorem layout_fixed {t : Ty} (h : t.isVariable = false) (p : Spot) :
    t.layout nbt m p = [.checked t.getSize (t.encode nbt m p)] := by
  cases t, h using Ty.fixed_induction with
  | native n h => simp [Ty.layout, Ty.encode, Ty.getSize, h]
  | typedef name base hbase h => simp [Ty.layout, Ty.encode, Ty.getSize, hbase]
  | bitfield fields h =>
      rw [Ty.layout, bitfield_getSize (bitfield_ne_nil h)]

theorem length_runBytes (fields : Fields) (p : Spot) :
    ((fields.runBytes nbt m p).length : ℤ) = fields.fixedTotal := by
  cases fields with
  | nil => rfl
  | cons name t fields =>
      rw [Fields.runBytes, Fields.fixedTotal]
      cases h : t.isVariable with
      | true => rfl
      | false =>
          simp only [Bool.false_eq_true, if_false, List.length_append]
          push_cast
          rw [length_encode_fixed nbt m t h, length_runBytes fields p]

theorem Fields.length_runBytes_le (fields : Fields) (p : Spot) :
    (fields.runBytes nbt m p).length ≤ (fields.encode nbt m p).length := by
  cases fields with
  | nil => exact le_refl _
  | cons name t fields =>
      rw [Fields.runBytes, Fields.encode, List.length_append]
      split
      · exact Nat.zero_le _
      · rw [List.length_append]
        exact Nat.add_le_add_left (fields.length_runBytes_le p) _

theorem length_elementsBytes {t : Ty} (h : t.isVariable = false) (p : Spot) :
    ((elementsBytes nbt m t p).length : ℤ) = countAt m p * t.getSize := by
  rw [elementsBytes]
  generalize countAt m p = n
  induction n with
  | zero => simp
  | succ n ih =>
      rw [List.range_succ, List.flatMap_append, List.length_append]
      push_cast
      rw [ih, List.flatMap_singleton, length_encode_fixed nbt m t h]
      ring

theorem length_flatMap_encode {bytes : ℕ → List UInt8} {pieces : ℕ → List Piece}
    (h : ∀ j, (bytes j).length = usedBy (pieces j) + lostBy (pieces j)) (l : List ℕ) :
    (l.flatMap bytes).length = usedBy (l.flatMap pieces) + lostBy (l.flatMap pieces) := by
  induction l with
  | nil => rfl
  | cons j l ih =>
      simp only [List.flatMap_cons, List.length_append, usedBy_append, lostBy_append, h, ih]
      omega

mutual

/-- The pieces of a layout make up the encoding. -/
theorem Ty.length_encode (t : Ty) (p : Spot) :
    (t.encode nbt m p).length = usedBy (t.layout nbt m p) + lostBy (t.layout nbt m p) := by
  cases t with
  | native n =>
      rw [Ty.layout, Ty.encode]
      split
      · split
        · rename_i h
          subst h
          simp [Piece.used, Piece.lost, Native.bytes]
        · simp [Piece.used, Piece.lost]
      · simp [Piece.used, Piece.lost]
  | typedef name base =>
      rw [Ty.layout, Ty.encode]
      split
      · rw [base.length_encode]
        simp [Piece.used, Piece.lost, returnedBy]
      · simp [Piece.used, Piece.lost]
  | void => rfl
  | container fields =>
      rw [Ty.layout, Ty.encode]
      exact (fields.length_encode p).1
  | «switch» up compareTo cases =>
      rw [Ty.layout, Ty.encode]
      exact cases.length_encode _ p
  | array count element =>
      have helements := length_flatMap_encode
        (fun j => element.length_encode ((p.sub "elements").elem j)) (List.range (countAt m p))
      rw [Ty.layout, Ty.encode, List.length_append, count.length_encode]
      split
      · rw [helements]
        simp only [usedBy_append, lostBy_append]
        omega
      · simp [Piece.used, Piece.lost, elementsBytes]
        omega
  | rest element =>
      have helements := length_flatMap_encode
        (fun j => element.length_encode ((p.sub "elements").elem j)) (List.range (countAt m p))
      rw [Ty.layout, Ty.encode]
      split
      · exact helements
      · simp [Piece.used, Piece.lost, elementsBytes]
  | bitfield fields => simp [Ty.layout, Piece.used, Piece.lost]
  | option base =>
      rw [Ty.layout, Ty.encode, List.length_append]
      split
      · simp [Piece.used, Piece.lost]
      · split
        · simp [Piece.used, Piece.lost]
        · rename_i h
          have hfixed := length_encode_fixed nbt m base (by simpa using h) (p.sub "value")
          simp [Piece.used, Piece.lost]
          omega

theorem Fields.length_encode (fields : Fields) (p : Spot) :
    (fields.encode nbt m p).length =
        usedBy (fields.layout nbt m false p) + lostBy (fields.layout nbt m false p) ∧
      (fields.encode nbt m p).length = (fields.runBytes nbt m p).length +
        usedBy (fields.layout nbt m true p) + lostBy (fields.layout nbt m true p) := by
  cases fields with
  | nil => exact ⟨rfl, rfl⟩
  | cons name t fields =>
      rcases fields.length_encode p with ⟨hclosed, hrun⟩
      have ht := t.length_encode (p.sub name)
      rw [Fields.encode, List.length_append]
      cases h : t.isVariable with
      | true =>
          simp only [Fields.layout, Fields.runBytes, h, if_true, usedBy_append, lostBy_append,
            List.length_nil]
          omega
      | false =>
          simp only [Fields.layout, Fields.runBytes, h, if_true, if_false, Bool.false_eq_true,
            usedBy_cons, lostBy_cons, Piece.used, Piece.lost, List.length_append]
          omega

theorem Cases.length_encode (cases : Cases) (discriminant : Loc) (p : Spot) :
    (cases.encode nbt m discriminant p).length =
      usedBy (cases.layout nbt m discriminant p) + lostBy (cases.layout nbt m discriminant p) := by
  cases cases with
  | nil => rfl
  | cons name t value cases =>
      rw [Cases.layout, Cases.encode]
      split
      · exact t.length_encode _
      · exact cases.length_encode _ p

end

theorem advanceBy_flatMap_le {pieces : ℕ → List Piece}
    (h : ∀ j, advanceBy (pieces j) ≤ usedBy (pieces j)) (l : List ℕ) :
    advanceBy (l.flatMap pieces) ≤ usedBy (l.flatMap pieces) := by
  induction l with
  | nil => exact le_refl _
  | cons j l ih =>
      simp only [List.flatMap_cons, advanceBy_append, usedBy_append]
      exact Nat.add_le_add (h j) ih

mutual

/-- A writer never moves on further than it accounts for. -/
theorem Ty.advance_le_used (t : Ty) (p : Spot) :
    advanceBy (t.layout nbt m p) ≤ usedBy (t.layout nbt m p) := by
  cases t with
  | native n =>
      rw [Ty.layout]
      split
      · split <;> simp [Piece.used, Piece.advance]
      · simp [Piece.used, Piece.advance]
  | typedef name base =>
      have hbase := base.advance_le_used ⟨p.loc, []⟩
      rw [Ty.layout]
      split
      · simp only [advanceBy_append, usedBy_append, advanceBy_cons, usedBy_cons, advanceBy_nil,
          usedBy_nil, Piece.used, Piece.advance, returnedBy]
        omega
      · simp [Piece.used, Piece.advance]
  | void => exact le_refl _
  | container fields =>
      rw [Ty.layout]
      exact fields.advance_le_used false p
  | «switch» up compareTo cases =>
      rw [Ty.layout]
      exact cases.advance_le_used _ p
  | array count element =>
      have helements := advanceBy_flatMap_le
        (fun j => element.advance_le_used ((p.sub "elements").elem j)) (List.range (countAt m p))
      rw [Ty.layout, advanceBy_append, usedBy_append]
      refine Nat.add_le_add (count.advance_le_used _) ?_
      split
      · exact helements
      · simp [Piece.used, Piece.advance]
  | rest element =>
      have helements := advanceBy_flatMap_le
        (fun j => element.advance_le_used ((p.sub "elements").elem j)) (List.range (countAt m p))
      rw [Ty.layout]
      split
      · exact helements
      · simp [Piece.used, Piece.advance]
  | bitfield fields => simp [Ty.layout, Piece.used, Piece.advance]
  | option base =>
      rw [Ty.layout, advanceBy_cons, usedBy_cons]
      refine Nat.add_le_add (le_refl _) ?_
      split
      · exact le_refl _
      · split <;> simp [Piece.used, Piece.advance]

theorem Fields.advance_le_used (fields : Fields) (inRun : Bool) (p : Spot) :
    advanceBy (fields.layout nbt m inRun p) ≤ usedBy (fields.layout nbt m inRun p) := by
  cases fields with
  | nil => exact le_refl _
  | cons name t fields =>
      rw [Fields.layout]
      split
      · rw [advanceBy_append, usedBy_append]
        exact Nat.add_le_add (t.advance_le_used _) (fields.advance_le_used false p)
      · split
        · exact fields.advance_le_used true p
        · rw [advanceBy_cons, usedBy_cons]
          exact Nat.add_le_add (le_refl _) (fields.advance_le_used true p)

theorem Cases.advance_le_used (cases : Cases) (discriminant : Loc) (p : Spot) :
    advanceBy (cases.layout nbt m discriminant p) ≤
      usedBy (cases.layout nbt m discriminant p) := by
  cases cases with
  | nil => exact le_refl _
  | cons name t value cases =>
      rw [Cases.layout]
      split
      · exact t.advance_le_used _
      · exact cases.advance_le_used _ p

end

end

end CmcServer.ProtoDef
