import CmcServer.Verification.ProtoDef.Readers
import CmcServer.Verification.ProtoDef.WriterBounds

/-! # Generated readers undo generated writers -/

namespace CmcServer.ProtoDef

open Bytes EarlyReturn

/-! ## Plain layouts -/

/-- A piece that is written as it is accounted for. -/
def Piece.Plain : Piece → Prop
  | .checked room bytes => room = bytes.length
  | .varint _ => True
  | .returned n gap => n < 2 ^ 31 ∧ gap = 0
  | .reserved _ | .nbt _ | .dropped _ => False

def writtenBy (pieces : List Piece) : List UInt8 := pieces.flatMap Piece.written

@[simp] theorem writtenBy_nil : writtenBy [] = [] := rfl

@[simp] theorem writtenBy_cons (x : Piece) (xs : List Piece) :
    writtenBy (x :: xs) = x.written ++ writtenBy xs := by
  simp [writtenBy]

@[simp] theorem writtenBy_append (xs ys : List Piece) :
    writtenBy (xs ++ ys) = writtenBy xs ++ writtenBy ys := by
  simp [writtenBy]

theorem Piece.Plain.lengths {x : Piece} (h : x.Plain) :
    x.used = x.written.length ∧ x.advance = x.written.length := by
  cases x with
  | checked room bytes => exact ⟨rfl, rfl⟩
  | varint bytes => exact ⟨rfl, rfl⟩
  | returned n gap => exact ⟨rfl, h.2⟩
  | reserved room => exact h.elim
  | nbt bytes => exact h.elim
  | dropped bytes => exact h.elim

theorem plain_lengths {pieces : List Piece} (h : ∀ x ∈ pieces, x.Plain) :
    usedBy pieces = (writtenBy pieces).length ∧ advanceBy pieces = (writtenBy pieces).length := by
  induction pieces with
  | nil => exact ⟨rfl, rfl⟩
  | cons x xs ih =>
      rcases (h x List.mem_cons_self).lengths with ⟨hused, hadvance⟩
      rcases ih fun y hy => h y (List.mem_cons_of_mem x hy) with ⟨husedRest, hadvanceRest⟩
      simp only [usedBy_cons, advanceBy_cons, writtenBy_cons, List.length_append]
      omega

/-- A walk over plain pieces that fit writes all of them. -/
theorem walk_plain {size : ℕ} {pieces : List Piece} (h : ∀ x ∈ pieces, x.Plain) {w : Walk}
    (hw : w.used = w.data) (hfit : w.data + (writtenBy pieces).length ≤ size) :
    ∃ w', walk size pieces w = .done w' ∧
      w'.buffer = store w.buffer w.data (writtenBy pieces) := by
  induction pieces generalizing w with
  | nil => exact ⟨w, rfl, (store_nil _ _).symm⟩
  | cons x xs ih =>
      have hx := h x List.mem_cons_self
      rcases hx.lengths with ⟨hused, hadvance⟩
      rw [writtenBy_cons, List.length_append] at hfit
      have hpass : ¬ x.Fails size w := by
        cases x with
        | checked room bytes =>
            simp only [Piece.Plain, Piece.Fails, Piece.written] at hx hfit ⊢
            omega
        | varint bytes => exact id
        | returned n gap =>
            simp only [Piece.Plain, Piece.Fails] at hx ⊢
            omega
        | reserved room => exact hx.elim
        | nbt bytes => exact hx.elim
        | dropped bytes => exact hx.elim
      have hfits : x.Fits size w := by
        cases x with
        | checked room bytes => exact hx
        | varint bytes =>
            simp only [Piece.Fits, Piece.written] at hfit ⊢
            omega
        | returned n gap => trivial
        | reserved room => exact hx.elim
        | nbt bytes => exact hx.elim
        | dropped bytes => exact hx.elim
      rcases ih (fun y hy => h y (List.mem_cons_of_mem x hy)) (w := x.step w) (by
        simp only [Piece.step]
        omega) (by
        simp only [Piece.step]
        omega) with ⟨w', hwalk, hbuffer⟩
      refine ⟨w', ?_, ?_⟩
      · rw [walk_step hpass hfits, hwalk]
      · rw [hbuffer, writtenBy_cons, ← store_append, ← hadvance]
        rfl

section

variable (nbt : Loc → List UInt8) {m : Loc → ℤ} {forward : Bool}

/-- Pieces that are plain and make up the given bytes. -/
structure PlainLayout (pieces : List Piece) (bytes : List UInt8) : Prop where
  plain : ∀ x ∈ pieces, x.Plain
  written : writtenBy pieces = bytes

theorem PlainLayout.nil : PlainLayout [] [] := ⟨fun _ hx => absurd hx List.not_mem_nil, rfl⟩

theorem PlainLayout.append {xs ys : List Piece} {bytes bytes' : List UInt8}
    (hx : PlainLayout xs bytes) (hy : PlainLayout ys bytes') :
    PlainLayout (xs ++ ys) (bytes ++ bytes') where
  plain := by
    intro x hmem
    rcases List.mem_append.mp hmem with hmem | hmem
    · exact hx.plain x hmem
    · exact hy.plain x hmem
  written := by
    rw [writtenBy_append, hx.written, hy.written]

theorem PlainLayout.checked {room : ℤ} {bytes : List UInt8} (h : room = bytes.length) :
    PlainLayout [.checked room bytes] bytes where
  plain := by
    intro x hx
    rw [List.mem_singleton] at hx
    rw [hx]
    exact h
  written := by simp [Piece.written]

theorem PlainLayout.returned {pieces : List Piece} {bytes : List UInt8}
    (h : PlainLayout pieces bytes) (hlen : bytes.length < 2 ^ 31) :
    PlainLayout (pieces ++ [returnedBy pieces]) bytes := by
  rcases plain_lengths h.plain with ⟨hused, hadvance⟩
  rw [h.written] at hused hadvance
  have hend : PlainLayout [returnedBy pieces] [] := {
    plain := by
      intro x hx
      rw [List.mem_singleton] at hx
      subst hx
      simp only [returnedBy, Piece.Plain]
      omega
    written := by simp [returnedBy, Piece.written] }
  have happend := h.append hend
  rwa [List.append_nil] at happend

theorem PlainLayout.flatMap {pieces : ℕ → List Piece} {bytes : ℕ → List UInt8} (l : List ℕ)
    (h : ∀ j ∈ l, PlainLayout (pieces j) (bytes j)) :
    PlainLayout (l.flatMap pieces) (l.flatMap bytes) := by
  induction l with
  | nil => exact .nil
  | cons j l ih =>
      simp only [List.flatMap_cons]
      exact (h j List.mem_cons_self).append (ih fun k hk => h k (List.mem_cons_of_mem j hk))

/-! ## Accepted types have plain layouts -/

theorem plainLayout_fixed {t : Ty} (h : t.isVariable = false) (p : Spot) :
    PlainLayout [.checked t.getSize (t.encode nbt m p)] (t.encode nbt m p) :=
  .checked (length_encode_fixed nbt m t h p).symm

mutual

theorem Ty.built_of_accepted (t : Ty) {siblings : List (String × Ty)}
    (hacc : t.Accepted forward siblings) : t.Built := by
  cases t with
  | native n => trivial
  | typedef name base => exact base.built_of_accepted hacc.2
  | void => trivial
  | container fields => exact fields.built_of_accepted hacc
  | «switch» up compareTo cases =>
      rcases hacc with ⟨-, compared, -, hcases⟩
      exact cases.built_of_accepted hcases
  | array count element =>
      rcases hacc with ⟨rfl, helement⟩
      exact ⟨trivial, element.built_of_accepted helement⟩
  | rest element => exact hacc.elim
  | bitfield fields => exact hacc.elim
  | option base => exact hacc.elim

theorem Fields.built_of_accepted (fields : Fields) {siblings : List (String × Ty)}
    (hacc : fields.Accepted forward siblings) : fields.Built := by
  cases fields with
  | nil => trivial
  | cons name t fields =>
      rcases hacc with ⟨hat, -, -, harest⟩
      exact ⟨t.built_of_accepted hat, fields.built_of_accepted harest⟩

theorem Cases.built_of_accepted (cases : Cases) {compared : Ty}
    (hacc : cases.Accepted forward compared) : cases.Built := by
  cases cases with
  | nil => trivial
  | cons name t value cases =>
      rcases hacc with ⟨hat, -, -, harest⟩
      exact ⟨t.built_of_accepted hat, cases.built_of_accepted harest⟩

end

theorem length_element_le {element : Ty} {p : Spot} {j : ℕ} (hj : j < countAt m p) :
    (element.encode nbt m ((p.sub "elements").elem j)).length ≤
      (elementsBytes nbt m element p).length := by
  have hmem : element.encode nbt m ((p.sub "elements").elem j) ∈
      (List.range (countAt m p)).map fun j => element.encode nbt m ((p.sub "elements").elem j) :=
    List.mem_map.mpr ⟨j, List.mem_range.mpr hj, rfl⟩
  rw [elementsBytes, List.flatMap_def]
  exact (List.sublist_flatten_of_mem hmem).length_le

mutual

theorem Ty.plainLayout (t : Ty) {siblings : List (String × Ty)}
    (hacc : t.Accepted forward siblings) (p : Spot) (hvalue : t.IsValue m p)
    (hlen : (t.encode nbt m p).length < 2 ^ 31) :
    PlainLayout (t.layout nbt m p) (t.encode nbt m p) := by
  cases t with
  | native n =>
      rw [Ty.layout, Ty.encode]
      cases h : (Ty.native n).isVariable with
      | true =>
          rw [if_pos rfl, if_neg hacc.2]
          refine ⟨?_, by simp [Piece.written]⟩
          intro x hx
          rw [List.mem_singleton] at hx
          rw [hx]
          trivial
      | false =>
          rw [if_neg Bool.false_ne_true]
          exact plainLayout_fixed nbt h p
  | typedef name base =>
      rw [Ty.encode] at hlen
      rw [Ty.layout, Ty.encode]
      cases h : base.isVariable with
      | true => exact (base.plainLayout hacc.2 _ hvalue hlen).returned hlen
      | false => exact plainLayout_fixed nbt h _
  | void => exact .nil
  | container fields =>
      rw [Ty.layout, Ty.encode]
      exact (fields.plainLayout hacc p hvalue hlen).1
  | «switch» up compareTo cases =>
      rcases hacc with ⟨-, compared, -, hcases⟩
      rw [Ty.layout, Ty.encode]
      exact cases.plainLayout hcases _ p hvalue hlen
  | array count element =>
      rcases hacc with ⟨hcount, helement⟩
      rcases hvalue with ⟨hvcount, hrange, hvelement⟩
      rw [Ty.encode, List.length_append] at hlen
      have hrest : (elementsBytes nbt m element p).length < 2 ^ 31 := by
        rw [elementsBytes]
        omega
      have hacount : count.Accepted forward [] := by
        rw [hcount]
        exact ⟨by decide, by decide⟩
      rw [Ty.layout, Ty.encode]
      refine (count.plainLayout hacount _ hvcount (by omega)).append ?_
      cases h : element.isVariable with
      | true =>
          rw [if_pos rfl]
          refine .flatMap _ fun j hj => ?_
          have hlt := List.mem_range.mp hj
          exact element.plainLayout helement _ (hvelement j hlt)
            ((length_element_le nbt hlt).trans_lt hrest)
      | false =>
          rw [if_neg Bool.false_ne_true]
          exact .checked (roomOf_eq_length nbt h hrange hrest)
  | rest element => exact hacc.elim
  | bitfield fields => exact hacc.elim
  | option base => exact hacc.elim

theorem Fields.plainLayout (fields : Fields) {siblings : List (String × Ty)}
    (hacc : fields.Accepted forward siblings) (p : Spot) (hvalue : fields.IsValue m p)
    (hlen : (fields.encode nbt m p).length < 2 ^ 31) :
    PlainLayout (fields.layout nbt m false p) (fields.encode nbt m p) ∧
      ∃ rest, PlainLayout (fields.layout nbt m true p) rest ∧
        fields.encode nbt m p = fields.runBytes nbt m p ++ rest := by
  cases fields with
  | nil => exact ⟨.nil, [], .nil, rfl⟩
  | cons name t fields =>
      rcases hacc with ⟨hat, -, -, harest⟩
      rcases hvalue with ⟨hvt, hvrest⟩
      rw [Fields.encode, List.length_append] at hlen
      rcases fields.plainLayout harest p hvrest (by omega) with ⟨hclosed, rest, hopen, hrest⟩
      cases h : t.isVariable with
      | true =>
          have hboth := (t.plainLayout hat _ hvt (by omega)).append hclosed
          simp only [Fields.layout, Fields.encode, Fields.runBytes, h, if_true]
          exact ⟨hboth, _, hboth, rfl⟩
      | false =>
          have hrun := length_runBytes nbt m (Fields.cons name t fields) p
          have hfirst : PlainLayout (.checked (Fields.cons name t fields).fixedTotal
              ((Fields.cons name t fields).runBytes nbt m p) :: fields.layout nbt m true p)
              ((Fields.cons name t fields).runBytes nbt m p ++ rest) :=
            (PlainLayout.checked hrun.symm).append hopen
          simp only [Fields.layout, Fields.encode, Fields.runBytes, h, if_false, if_true,
            Bool.false_eq_true, hrest, List.append_assoc] at hfirst ⊢
          exact ⟨hfirst, rest, hopen, rfl⟩

theorem Cases.plainLayout (cases : Cases) {compared : Ty}
    (hacc : cases.Accepted forward compared) (discriminant : Loc) (p : Spot)
    (hvalue : cases.IsValue m discriminant p)
    (hlen : (cases.encode nbt m discriminant p).length < 2 ^ 31) :
    PlainLayout (cases.layout nbt m discriminant p) (cases.encode nbt m discriminant p) := by
  cases cases with
  | nil => exact .nil
  | cons name t value cases =>
      rcases hacc with ⟨hat, -, -, harest⟩
      rw [Cases.IsValue] at hvalue
      rw [Cases.encode] at hlen
      rw [Cases.layout, Cases.encode]
      by_cases hholds : value.holds m discriminant = true
      · rw [if_pos hholds] at hvalue hlen ⊢
        rw [if_pos hholds]
        exact t.plainLayout hat _ hvalue hlen
      · rw [if_neg hholds] at hvalue hlen ⊢
        rw [if_neg hholds]
        exact cases.plainLayout harest discriminant p hvalue hlen

end

end

/-! ## Calls -/

section

variable (sizeof : Ty → ℕ) (m : Loc → ℤ)

/-- What a reader is given: `n` bytes that a writer left, whatever is behind them, and room in the
arena. -/
structure Received (t : Ty) (packet : Loc) (n : ℕ) (written buffer : ℕ → UInt8) (size : ℕ)
    (arena : TickArena) : Prop where
  starts : ∀ i < n, buffer i = written i
  size_le : n ≤ size
  size_lt : size < 2 ^ 31
  need_le : arena.currentOffset + t.need sizeof m ⟨packet, []⟩ ≤ arena.maxSize
  maxSize_lt : arena.maxSize < 2 ^ 64

/-- There are zeros where the value goes. -/
structure Input (t : Ty) (packet : Loc) (n : ℕ) (written buffer : ℕ → UInt8) (size : ℕ)
    (arena : TickArena) (mem : Loc → ℤ) : Prop extends
    Received sizeof m t packet n written buffer size arena where
  zero : ∀ l, packet <:+ l → mem l = 0

/-- The value is in the memory of a state. -/
def Restored (t : Ty) (packet : Loc) (s : Core) : Prop :=
  ∀ l ∈ t.scalars m ⟨packet, []⟩, s.mem l = m l

/-- The writer returns the length of the encoding, and the reader gets the value back from it. -/
def RoundTrips (rnd rnd' : String → ℕ → ℕ) (name : String) (t : Ty) (packet : Loc) (n : ℕ)
    (buffer : ℕ → UInt8) (size : ℕ) (arena : TickArena) : Prop :=
  ∃ s, callFunction sizeof (generateWrite rnd name t) packet (Core.start buffer size arena m) =
      some ((n : ℤ), s) ∧
    ∀ input inputSize inputArena mem,
      Input sizeof m t packet n s.buffer input inputSize inputArena mem →
      ∃ s', callFunction sizeof (generateRead rnd' name t) packet
          (Core.start input inputSize inputArena mem) = some ((n : ℤ), s') ∧
        Restored m t packet s'

variable {sizeof m}

theorem Input.readable {t : Ty} {packet : Loc} {written buffer : ℕ → UInt8} {size : ℕ}
    {arena : TickArena} {mem : Loc → ℤ} {bytes : List UInt8}
    (h : Input sizeof m t packet bytes.length written buffer size arena mem)
    (hwritten : At written 0 bytes) :
    Readable bytes bytes.length (t.need sizeof m ⟨packet, []⟩) (t.scalars m ⟨packet, []⟩)
      (Core.start buffer size arena mem) where
  bytes_at := by
    intro i hi
    have hbyte := hwritten i hi
    simp only [Core.start, Nat.zero_add] at hbyte ⊢
    rw [h.starts i hi, hbyte]
  paid_le := by
    have := h.size_le
    simp only [Core.start]
    omega
  size_lt := by
    have := h.size_lt
    simp only [Core.start]
    omega
  need_le := h.need_le
  maxSize_lt := h.maxSize_lt
  zero := fun l hl => h.zero l (t.scalars_under m ⟨packet, []⟩ l hl)

end

/-- A writer with enough room writes the encoding and returns its length. -/
theorem call_encodes {size : ℕ} (hsize : size < 2 ^ 31) (sizeof : Ty → ℕ)
    (rnd : String → ℕ → ℕ) (nbt : Loc → List UInt8) (name : String) (t : Ty) {forward : Bool}
    (hacc : Ty.Accepted forward t []) (hvar : t.isVariable = true)
    (hfresh : t.Fresh rnd name [] 0) (packet : Loc) {m : Loc → ℤ}
    (hvalue : t.IsValue m ⟨packet, []⟩) {w : Walk} {s : Core} (hs : Sync size m w s)
    (hw : w.used = w.data) (hfit : w.data + (t.encode nbt m ⟨packet, []⟩).length ≤ size) :
    ∃ s', callFunction sizeof (generateWrite rnd name t) packet s =
        some (((t.encode nbt m ⟨packet, []⟩).length : ℤ), s') ∧
      s'.buffer = store w.buffer w.data (t.encode nbt m ⟨packet, []⟩) ∧
      s'.size = s.size - (t.encode nbt m ⟨packet, []⟩).length ∧ s'.mem = m := by
  have hlayout := t.plainLayout nbt hacc ⟨packet, []⟩ hvalue (by omega)
  have hreturns := call_returns hsize sizeof rnd nbt name t (t.built_of_accepted hacc) hvar
    hfresh packet hvalue hs
  have hused := (plain_lengths hlayout.plain).1
  rw [hlayout.written] at hused
  rw [← hlayout.written] at hfit
  rcases walk_plain hlayout.plain hw hfit with ⟨w', hwalk, hbuffer⟩
  rw [hlayout.written] at hbuffer hfit
  rw [hwalk] at hreturns
  rcases hreturns with ⟨s', hcall, hsync⟩
  rw [hused, toInt32_of_range (by omega) (by omega)] at hcall
  have hend := hsync.buffer_eq
  rw [store_nil] at hend
  have hspent := (walk_done hwalk).1
  have hbefore := hs.size_eq
  have hafter := hsync.size_eq
  refine ⟨s', hcall, hend.trans hbuffer, ?_, hsync.mem_eq⟩
  omega

/-- On an accepted type whose switches stand behind the fields they are compared with, the reader
undoes the writer. -/
theorem reader_inverts_writer (sizeof : Ty → ℕ) (rnd rnd' : String → ℕ → ℕ)
    (nbt : Loc → List UInt8) (name : String) (t : Ty) (hacc : t.Accepted false [])
    (hvar : t.isVariable = true) (hfresh : t.Fresh rnd name [] 0)
    (hfresh' : t.Fresh rnd' name [] 0) (packet : Loc) (hresolves : t.Resolves ⟨packet, []⟩)
    (m : Loc → ℤ) (hvalue : t.IsValue m ⟨packet, []⟩) (buffer : ℕ → UInt8) (size : ℕ)
    (hsize : size < 2 ^ 31) (hroom : (t.encode nbt m ⟨packet, []⟩).length ≤ size)
    (arena : TickArena) :
    RoundTrips sizeof m rnd rnd' name t packet (t.encode nbt m ⟨packet, []⟩).length buffer size
      arena := by
  have hlen : (t.encode nbt m ⟨packet, []⟩).length < 2 ^ 31 := hroom.trans_lt hsize
  rcases call_encodes hsize sizeof rnd nbt name t hacc hvar hfresh packet hvalue
    (sync_start m size buffer arena) rfl (by dsimp only; omega) with ⟨s, hcall, hbuffer, -⟩
  have hwritten : At s.buffer 0 (t.encode nbt m ⟨packet, []⟩) := by
    rw [hbuffer]
    exact at_store _ _ _
  refine ⟨s, hcall, ?_⟩
  intro input inputSize inputArena mem hinput
  have hread := t.decodes sizeof rnd' nbt hacc hvar hfresh' (uses_sourceOf t [])
    (shaped_sourceOf t) ⟨packet, fun _ => 0⟩ (by rwa [spot_sourceOf]) (by rwa [spot_sourceOf])
    (Core.start input inputSize inputArena mem) (fun _ _ _ hmem => by cases hmem)
  rw [spot_sourceOf] at hread
  rcases hread (hinput.readable hwritten) with ⟨s', hs', hdecoded⟩
  refine ⟨s', ?_, ?_⟩
  · have hdiff : (Core.start input inputSize inputArena mem).size - s'.size =
        (t.encode nbt m ⟨packet, []⟩).length := by
      rw [hdecoded.size]
      dsimp only
      omega
    rw [callFunction, generateRead, genReadCode, hs', finish, hdiff,
      toInt32_of_range (by omega) (by omega)]
  · intro l hl
    rw [hdecoded.mem]
    exact copyAt_of_mem hl

section

/-- A field that is there for a kind of 1. -/
def switchOnKind : Ty := .switch 0 "kind" (.cons "value" (.native .u8) (.int 1) .nil)

def kindFirst : Ty := Packets.container [("kind", .native .varint), ("data", switchOnKind)]

def kindLast : Ty := Packets.container [("data", switchOnKind), ("kind", .native .varint)]

def kindOne (l : Loc) : ℤ := if l = [.field "kind"] then 1 else 7

theorem encode_kindFirst (nbt : Loc → List UInt8) :
    (kindFirst.encode nbt kindOne ⟨[], []⟩).length = 2 := by
  simp [kindFirst, Packets.container, switchOnKind, Ty.encode, Fields.encode, Cases.encode,
    Native.bytes, Spot.sub, Loc.sub, Spot.loc, Spot.parent, Sel.isIndex, CaseValue.holds, kindOne,
    length_encode_native, Native.size, Base128.encode_of_lt (show 1 < 128 by decide)]

/-- A kind and its value in two bytes. -/
theorem reader_inverts_writer_kind :
    RoundTrips (fun _ => 1) kindOne (fun _ k => k) (fun _ k => k + 1) "kind" kindFirst [] 2
      (fun _ => 0) 2 usedArena := by
  have h := reader_inverts_writer (fun _ => 1) (fun _ k => k) (fun _ k => k + 1) (fun _ => [])
    "kind" kindFirst
    (by simp [kindFirst, Packets.container, switchOnKind, Ty.Accepted, Fields.Accepted,
      Cases.Accepted, IsMember, CaseValue.Matches, Native.isInteger, Fields.names])
    (Ty.isVariable_container _)
    (by simp [kindFirst, Packets.container, switchOnKind, Ty.Fresh, Fields.Fresh, Cases.Fresh])
    (by simp [kindFirst, Packets.container, switchOnKind, Ty.Fresh, Fields.Fresh, Cases.Fresh])
    [] (by simp [kindFirst, Packets.container, switchOnKind, Ty.Resolves, Fields.Resolves,
      Cases.Resolves, Ty.isSwitch, Spot.parent_sub])
    kindOne (by simp [kindFirst, Packets.container, switchOnKind, Ty.IsValue, Fields.IsValue,
      Cases.IsValue, Native.InRange, Spot.sub, Loc.sub, Spot.loc, Spot.parent, Sel.isIndex,
      CaseValue.holds, kindOne, Native.size])
    (fun _ => 0) 2 (by decide) (by rw [encode_kindFirst]) usedArena
  rwa [encode_kindFirst] at h

/-- A kind behind the field that depends on it is still zero when the reader looks at it. -/
theorem reader_rejects_forward_switch :
    ¬ ∀ (sizeof : Ty → ℕ) (rnd rnd' : String → ℕ → ℕ) (nbt : Loc → List UInt8) (name : String)
      (t : Ty), t.Accepted true [] → t.isVariable = true → t.Fresh rnd name [] 0 →
      t.Fresh rnd' name [] 0 → ∀ packet : Loc, t.Resolves ⟨packet, []⟩ → ∀ m : Loc → ℤ,
      t.IsValue m ⟨packet, []⟩ → ∀ (buffer : ℕ → UInt8) (size : ℕ), size < 2 ^ 31 →
      (t.encode nbt m ⟨packet, []⟩).length ≤ size → ∀ arena : TickArena,
      RoundTrips sizeof m rnd rnd' name t packet (t.encode nbt m ⟨packet, []⟩).length buffer size
        arena := by
  intro h
  have hlen : (kindLast.encode (fun _ => []) kindOne ⟨[], []⟩).length = 2 := by
    simp [kindLast, Packets.container, switchOnKind, Ty.encode, Fields.encode, Cases.encode,
      Native.bytes, Spot.sub, Loc.sub, Spot.loc, Spot.parent, Sel.isIndex, CaseValue.holds,
      kindOne, length_encode_native, Native.size, Base128.encode_of_lt (show 1 < 128 by decide)]
  have hkind := h (fun _ => 1) (fun _ k => k) (fun _ k => k) (fun _ => []) "kind" kindLast
    (by simp [kindLast, Packets.container, switchOnKind, Ty.Accepted, Fields.Accepted,
      Cases.Accepted, IsMember, CaseValue.Matches, Native.isInteger, Fields.names, Fields.toList])
    (Ty.isVariable_container _)
    (by simp [kindLast, Packets.container, switchOnKind, Ty.Fresh, Fields.Fresh, Cases.Fresh])
    (by simp [kindLast, Packets.container, switchOnKind, Ty.Fresh, Fields.Fresh, Cases.Fresh])
    [] (by simp [kindLast, Packets.container, switchOnKind, Ty.Resolves, Fields.Resolves,
      Cases.Resolves, Ty.isSwitch, Spot.parent_sub])
    kindOne (by simp [kindLast, Packets.container, switchOnKind, Ty.IsValue, Fields.IsValue,
      Cases.IsValue, Native.InRange, Spot.sub, Loc.sub, Spot.loc, Spot.parent, Sel.isIndex,
      CaseValue.holds, kindOne, Native.size])
    (fun _ => 0) 2 (by decide) (by rw [hlen]) usedArena
  rw [hlen] at hkind
  rcases hkind with ⟨s, hcall, hread⟩
  have hbytes : (callFunction (fun _ => 1) (generateWrite (fun _ k => k) "kind" kindLast) []
      (Core.start (fun _ => 0) 2 usedArena kindOne)).map
        (fun result => (result.2.buffer 0, result.2.buffer 1)) = some (7, 1) := by
    decide +kernel
  rw [hcall, Option.map_some, Option.some_inj, Prod.mk.injEq] at hbytes
  have hinput : Input (fun _ => 1) kindOne kindLast [] 2 s.buffer
      (Bytes.ofList [7, 1] fun _ => 0) 2 usedArena (fun _ => 0) := {
    starts := by
      intro i (hi : i < 2)
      obtain rfl | rfl : i = 0 ∨ i = 1 := by omega
      · exact hbytes.1.symm
      · exact hbytes.2.symm
    size_le := le_refl 2
    size_lt := by decide
    zero := fun _ _ => rfl
    need_le := by decide
    maxSize_lt := by decide }
  rcases hread _ _ _ _ hinput with ⟨s', hcall', -⟩
  have hfails : (callFunction (fun _ => 1) (generateRead (fun _ k => k) "kind" kindLast) []
      (Core.start (Bytes.ofList [7, 1] fun _ => 0) 2 usedArena fun _ => 0)).map
        (fun result => result.1) = some (-1) := by
    decide +kernel
  rw [hcall', Option.map_some, Option.some_inj] at hfails
  simp at hfails

end

end CmcServer.ProtoDef
