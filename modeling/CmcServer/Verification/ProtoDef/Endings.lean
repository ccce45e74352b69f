import CmcServer.Verification.ProtoDef.Indentation
import Mathlib.Tactic.Ring

/-! # How a piece of code ends

Whether a closing brace has room behind a piece of code depends on how the piece ends. Pieces
compose by their endings. -/

namespace CmcServer.ProtoDef

/-! ## Text without braces -/

def notBrace (c : Char) : Bool := c ≠ '\x7b' ∧ c ≠ '\x7d'

/-- A text has no braces in it. -/
def Flat (s : String) : Prop := ∀ c ∈ s.toList, notBrace c

def isLineEnd (c : Char) : Bool := c = ';' ∨ c = '\n'

/-- A text without braces that ends a line. -/
def Line (s : String) : Prop := Flat s ∧ s.toList.getLast?.any isLineEnd

theorem flat_ofList {l : List Char} (h : l.all notBrace = true) :
    Flat (String.ofList l) := by
  rw [Flat, String.toList_ofList]
  exact List.all_eq_true.mp h

theorem line_ofList {l : List Char} (h : l.all notBrace = true)
    (hend : l.getLast?.any isLineEnd = true) :
    Line (String.ofList l) := by
  refine ⟨flat_ofList h, ?_⟩
  rw [String.toList_ofList]
  exact hend

theorem flat_empty : Flat "" := flat_ofList rfl

section

variable {a b : String} {l : List Char}

theorem Flat.append (ha : Flat a) (hb : Flat b) : Flat (a ++ b) := by
  intro c hc
  rw [String.toList_append, List.mem_append] at hc
  cases hc with
  | inl hc => exact ha c hc
  | inr hc => exact hb c hc

theorem Line.after (hb : Line b) (ha : Flat a) : Line (a ++ b) := by
  obtain ⟨hflat, hend⟩ := hb
  refine ⟨ha.append hflat, ?_⟩
  obtain ⟨c, hc, hline⟩ := (Option.any_eq_true _ _).mp hend
  simp [hc, hline]

theorem Flat.lit (ha : Flat a) (h : l.all notBrace = true) :
    Flat (a ++ String.ofList l) :=
  ha.append (flat_ofList h)

theorem Flat.line (ha : Flat a) (h : l.all notBrace = true)
    (hend : l.getLast?.any isLineEnd = true) :
    Line (a ++ String.ofList l) :=
  (line_ofList h hend).after ha

end

theorem notBrace_digitChar (n : ℕ) : notBrace n.digitChar := by
  by_cases hn : n < 16
  · have hdigits : ∀ m < 16, notBrace m.digitChar := by decide
    exact hdigits n hn
  · rw [Nat.digitChar_eq_star.mpr (by omega)]
    decide

theorem flat_digits {base : ℕ} (hbase : 1 < base) (n : ℕ) :
    Flat (String.ofList (Nat.toDigits base n)) := by
  apply flat_ofList
  rw [List.all_eq_true]
  induction n using Nat.strongRecOn with
  | ind n ih =>
      intro c hc
      rw [Nat.toDigits_eq_if hbase] at hc
      split at hc
      · rw [List.mem_singleton.mp hc]
        exact notBrace_digitChar _
      · rename_i hn
        have hlt : n / base < n := Nat.div_lt_self (by omega) hbase
        obtain hc | hc := List.mem_append.mp hc
        · exact ih _ hlt c hc
        · rw [List.mem_singleton.mp hc]
          exact notBrace_digitChar _

theorem flat_nat (n : ℕ) : Flat (toString n) := by
  rw [Nat.toString_eq_ofList_toDigits]
  exact flat_digits (by decide) n

theorem flat_int (n : ℤ) : Flat (toString n) := by
  cases n with
  | ofNat n => exact flat_nat n
  | negSucc n => exact .append (flat_ofList rfl) (flat_nat (n + 1))

/-! ## Open braces and room -/

theorem openBraces_append (a b : List Char) :
    openBraces (a ++ b) = openBraces a + openBraces b := by
  simp only [openBraces, List.count_append]
  push_cast
  ring

@[simp] theorem openBraces_reverse (a : List Char) : openBraces a.reverse = openBraces a := by
  simp [openBraces]

theorem openBraces_of_flat {s : String} (h : Flat s) : openBraces s.toList = 0 := by
  have hopen : s.toList.count '\x7b' = 0 :=
    List.count_eq_zero.mpr fun hc => absurd (h _ hc) (by decide)
  have hclose : s.toList.count '\x7d' = 0 :=
    List.count_eq_zero.mpr fun hc => absurd (h _ hc) (by decide)
  rw [openBraces, hopen, hclose]
  rfl

theorem hasRoom_open {before : List Char} (h : 0 ≤ openBraces before) :
    HasRoom ('\x7b' :: before) := by
  left
  have hcount : openBraces ('\x7b' :: before) = openBraces before + 1 := by
    simp [openBraces]
    omega
  simp only [blanksBehind, true_or, if_true, hcount]
  omega

theorem not_hasRoom_close (before : List Char) : ¬ HasRoom ('\x7d' :: before) := by
  simp [HasRoom, blanksBehind, isBlank]

theorem hasRoom_line {s : String} (hs : Line s) {before : List Char}
    (h : 1 ≤ openBraces before) : HasRoom (s.toList.reverse ++ before) := by
  obtain ⟨hflat, hend⟩ := hs
  have hopen : openBraces (s.toList.reverse ++ before) = openBraces before := by
    rw [openBraces_append, openBraces_reverse, openBraces_of_flat hflat, zero_add]
  left
  obtain ⟨c, hlast, hline⟩ := (Option.any_eq_true _ _).mp hend
  obtain rfl | rfl : c = ';' ∨ c = '\n' := by simpa [isLineEnd] using hline
  · obtain ⟨init, hinit⟩ := List.getLast?_eq_some_iff.mp hlast
    have hsplit : s.toList.reverse ++ before = ';' :: (init.reverse ++ before) := by simp [hinit]
    rw [hsplit] at hopen ⊢
    simp only [blanksBehind, or_true, if_true, hopen]
    omega
  · obtain ⟨init, hinit⟩ := List.getLast?_eq_some_iff.mp hlast
    have hsplit : s.toList.reverse ++ before = '\n' :: (init.reverse ++ before) := by simp [hinit]
    have hinit : openBraces (init.reverse ++ before) = openBraces before := by
      rw [← hopen, hsplit]
      simp [openBraces]
    rw [hsplit, blanksBehind, if_neg (by decide), if_pos rfl, hinit]
    omega

theorem bracesHaveRoom_of_flat {s : String} (h : Flat s) (before : List Char) :
    BracesHaveRoom before s.toList := by
  rw [Flat] at h
  generalize s.toList = text at h
  induction text generalizing before with
  | nil => exact bracesHaveRoom_nil before
  | cons c text ih =>
      rw [bracesHaveRoom_cons]
      have hc := h c (by simp)
      refine ⟨fun hbrace => absurd hc (hbrace ▸ by decide), ?_⟩
      apply ih
      intro d hd
      exact h d (List.mem_cons_of_mem c hd)

/-! ## Endings -/

/-- How a piece of code ends: it is empty, its last line is complete, something stands on the last
line, or a closing brace in it has no room. -/
inductive Ending where
  | nothing
  | newLine
  | midLine
  | lost
  deriving DecidableEq, Repr

def Ending.seq : Ending → Ending → Ending
  | .lost, _ => .lost
  | _, .lost => .lost
  | e, .nothing => e
  | _, e => e

@[simp] theorem Ending.nothing_seq (e : Ending) : Ending.nothing.seq e = e := by cases e <;> rfl

@[simp] theorem Ending.seq_nothing (e : Ending) : e.seq .nothing = e := by cases e <;> rfl

theorem Ending.seq_assoc (e f g : Ending) : (e.seq f).seq g = e.seq (f.seq g) := by
  cases e <;> cases f <;> cases g <;> rfl

theorem Ending.seq_eq_right {e f : Ending} (he : e ≠ .lost) (hf : f ≠ .nothing) :
    e.seq f = f := by
  cases e <;> cases f <;> first | rfl | contradiction

def Ending.block : Ending → Ending
  | .nothing | .newLine => .midLine
  | .midLine | .lost => .lost

def Ending.closed : Ending → Ending
  | .nothing | .newLine => .newLine
  | .midLine | .lost => .lost

theorem Ending.closed_ne_nothing (e : Ending) : e.closed ≠ .nothing := by cases e <;> decide

@[simp] theorem Ending.closed_closed (e : Ending) : e.closed.closed = e.closed := by
  cases e <;> rfl

/-- The braces of a piece are closed in it and have room, wherever `least` braces are open. -/
structure Kept (least : ℤ) (s : String) : Prop where
  balanced : openBraces s.toList = 0
  room : ∀ before, least ≤ openBraces before → BracesHaveRoom before s.toList

/-- A piece of code ends like that wherever a brace is open. -/
def Ends : Ending → String → Prop
  | .nothing, s => s = ""
  | .newLine, s =>
      Kept 1 s ∧ ∀ before, 1 ≤ openBraces before → HasRoom (s.toList.reverse ++ before)
  | .midLine, s =>
      Kept 1 s ∧ ∀ before, 1 ≤ openBraces before → ¬ HasRoom (s.toList.reverse ++ before)
  | .lost, s => ∀ before, 1 ≤ openBraces before → ¬ BracesHaveRoom before s.toList

theorem Kept.mono {least : ℤ} {s : String} (h : Kept least s) {least' : ℤ}
    (hle : least ≤ least') : Kept least' s :=
  ⟨h.balanced, fun before hbefore => h.room before (hle.trans hbefore)⟩

theorem kept_of_flat {s : String} (h : Flat s) (least : ℤ) : Kept least s :=
  ⟨openBraces_of_flat h, fun before _ => bracesHaveRoom_of_flat h before⟩

/-- What is open behind a piece is what is open in front of it. -/
theorem Kept.openBraces_behind {least : ℤ} {s : String} (h : Kept least s) (before : List Char) :
    openBraces (s.toList.reverse ++ before) = openBraces before := by
  rw [openBraces_append, openBraces_reverse, h.balanced, zero_add]

theorem reverse_append (a b : String) (before : List Char) :
    (a ++ b).toList.reverse ++ before =
      b.toList.reverse ++ (a.toList.reverse ++ before) := by
  simp

theorem Kept.append {least : ℤ} {a b : String} (ha : Kept least a) (hb : Kept least b) :
    Kept least (a ++ b) := by
  refine ⟨?_, ?_⟩
  · rw [String.toList_append, openBraces_append, ha.balanced, hb.balanced]
    rfl
  · intro before hbefore
    rw [String.toList_append, bracesHaveRoom_append]
    refine ⟨ha.room before hbefore, hb.room _ ?_⟩
    rw [ha.openBraces_behind]
    exact hbefore

theorem ends_line {s : String} (h : Line s) : Ends .newLine s :=
  ⟨kept_of_flat h.1 1, fun _ => hasRoom_line h⟩

theorem ends_empty : Ends .nothing "" := rfl

theorem Ends.kept {e : Ending} {s : String} (h : Ends e s) (he : e ≠ .lost) : Kept 1 s := by
  cases e with
  | nothing => exact h ▸ kept_of_flat flat_empty 1
  | newLine => exact h.1
  | midLine => exact h.1
  | lost => exact absurd rfl he

/-- What a piece has lost is lost whatever follows. -/
theorem Ends.lost_append {a : String} (ha : Ends .lost a) (b : String) : Ends .lost (a ++ b) := by
  intro before hbefore
  rw [String.toList_append, bracesHaveRoom_append]
  exact fun h => ha before hbefore h.1

theorem ends_append {a b : String} {e : Ending} (ha : Kept 1 a) (hb : Ends e b)
    (he : e ≠ .nothing) : Ends e (a ++ b) := by
  cases e with
  | nothing => exact absurd rfl he
  | newLine =>
      refine ⟨ha.append hb.1, fun before hbefore => ?_⟩
      rw [reverse_append]
      exact hb.2 _ (by rwa [ha.openBraces_behind])
  | midLine =>
      refine ⟨ha.append hb.1, fun before hbefore => ?_⟩
      rw [reverse_append]
      exact hb.2 _ (by rwa [ha.openBraces_behind])
  | lost =>
      intro before hbefore
      rw [String.toList_append, bracesHaveRoom_append]
      exact fun h => hb _ (by rwa [ha.openBraces_behind]) h.2

theorem Ends.seq {a b : String} {e e' : Ending} (ha : Ends e a) (hb : Ends e' b) :
    Ends (e.seq e') (a ++ b) := by
  by_cases he : e = .lost
  · subst he
    exact ha.lost_append b
  by_cases he' : e' = .nothing
  · subst he'
    rw [show b = "" from hb, String.append_empty]
    rw [Ending.seq_nothing]
    exact ha
  · rw [Ending.seq_eq_right he he']
    exact ends_append (ha.kept he) hb he'

/-! ## Pieces in braces -/

theorem toList_open : "\x7b".toList = ['\x7b'] := by
  apply String.toList_ofList

theorem toList_close : "\x7d".toList = ['\x7d'] := by
  apply String.toList_ofList

/-- The closing brace behind a piece has room if the piece is empty or ends a line. -/
theorem bracesHaveRoom_block {head s : String} {e : Ending} (hhead : Flat head) (hs : Ends e s)
    {before : List Char} (hbefore : 0 ≤ openBraces before) :
    BracesHaveRoom before (head ++ "\x7b" ++ s ++ "\x7d").toList ↔
      e = .nothing ∨ e = .newLine := by
  have hopen : 0 ≤ openBraces (head.toList.reverse ++ before) := by
    rwa [(kept_of_flat hhead 0).openBraces_behind]
  have hinside : 1 ≤ openBraces ('\x7b' :: (head.toList.reverse ++ before)) := by
    have hcount : ∀ text, openBraces ('\x7b' :: text) = openBraces text + 1 := by
      intro text
      simp [openBraces]
      omega
    rw [hcount]
    omega
  have hblock : BracesHaveRoom before (head ++ "\x7b" ++ s ++ "\x7d").toList ↔
      BracesHaveRoom ('\x7b' :: (head.toList.reverse ++ before)) s.toList ∧
        HasRoom (s.toList.reverse ++ '\x7b' :: (head.toList.reverse ++ before)) := by
    simp only [String.toList_append, bracesHaveRoom_append, toList_open, toList_close,
      bracesHaveRoom_cons, bracesHaveRoom_of_flat hhead]
    simp
  rw [hblock]
  cases e with
  | nothing =>
      rw [show s = "" from hs]
      simp [hasRoom_open hopen]
  | newLine => simp [hs.1.room _ hinside, hs.2 _ hinside]
  | midLine => simp [hs.2 _ hinside]
  | lost => simp [hs _ hinside]

/-- A piece in braces, as long as its closing brace has room. -/
theorem kept_block {head s : String} {e : Ending} (hhead : Flat head) (hs : Ends e s)
    (he : e = .nothing ∨ e = .newLine) : Kept 0 (head ++ "\x7b" ++ s ++ "\x7d") := by
  have hbalanced : openBraces s.toList = 0 := (hs.kept (by rintro rfl; simp at he)).balanced
  refine ⟨?_, fun before hbefore => (bracesHaveRoom_block hhead hs hbefore).mpr he⟩
  simp only [String.toList_append, openBraces_append, openBraces_of_flat hhead, hbalanced,
    toList_open, toList_close]
  rfl

theorem Ends.block {head s : String} {e : Ending} (hs : Ends e s) (hhead : Flat head) :
    Ends e.block (head ++ "\x7b" ++ s ++ "\x7d") := by
  have hroom : ∀ before, 1 ≤ openBraces before →
      ¬ HasRoom ((head ++ "\x7b" ++ s ++ "\x7d").toList.reverse ++ before) := by
    intro before _
    rw [reverse_append, toList_close]
    exact not_hasRoom_close _
  have hlost : ¬ (e = .nothing ∨ e = .newLine) →
      Ends .lost (head ++ "\x7b" ++ s ++ "\x7d") := by
    intro he before hbefore
    rw [bracesHaveRoom_block hhead hs (by omega)]
    exact he
  cases e with
  | nothing => exact ⟨(kept_block hhead hs (by simp)).mono (by decide), hroom⟩
  | newLine => exact ⟨(kept_block hhead hs (by simp)).mono (by decide), hroom⟩
  | midLine => exact hlost (by simp)
  | lost => exact hlost (by simp)

/-- A closing brace with the end of its line behind it. -/
def Closer (close : String) : Prop := ∃ tail, close = "\x7d" ++ tail ∧ Line tail

theorem closer_semicolon : Closer "\x7d;" := ⟨";", rfl, line_ofList rfl rfl⟩

theorem closer_break : Closer "\x7d break;" := ⟨" break;", rfl, line_ofList rfl rfl⟩

theorem closer_newline : Closer "\x7d\n" := ⟨"\n", rfl, line_ofList rfl rfl⟩

theorem Ends.closed {head s close : String} {e : Ending} (hs : Ends e s) (hhead : Flat head)
    (hclose : Closer close) : Ends e.closed (head ++ "\x7b" ++ s ++ close) := by
  obtain ⟨tail, rfl, htail⟩ := hclose
  have hseq : e.closed = e.block.seq .newLine := by cases e <;> rfl
  rw [hseq, ← String.append_assoc]
  exact (hs.block hhead).seq (ends_line htail)

/-! ## Pieces behind which a brace has room -/

/-- A piece is empty or ends a line. -/
def Tidy (s : String) : Prop := Ends .nothing s ∨ Ends .newLine s

theorem tidy_empty : Tidy "" := .inl rfl

theorem Line.tidy {s : String} (h : Line s) : Tidy s := .inr (ends_line h)

theorem Tidy.kept {s : String} (h : Tidy s) : Kept 1 s := by
  cases h with
  | inl h => exact h.kept (by decide)
  | inr h => exact h.kept (by decide)

theorem Tidy.append {a b : String} (ha : Tidy a) (hb : Tidy b) : Tidy (a ++ b) := by
  cases hb with
  | inl hb =>
      rw [show b = "" from hb, String.append_empty]
      exact ha
  | inr hb => exact .inr (ends_append ha.kept hb (by decide))

theorem tidy_ofList {l : List Char} (h : l.all notBrace = true)
    (hend : l.getLast?.any isLineEnd = true) :
    Tidy (String.ofList l) :=
  (line_ofList h hend).tidy

theorem Tidy.line {a : String} {l : List Char} (ha : Tidy a)
    (h : l.all notBrace = true)
    (hend : l.getLast?.any isLineEnd = true) :
    Tidy (a ++ String.ofList l) :=
  ha.append (tidy_ofList h hend)

/-- What is tidy does not show between two pieces. -/
theorem Tidy.seq {a b c d : String} {e e' : Ending} (ha : Tidy a) (hb : Ends e b) (hc : Tidy c)
    (hd : Ends e' d) (he' : e' ≠ .nothing) : Ends (e.seq e') (a ++ b ++ c ++ d) := by
  by_cases he : e = .lost
  · subst he
    exact ((ends_append ha.kept hb (by decide)).lost_append c).lost_append d
  · rw [Ending.seq_eq_right he he']
    exact ends_append ((ha.kept.append (hb.kept he)).append hc.kept) hd he'

/-- What is tidy in front of a piece in braces does not show behind them. -/
theorem Tidy.closed_append {head a b close : String} {e : Ending} (ha : Tidy a) (hb : Ends e b)
    (hhead : Flat head) (hclose : Closer close) :
    Ends e.closed (head ++ "\x7b" ++ (a ++ b) ++ close) := by
  cases ha with
  | inl ha =>
      have h := (ha.seq hb).closed hhead hclose
      cases e <;> exact h
  | inr ha =>
      have h := (ha.seq hb).closed hhead hclose
      cases e <;> exact h

theorem Tidy.closed {head s close : String} (hs : Tidy s) (hhead : Flat head)
    (hclose : Closer close) : Ends .newLine (head ++ "\x7b" ++ s ++ close) := by
  cases hs with
  | inl hs => exact hs.closed hhead hclose
  | inr hs => exact hs.closed hhead hclose

end CmcServer.ProtoDef
