import CmcServer.Lib.Blanks
import CmcServer.Model.ProtoDef.Beautify

/-! # What `beautify` keeps

`beautify` drops four characters in front of every closing brace. Whether they are blanks can be
told from the text that it reads. -/

namespace CmcServer.ProtoDef

open Blanks

/-! ## Blanks in front of a brace -/

def isBlank (c : Char) : Bool := c.isWhitespace

def deleteWhitespace (s : String) : List Char := strip isBlank s.toList

/-- The braces that are open after a text. -/
def openBraces (text : List Char) : ℤ := text.count '\x7b' - text.count '\x7d'

/-- The blanks in front of the next character when every line is indented by its open braces. The
text before it is given from its end. -/
def blanksBehind : List Char → ℕ
  | [] => 0
  | c :: before =>
      if c = '\x7b' ∨ c = ';' then 1 + 4 * (openBraces (c :: before)).toNat
      else if c = '\n' then blanksBehind before + 1 + 4 * (openBraces before).toNat
      else if isBlank c then blanksBehind before + 1
      else 0

/-- Four characters can be dropped behind a text, given from its end. -/
def HasRoom (before : List Char) : Prop := 4 ≤ blanksBehind before ∨ ∀ c ∈ before, isBlank c

/-- Every closing brace of a text has room in front of it, where the text follows another one that
is given from its end. -/
def BracesHaveRoom : List Char → List Char → Prop
  | _, [] => True
  | before, c :: text => (c = '\x7d' → HasRoom before) ∧ BracesHaveRoom (c :: before) text

instance (before : List Char) : Decidable (HasRoom before) :=
  inferInstanceAs (Decidable (_ ∨ _))

instance decidableBracesHaveRoom : (before text : List Char) →
    Decidable (BracesHaveRoom before text)
  | _, [] => isTrue trivial
  | before, c :: text =>
      have := decidableBracesHaveRoom (c :: before) text
      inferInstanceAs (Decidable ((c = '\x7d' → HasRoom before) ∧ BracesHaveRoom _ text))

@[simp] theorem bracesHaveRoom_nil (before : List Char) : BracesHaveRoom before [] := trivial

theorem bracesHaveRoom_cons (before : List Char) (c : Char) (text : List Char) :
    BracesHaveRoom before (c :: text) ↔
      (c = '\x7d' → HasRoom before) ∧ BracesHaveRoom (c :: before) text :=
  Iff.rfl

attribute [irreducible] BracesHaveRoom

theorem bracesHaveRoom_append (before text rest : List Char) :
    BracesHaveRoom before (text ++ rest) ↔
      BracesHaveRoom before text ∧ BracesHaveRoom (text.reverse ++ before) rest := by
  induction text generalizing before with
  | nil => simp
  | cons c text ih => simp [bracesHaveRoom_cons, ih, and_assoc]

/-! ## The printer on a text -/

namespace Printer

theorem step_open (p : Printer) :
    p.step '\x7b' = ⟨p.fs ++ ['\x7b'] ++ ['\n'] ++ indentation (p.depth + 1), p.depth + 1⟩ := rfl

theorem step_close (p : Printer) : p.step '\x7d' = ⟨p.fs.rdrop 4 ++ ['\x7d'], p.depth - 1⟩ := rfl

theorem step_semicolon (p : Printer) :
    p.step ';' = ⟨p.fs ++ [';'] ++ ['\n'] ++ indentation p.depth, p.depth⟩ := rfl

theorem step_newline (p : Printer) :
    p.step '\n' = ⟨p.fs ++ ['\n'] ++ indentation p.depth, p.depth⟩ := rfl

theorem step_other (p : Printer) {c : Char} (hopen : c ≠ '\x7b') (hclose : c ≠ '\x7d')
    (hsemicolon : c ≠ ';') (hline : c ≠ '\n') : p.step c = ⟨p.fs ++ [c], p.depth⟩ := by
  simp [step, hopen, hclose, hsemicolon, hline]

@[simp] theorem strip_indentation (depth : ℤ) : strip isBlank (indentation depth) = [] :=
  strip_replicate _ rfl

theorem margin_indentation (fs : List Char) (depth : ℤ) :
    margin isBlank (fs ++ indentation depth) = margin isBlank fs + 4 * depth.toNat :=
  margin_append_replicate _ rfl

/-- A printer has as many open braces and blanks at its end as the text it has read says. -/
structure Follows (p : Printer) (before : List Char) : Prop where
  depth : p.depth = openBraces before
  blanks : margin isBlank p.fs = blanksBehind before
  empty : strip isBlank p.fs = [] ↔ strip isBlank before = []

theorem follows_nil : Follows ⟨[], 0⟩ [] := ⟨rfl, rfl, by simp⟩

variable {p : Printer} {before : List Char}

theorem Follows.step (h : Follows p before) (c : Char) : Follows (p.step c) (c :: before) := by
  have hdepth := h.depth
  have hblanks := h.blanks
  have hempty := h.empty
  by_cases hopen : c = '\x7b'
  · subst hopen
    have hcount : openBraces ('\x7b' :: before) = openBraces before + 1 := by
      simp [openBraces]
      omega
    rw [step_open]
    refine ⟨?_, ?_, ?_⟩
    · rw [hcount, ← hdepth]
    · rw [margin_indentation, margin_concat, margin_concat, blanksBehind, hcount, ← hdepth]
      rfl
    · simp [strip_cons, isBlank]
  by_cases hclose : c = '\x7d'
  · subst hclose
    have hcount : openBraces ('\x7d' :: before) = openBraces before - 1 := by
      simp [openBraces]
      omega
    rw [step_close]
    refine ⟨?_, ?_, ?_⟩
    · rw [hcount, ← hdepth]
    · rw [margin_concat]
      rfl
    · simp [strip_cons, isBlank]
  have hcount : openBraces (c :: before) = openBraces before := by
    simp [openBraces, hopen, hclose]
  by_cases hsemicolon : c = ';'
  · subst hsemicolon
    rw [step_semicolon]
    refine ⟨?_, ?_, ?_⟩
    · rw [hcount, ← hdepth]
    · rw [margin_indentation, margin_concat, margin_concat, blanksBehind, hcount, ← hdepth]
      rfl
    · simp [strip_cons, isBlank]
  by_cases hline : c = '\n'
  · subst hline
    rw [step_newline]
    refine ⟨?_, ?_, ?_⟩
    · rw [hcount, ← hdepth]
    · rw [margin_indentation, margin_concat, blanksBehind, ← hdepth, ← hblanks]
      rfl
    · simp [strip_cons, isBlank, hempty]
  rw [step_other p hopen hclose hsemicolon hline]
  refine ⟨?_, ?_, ?_⟩
  · rw [hcount, ← hdepth]
  · simp [margin_concat, blanksBehind, hopen, hsemicolon, hline, hblanks]
  · by_cases hc : isBlank c = true
    · simp [strip_cons, hc, hempty]
    · simp [strip_cons, hc]

/-- Any character but a closing brace is only added to. -/
theorem strip_step_of_ne (p : Printer) {c : Char} (hclose : c ≠ '\x7d') :
    strip isBlank (p.step c).fs = strip isBlank p.fs ++ strip isBlank [c] := by
  by_cases hopen : c = '\x7b'
  · subst hopen
    simp [step_open, strip_cons, isBlank]
  by_cases hsemicolon : c = ';'
  · subst hsemicolon
    simp [step_semicolon, strip_cons, isBlank]
  by_cases hline : c = '\n'
  · subst hline
    simp [step_newline, strip_cons, isBlank]
  simp [step_other p hopen hclose hsemicolon hline]

/-- A closing brace is kept with what stands in front of it if it has room. -/
theorem strip_step_iff (h : Follows p before) (c : Char) :
    strip isBlank (p.step c).fs = strip isBlank p.fs ++ strip isBlank [c] ↔
      (c = '\x7d' → HasRoom before) := by
  by_cases hclose : c = '\x7d'
  · subst hclose
    rw [step_close, strip_append, List.append_left_inj, strip_rdrop_eq_iff, forall_mem_rtake_iff,
      h.blanks, ← strip_eq_nil_iff, h.empty, strip_eq_nil_iff]
    simp [HasRoom]
  · simp [strip_step_of_ne p hclose, hclose]

theorem strip_step_sublist (p : Printer) (c : Char) :
    (strip isBlank (p.step c).fs).Sublist (strip isBlank p.fs ++ strip isBlank [c]) := by
  by_cases hclose : c = '\x7d'
  · subst hclose
    rw [step_close, strip_append]
    exact (strip_rdrop_sublist p.fs 4).append (List.Sublist.refl _)
  · rw [strip_step_of_ne p hclose]

theorem strip_run_sublist (p : Printer) (text : List Char) :
    (strip isBlank (p.run text).fs).Sublist (strip isBlank p.fs ++ strip isBlank text) := by
  induction text generalizing p with
  | nil => simp [run]
  | cons c text ih =>
      have hsplit : strip isBlank (c :: text) = strip isBlank [c] ++ strip isBlank text :=
        strip_append [c] text
      rw [hsplit, ← List.append_assoc]
      exact (ih (p.step c)).trans ((strip_step_sublist p c).append (List.Sublist.refl _))

/-- A text is kept if its closing braces have room. What one of them loses does not come back, so
nothing else keeps it. -/
theorem strip_run_iff (h : Follows p before) (text : List Char) :
    strip isBlank (p.run text).fs = strip isBlank p.fs ++ strip isBlank text ↔
      BracesHaveRoom before text := by
  induction text generalizing p before with
  | nil => simp [run]
  | cons c text ih =>
      have hsplit : strip isBlank (c :: text) = strip isBlank [c] ++ strip isBlank text :=
        strip_append [c] text
      have hrest := ih (h.step c)
      have hstep := strip_step_iff h c
      rw [bracesHaveRoom_cons, ← hrest, ← hstep, hsplit, ← List.append_assoc]
      change strip isBlank ((p.step c).run text).fs = _ ↔ _
      constructor
      · intro hall
        have hkeep : strip isBlank (p.step c).fs = strip isBlank p.fs ++ strip isBlank [c] := by
          have hlength := (strip_run_sublist (p.step c) text).length_le
          simp only [hall, List.length_append] at hlength
          apply (strip_step_sublist p c).eq_of_length_le
          rw [List.length_append]
          omega
        exact ⟨hkeep, hkeep ▸ hall⟩
      · intro ⟨hkeep, hall⟩
        rw [hall, hkeep]

end Printer

/-- `beautify` changes nothing but whitespace if every closing brace has room in front of it. -/
theorem beautify_keeps_iff (s : String) :
    deleteWhitespace (beautify s) = deleteWhitespace s ↔ BracesHaveRoom [] s.toList := by
  rw [← Printer.strip_run_iff Printer.follows_nil, deleteWhitespace, beautify, String.toList_ofList]
  rfl

end CmcServer.ProtoDef
