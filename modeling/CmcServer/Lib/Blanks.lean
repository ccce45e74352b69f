import Mathlib.Data.List.DropRight
import Mathlib.Tactic.Common

/-! # Blanks

Lists some of whose elements are blanks: what is left without them, and how many stand at the
end. -/

namespace Blanks

variable {α : Type*} (blank : α → Bool)

/-- A list without its blanks. -/
def strip (l : List α) : List α := l.filter (!blank ·)

/-- The number of blanks at the end of a list. -/
def margin (l : List α) : ℕ := (l.rtakeWhile blank).length

variable {blank} {l : List α} {x : α}

@[simp] theorem strip_nil : strip blank ([] : List α) = [] := rfl

theorem strip_cons (x : α) (l : List α) :
    strip blank (x :: l) = if blank x then strip blank l else x :: strip blank l := by
  by_cases h : blank x = true <;> simp [strip, h]

@[simp] theorem strip_append (l m : List α) :
    strip blank (l ++ m) = strip blank l ++ strip blank m :=
  List.filter_append l m

theorem strip_eq_nil_iff : strip blank l = [] ↔ ∀ x ∈ l, blank x := by
  simp [strip, List.filter_eq_nil_iff]

@[simp] theorem strip_replicate (n : ℕ) (h : blank x = true) :
    strip blank (List.replicate n x) = [] := by
  rw [strip_eq_nil_iff]
  intro y hy
  rw [List.eq_of_mem_replicate hy]
  exact h

@[simp] theorem margin_nil : margin blank ([] : List α) = 0 := rfl

theorem margin_concat : margin blank (l ++ [x]) = if blank x then margin blank l + 1 else 0 := by
  rw [margin, List.rtakeWhile_concat]
  split
  · simp [margin]
  · rfl

theorem margin_append_replicate (n : ℕ) (h : blank x = true) :
    margin blank (l ++ List.replicate n x) = margin blank l + n := by
  induction n with
  | zero => simp
  | succ n ih =>
      rw [List.replicate_succ', ← List.append_assoc, margin_concat, if_pos h, ih]
      rfl

/-! ## Dropping from the end -/

/-- The last elements are blanks if that many stand at the end, or if there is nothing else. -/
theorem forall_mem_rtake_iff (l : List α) (n : ℕ) :
    (∀ x ∈ l.rtake n, blank x) ↔ n ≤ margin blank l ∨ ∀ x ∈ l, blank x := by
  induction l using List.reverseRecOn generalizing n with
  | nil => simp
  | append_singleton l x ih =>
      cases n with
      | zero => simp
      | succ n =>
          rw [List.rtake_concat_succ, margin_concat]
          by_cases hx : blank x = true
          · simp [or_imp, forall_and, ih, hx]
          · simp [or_imp, forall_and, hx]

/-- Dropping from the end takes nothing but blanks away if what is dropped is blank. -/
theorem strip_rdrop_eq_iff (l : List α) (n : ℕ) :
    strip blank (l.rdrop n) = strip blank l ↔ ∀ x ∈ l.rtake n, blank x := by
  have hsplit : l = l.rdrop n ++ l.rtake n := (List.take_append_drop _ l).symm
  have hstrip : strip blank l = strip blank (l.rdrop n) ++ strip blank (l.rtake n) := by
    rw [← strip_append, ← hsplit]
  rw [← strip_eq_nil_iff, hstrip]
  simp

theorem strip_rdrop_sublist (l : List α) (n : ℕ) :
    (strip blank (l.rdrop n)).Sublist (strip blank l) :=
  (List.take_sublist _ l).filter _

end Blanks
