import Mathlib.Data.List.Basic
import Mathlib.Tactic.Common

/-! # Channels

Messages are sent over a channel that writes them out, some time after they were sent. What was
written, what waits to be written and what was sent are lists of the same symbols. -/

namespace Channel

variable {α β : Type*} {written waiting sent : List α}

/-- Everything that was sent is written or waits, in the order in which it was sent. -/
def Intact (written waiting sent : List α) : Prop := written ++ waiting = sent

theorem intact_nil : Intact ([] : List α) [] [] := rfl

namespace Intact

/-- What was written are the first symbols that were sent. -/
theorem isPrefix (h : Intact written waiting sent) : written <+: sent := ⟨waiting, h⟩

/-- One more message waits. -/
theorem send (h : Intact written waiting sent) (message : List α) :
    Intact written (waiting ++ message) (sent ++ message) := by
  rw [Intact, ← List.append_assoc]
  exact congrArg (· ++ message) h

/-- The message that waits longest is written. -/
theorem write {message : List α} (h : Intact written (message ++ waiting) sent) :
    Intact (written ++ message) waiting sent := by
  rw [Intact, List.append_assoc]
  exact h

/-- The beginning of that message is written. -/
theorem write_part {message part : List α} (h : Intact written (message ++ waiting) sent)
    (hpart : part <+: message) : written ++ part <+: sent := by
  have hwritten : written ++ part <+: written ++ message :=
    (List.prefix_append_right_inj written).mpr hpart
  exact hwritten.trans h.write.isPrefix

end Intact

/-! ## Queues of messages -/

/-- The symbols of a queue, of which one entry leaves that has none. -/
theorem flatMap_erase_of_nil [DecidableEq β] {f : β → List α} {entry : β} (queue : List β)
    (hnil : f entry = []) : (queue.erase entry).flatMap f = queue.flatMap f := by
  induction queue with
  | nil => rfl
  | cons b queue ih =>
      by_cases hb : b = entry
      · rw [hb, List.erase_cons_head, List.flatMap_cons, hnil, List.nil_append]
      · rw [List.erase_cons_tail (by simpa using hb), List.flatMap_cons, List.flatMap_cons, ih]

/-- The symbols of a queue, of which the first entry leaves that has some. -/
theorem flatMap_erase_of_find [DecidableEq β] {f : β → List α} {p : β → Bool} {entry : β}
    {queue : List β} (hnil : ∀ b, p b = false → f b = []) (hfind : queue.find? p = some entry) :
    queue.flatMap f = f entry ++ (queue.erase entry).flatMap f := by
  induction queue with
  | nil => cases hfind
  | cons b queue ih =>
      rw [List.flatMap_cons]
      cases hb : p b with
      | true =>
          rw [List.find?_cons_of_pos hb] at hfind
          cases hfind
          rw [List.erase_cons_head]
      | false =>
          rw [List.find?_cons_of_neg (by simp [hb])] at hfind
          have hne : b ≠ entry := by
            rintro rfl
            rw [List.find?_some hfind] at hb
            cases hb
          rw [List.erase_cons_tail (by simpa using hne), List.flatMap_cons, hnil b hb, ih hfind]
          rfl

end Channel
