import CmcServer.Lib.Runs
import Mathlib.Data.List.Nodup

/-! # A lock given in the order of arrival

The clients that asked for the lock and have not given it back stand in a queue. Only the first
of them may take the lock, and it stays the first while it has it. -/

open Runs

/-- The queue of a lock, and whether its first client has the lock. -/
structure FairLock (ι : Type*) where
  queue : List ι
  held : Bool
  deriving DecidableEq

namespace FairLock

inductive Event (ι : Type*) where
  | ask (client : ι)
  | take (client : ι)
  | give (client : ι)
  deriving DecidableEq

variable {ι : Type*} [DecidableEq ι]

def free (ι : Type*) : FairLock ι := ⟨[], false⟩

def step (s : FairLock ι) : Event ι → Option (FairLock ι)
  | .ask t => if t ∈ s.queue then none else some { s with queue := s.queue ++ [t] }
  | .take t =>
      if s.queue.head? = some t ∧ s.held = false then some { s with held := true } else none
  | .give t =>
      if s.queue.head? = some t ∧ s.held = true then
        some { queue := s.queue.tail, held := false }
      else none

/-- The clients that have asked, in order. -/
def asked (events : List (Event ι)) : List ι :=
  events.filterMap fun | .ask t => some t | _ => none

/-- The clients that have taken the lock, in order. -/
def taken (events : List (Event ι)) : List ι :=
  events.filterMap fun | .take t => some t | _ => none

/-- The clients that have not taken the lock yet. -/
def waiting (s : FairLock ι) : List ι := if s.held then s.queue.tail else s.queue

/-- The state of a lock after some events. -/
structure Sound (events : List (Event ι)) (s : FairLock ι) : Prop where
  queue_nodup : s.queue.Nodup
  queue_ne : s.held = true → s.queue ≠ []
  asked_eq : asked events = taken events ++ s.waiting

theorem sound_step {events : List (Event ι)} {s u : FairLock ι} {e : Event ι}
    (h : Sound events s) (hstep : s.step e = some u) : Sound (events ++ [e]) u := by
  obtain ⟨hnodup, hne, hasked⟩ := h
  cases e with
  | ask t =>
      simp only [step, Option.ite_none_left_eq_some, Option.some.injEq] at hstep
      obtain ⟨hfresh, rfl⟩ := hstep
      refine ⟨?_, ?_, ?_⟩
      · simpa only [List.concat_eq_append] using hnodup.concat hfresh
      · simp
      · have hwaiting : waiting { s with queue := s.queue ++ [t] } = s.waiting ++ [t] := by
          simp only [waiting]
          split
          · exact List.tail_append_of_ne_nil (hne ‹_›)
          · rfl
        simp [asked, taken, hwaiting] at hasked ⊢
        simp [hasked]
  | take t =>
      simp only [step, Option.ite_none_right_eq_some, Option.some.injEq] at hstep
      obtain ⟨⟨hhead, hfree⟩, rfl⟩ := hstep
      obtain ⟨rest, hqueue⟩ := List.head?_eq_some_iff.mp hhead
      refine ⟨hnodup, by simp [hqueue], ?_⟩
      simp [asked, taken, waiting, hqueue, hfree] at hasked ⊢
      exact hasked
  | give t =>
      simp only [step, Option.ite_none_right_eq_some, Option.some.injEq] at hstep
      obtain ⟨⟨hhead, hheld⟩, rfl⟩ := hstep
      refine ⟨hnodup.sublist (List.tail_sublist _), by simp, ?_⟩
      simp [asked, taken, waiting, hheld] at hasked ⊢
      exact hasked

theorem run_sound {s : FairLock ι} {trace : List (Transition (FairLock ι) (Event ι))}
    (h : Run step (free ι) trace s) : Sound (trace.map Transition.event) s := by
  induction h with
  | nil => exact ⟨List.nodup_nil, by simp [free], rfl⟩
  | snoc _ hstep ih =>
      rw [List.map_append]
      exact sound_step ih hstep

/-- The lock is taken in the order in which it is asked for. -/
theorem taken_prefix {s : FairLock ι} {trace : List (Transition (FairLock ι) (Event ι))}
    (h : Run step (free ι) trace s) :
    taken (trace.map Transition.event) <+: asked (trace.map Transition.event) :=
  ⟨_, (run_sound h).asked_eq.symm⟩

end FairLock
