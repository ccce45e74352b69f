import CmcServer.Verification.TickArena.Steps

/-! # Resets, counters and exclusive use

The swap hands the arena that was current to `reset_arena`, `return_tick_arena` decrements the
arena that is current, and the arena `switch_tick_arenas` returns is the one the packet threads
are handed. The theorems say which schedules keep the three laws. -/

namespace CmcServer

namespace TickState

open Runs

variable {ι : Type*} [DecidableEq ι] {s s' u : TickState ι} {start₁ start₂ : ℕ}
  {trace : List (Transition (TickState ι) (TickEvent ι))}

/-! ## Resets -/

/-- Every packet thread that uses an arena uses the current one. -/
def HeldCurrent (s : TickState ι) : Prop :=
  ∀ t a, s.held t = some a → a = s.arenas.currentTickArena

omit [DecidableEq ι] in
theorem heldCurrent_initial : HeldCurrent (initial ι start₁ start₂) := by
  intro t a h
  simp [initial] at h

theorem heldCurrent_step {e : TickEvent ι} (hinv : HeldCurrent s) (h : step s e = some s')
    (hreset : ResetUnheld ⟨s, e, s'⟩) : HeldCurrent s' := by
  cases e with
  | get t =>
      obtain ⟨-, rfl⟩ := step_get_iff.mp h
      intro t' a ha
      by_cases ht : t' = t
      · subst ht
        simpa [TickArenas.getTickArena, eq_comm] using ha
      · exact hinv t' a (by simpa [ht] using ha)
  | ret t =>
      obtain ⟨b, -, rfl⟩ := step_ret_iff.mp h
      intro t' a ha
      by_cases ht : t' = t
      · subst ht
        simp at ha
      · exact hinv t' a (by simpa [ht] using ha)
  | alloc t size =>
      obtain ⟨b, -, rfl⟩ := step_alloc_iff.mp h
      exact hinv
  | swap =>
      obtain ⟨-, rfl⟩ := step_swap_iff.mp h
      intro t a ha
      have hcur : a = s.arenas.currentTickArena := hinv t a ha
      subst hcur
      exact absurd ha (hreset rfl t)
  | wait =>
      obtain ⟨-, -, rfl⟩ := step_wait_iff.mp h
      exact hinv
  | tickAlloc size =>
      obtain ⟨b, -, rfl⟩ := step_tickAlloc_iff.mp h
      exact hinv

omit [DecidableEq ι] in
/-- While every arena in use is the current one, a swap resets an unused arena exactly when no
arena is in use at all. -/
theorem resetUnheld_iff {e : TickEvent ι} (hinv : HeldCurrent s) :
    ResetUnheld ⟨s, e, s'⟩ ↔ SwitchQuiescent ⟨s, e, s'⟩ := by
  constructor
  · intro h he t
    cases hheld : s.held t with
    | none => rfl
    | some a =>
        have hcur : a = s.arenas.currentTickArena := hinv t a hheld
        subst hcur
        exact absurd hheld (h he t)
  · intro h he t
    have hheld : s.held t = none := h he t
    simp [hheld]

/-- No arena is reset under a packet thread in exactly the runs in which every switch finds
every packet thread outside `get_tick_arena` .. `return_tick_arena`. -/
theorem reset_unheld_iff_switch_quiescent
    (h : Run step (initial ι start₁ start₂) trace u) :
    (∀ x ∈ trace, ResetUnheld x) ↔ ∀ x ∈ trace, SwitchQuiescent x :=
  h.forall_congr _ heldCurrent_initial (fun _ _ _ => heldCurrent_step)
    (fun _ _ _ hinv _ => resetUnheld_iff hinv)

/-- A packet is processed, then the game loop switches: no arena in use is reset. -/
theorem reset_unheld_after_return :
    let trace := replay step (initial (Fin 1) 0x100000000 0x200000000) [.get 0, .ret 0, .swap]
    ∃ u, Run step (initial (Fin 1) 0x100000000 0x200000000) trace u ∧
      ∀ x ∈ trace, ResetUnheld x := by
  obtain ⟨u, hrun⟩ := run_replay step (initial (Fin 1) 0x100000000 0x200000000)
    [.get 0, .ret 0, .swap]
  exact ⟨u, hrun, (reset_unheld_iff_switch_quiescent hrun).mpr (by decide)⟩

/-- A packet thread gets the first arena, the game loop switches: the arena in use is reset. -/
theorem reset_under_holder :
    ¬ ∀ (trace : List (Transition (TickState (Fin 1)) (TickEvent (Fin 1)))) u,
      Run step (initial (Fin 1) 0x100000000 0x200000000) trace u →
        ∀ x ∈ trace, ResetUnheld x := by
  intro h
  obtain ⟨u, hrun⟩ := run_replay step (initial (Fin 1) 0x100000000 0x200000000)
    [.get 0, .swap]
  exact absurd (h _ _ hrun) (by decide)

end TickState

end CmcServer
