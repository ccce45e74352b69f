import CmcServer.Lib.CriticalSection
import CmcServer.Model.SpinLock

/-! # Mutual exclusion

A thread gets past `spin_lock_enter` by an exchange that finds the lock free, and the lock stays
taken until the same thread stores to it. -/

namespace CmcServer

open CriticalSection

namespace SpinState

variable {ι : Type} {s s' : SpinState ι} {t v : ι}

/-- A thread past `spin_lock_enter` has taken the lock, and it is the only one. -/
structure Sound (s : SpinState ι) : Prop where
  locked : ∀ t, s.phase t = .inside → s.locked = true
  unique : ∀ t v, s.phase t = .inside → s.phase v = .inside → t = v

theorem sound_initial : (initial ι).Sound where
  locked := fun _ h => by cases h
  unique := fun _ _ h => by cases h

variable [DecidableEq ι]

@[simp] theorem setPhase_self (s : SpinState ι) (t : ι) (phase : SpinPhase) :
    (s.setPhase t phase).phase t = phase := Function.update_self ..

theorem setPhase_of_ne (s : SpinState ι) (h : v ≠ t) (phase : SpinPhase) :
    (s.setPhase t phase).phase v = s.phase v := Function.update_of_ne h ..

/-- A thread takes the free lock, stays outside or gives the lock back. -/
theorem step_cases {e : SpinEvent ι} (h : s.step e = some s') :
    (s.locked = false ∧ s' = { s.setPhase e.thread .inside with locked := true }) ∨
      (s.phase e.thread ≠ .inside ∧
        (s' = s ∨ ∃ phase, phase ≠ .inside ∧ s' = s.setPhase e.thread phase)) ∨
      (s.phase e.thread = .inside ∧ s' = { s.setPhase e.thread .trying with locked := false }) := by
  cases e with
  | compareExchangeWeak t fails =>
      simp only [step, SpinEvent.thread] at h ⊢
      split at h
      case h_2 => cases h
      case h_1 hphase =>
        split at h
        case isTrue hfree => exact .inl ⟨hfree.1, (Option.some.inj h).symm⟩
        case isFalse =>
          refine .inr (.inl ⟨by simp [hphase], .inr ⟨.spinning, by decide, ?_⟩⟩)
          exact (Option.some.inj h).symm
  | load t =>
      simp only [step, SpinEvent.thread] at h ⊢
      split at h
      case h_2 => cases h
      case h_1 hphase =>
        refine .inr (.inl ⟨by simp [hphase], ?_⟩)
        split at h
        case isTrue => exact .inl (Option.some.inj h).symm
        case isFalse => exact .inr ⟨.trying, by decide, (Option.some.inj h).symm⟩
  | store t =>
      simp only [step, SpinEvent.thread] at h ⊢
      split at h
      case h_2 => cases h
      case h_1 hphase => exact .inr (.inr ⟨hphase, (Option.some.inj h).symm⟩)

theorem step_others {e : SpinEvent ι} (h : s.step e = some s') (hne : t ≠ e.thread) :
    s'.phase t = s.phase t := by
  rcases step_cases h with ⟨-, rfl⟩ | ⟨-, rfl | ⟨phase, -, rfl⟩⟩ | ⟨-, rfl⟩
  · exact setPhase_of_ne s hne _
  · rfl
  · exact setPhase_of_ne s hne _
  · exact setPhase_of_ne s hne _

theorem Sound.step {e : SpinEvent ι} (h : s.Sound) (hstep : s.step e = some s') : s'.Sound := by
  have hinside : ∀ v, v ≠ e.thread → s'.phase v = .inside → s.phase v = .inside := fun v hv hin =>
    step_others hstep hv ▸ hin
  rcases step_cases hstep with ⟨hfree, hs'⟩ | ⟨hout, hs'⟩ | ⟨hin, hs'⟩
  · have hnone : ∀ v, v ≠ e.thread → s'.phase v ≠ .inside := fun v hv hin =>
      absurd (h.locked v (hinside v hv hin)) (by simp [hfree])
    refine ⟨fun v _ => by rw [hs'], fun v w hv hw => ?_⟩
    rw [not_imp_comm.mp (hnone v) (not_not.mpr hv), not_imp_comm.mp (hnone w) (not_not.mpr hw)]
  · have hself : s'.phase e.thread ≠ .inside := by
      rcases hs' with rfl | ⟨phase, hphase, rfl⟩
      · exact hout
      · simpa using hphase
    have hlocked : s'.locked = s.locked := by
      rcases hs' with rfl | ⟨phase, -, rfl⟩ <;> rfl
    have hne : ∀ v, s'.phase v = .inside → v ≠ e.thread := fun v hv heq => hself (heq ▸ hv)
    refine ⟨fun v hv => ?_, fun v w hv hw => ?_⟩
    · rw [hlocked]
      exact h.locked v (hinside v (hne v hv) hv)
    · exact h.unique v w (hinside v (hne v hv) hv) (hinside w (hne w hw) hw)
  · have hnone : ∀ v, s'.phase v ≠ .inside := by
      intro v hv
      by_cases hve : v = e.thread
      · rw [hs', hve] at hv
        simp at hv
      · exact hve (h.unique v e.thread (hinside v hve hv) hin)
    exact ⟨fun v hv => absurd hv (hnone v), fun v _ hv => absurd hv (hnone v)⟩

end SpinState

/-- The spin lock lets one thread in at a time. -/
def spinLock (ι : Type) [DecidableEq ι] : Lock ι where
  State := SpinState ι
  Event := SpinEvent ι
  step := SpinState.step
  thread := SpinEvent.thread
  holds s t := s.phase t = .inside
  Sound := SpinState.Sound
  sound_step := SpinState.Sound.step
  exclusive h ht hv := h.unique _ _ (of_decide_eq_true ht) (of_decide_eq_true hv)
  others h hne := by rw [SpinState.step_others h hne]

end CmcServer
