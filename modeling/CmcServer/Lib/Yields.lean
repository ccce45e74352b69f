import Mathlib.Tactic.Common

/-! # Results of computations that may fail

What holds of every result of a computation with a state that may fail. -/

universe u

variable {σ α β : Type u}

/-- Every result that the computation has, from whatever state, satisfies `P`. -/
def Yields (x : StateT σ Option α) (P : α → Prop) : Prop :=
  ∀ s a s', x s = some (a, s') → P a

namespace Yields

variable {x : StateT σ Option α} {P Q : α → Prop}

theorem pure {a : α} (h : P a) : Yields (Pure.pure a : StateT σ Option α) P := by
  intro s b s' hb
  obtain ⟨rfl, _⟩ := Prod.mk.inj (Option.some.inj hb)
  exact h

theorem failure : Yields (Alternative.failure : StateT σ Option α) P := by
  intro s b s' hb
  cases hb

theorem lift {o : Option α} (h : ∀ a, o = some a → P a) :
    Yields (MonadLift.monadLift o : StateT σ Option α) P := by
  intro s b s' hb
  cases ho : o with
  | none => simp [ho, MonadLift.monadLift, StateT.lift] at hb
  | some a =>
      simp [ho, MonadLift.monadLift, StateT.lift] at hb
      exact h b (by rw [ho, hb.1])

theorem trivial : Yields x fun _ => True := fun _ _ _ _ => True.intro

theorem mono (hx : Yields x Q) (h : ∀ a, Q a → P a) : Yields x P :=
  fun s a s' ha => h a (hx s a s' ha)

theorem bind {f : α → StateT σ Option β} {R : β → Prop} (hx : Yields x P)
    (hf : ∀ a, P a → Yields (f a) R) : Yields (x >>= f) R := by
  intro s b s' hb
  cases hs : x s with
  | none =>
      have hnone : (x >>= f) s = none := by simp [Bind.bind, StateT.bind, hs]
      rw [hnone] at hb
      cases hb
  | some r =>
      obtain ⟨a, s''⟩ := r
      have hsome : (x >>= f) s = f a s'' := by simp [Bind.bind, StateT.bind, hs]
      exact hf a (hx s a s'' hs) s'' b s' (hsome ▸ hb)

theorem ite {c : Prop} [Decidable c] {y : StateT σ Option α} (hx : c → Yields x P)
    (hy : ¬ c → Yields y P) : Yields (if c then x else y) P := by
  split
  · exact hx ‹_›
  · exact hy ‹_›

end Yields

/-- The computation has a result from the state `s`, and it satisfies `P`. -/
def Returns (x : StateT σ Option α) (s : σ) (P : α → σ → Prop) : Prop :=
  ∃ a s', x s = some (a, s') ∧ P a s'

namespace Returns

variable {x : StateT σ Option α} {s : σ} {P Q : α → σ → Prop}

theorem pure {a : α} (h : P a s) : Returns (Pure.pure a) s P := ⟨a, s, rfl, h⟩

theorem lift {o : Option α} {a : α} (ho : o = some a) (h : P a s) :
    Returns (MonadLift.monadLift o) s P := by
  subst ho
  exact ⟨a, s, rfl, h⟩

theorem mono (hx : Returns x s Q) (h : ∀ a s', Q a s' → P a s') : Returns x s P := by
  obtain ⟨a, s', hs, ha⟩ := hx
  exact ⟨a, s', hs, h a s' ha⟩

theorem bind {f : α → StateT σ Option β} {R : β → σ → Prop} (hx : Returns x s P)
    (hf : ∀ a s', P a s' → Returns (f a) s' R) : Returns (x >>= f) s R := by
  obtain ⟨a, s', hs, ha⟩ := hx
  obtain ⟨b, s'', hb, hr⟩ := hf a s' ha
  exact ⟨b, s'', by simp [Bind.bind, StateT.bind, hs]; exact hb, hr⟩

end Returns
