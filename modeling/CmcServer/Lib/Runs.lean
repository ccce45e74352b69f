import Mathlib.Data.List.Basic
import Mathlib.Tactic.Common

/-! # Runs of event-driven systems

A system is a partial step function: `step s e = some t` when the event `e` is enabled in `s`
and leads to `t`. Runs keep every transition they took, so that a law about all the steps of a
run can be stated next to a law about all the states it reaches. -/

namespace Runs

variable {σ ε : Type*}

/-- One transition of a run, with the states around it. -/
structure Transition (σ ε : Type*) where
  pre : σ
  event : ε
  post : σ

/-- `Run step s trace t`: the transitions of `trace`, taken in order, lead from `s` to `t`. -/
inductive Run (step : σ → ε → Option σ) (s : σ) : List (Transition σ ε) → σ → Prop where
  | nil : Run step s [] s
  | snoc {trace t e u} : Run step s trace t → step t e = some u →
      Run step s (trace ++ [⟨t, e, u⟩]) u

variable {step : σ → ε → Option σ} {s u : σ} {trace : List (Transition σ ε)}

/-- A first step in front of a run. -/
theorem Run.cons {t : σ} {e : ε} (hstep : step s e = some t) (h : Run step t trace u) :
    Run step s (⟨s, e, t⟩ :: trace) u := by
  induction h with
  | nil => exact .snoc .nil hstep
  | snoc _ ht ih => exact .snoc ih ht

/-- A run ends where its last transition ends. -/
theorem Run.eq_last (h : Run step s trace u) {x : Transition σ ε} (hx : x ∈ trace.getLast?) :
    u = x.post := by
  cases h with
  | nil => cases hx
  | snoc _ _ =>
      rw [List.getLast?_concat] at hx
      cases hx
      rfl

/-- The transitions along a list of events, up to the first event that is not enabled. -/
def replay (step : σ → ε → Option σ) : σ → List ε → List (Transition σ ε)
  | _, [] => []
  | s, e :: es =>
      match step s e with
      | none => []
      | some t => ⟨s, e, t⟩ :: replay step t es

theorem run_replay (step : σ → ε → Option σ) (s : σ) (es : List ε) :
    ∃ u, Run step s (replay step s es) u := by
  induction es generalizing s with
  | nil => exact ⟨s, .nil⟩
  | cons e es ih =>
      cases hstep : step s e with
      | none => exact ⟨s, by simpa [replay, hstep] using .nil⟩
      | some t =>
          obtain ⟨u, hu⟩ := ih t
          exact ⟨u, by simpa [replay, hstep] using hu.cons hstep⟩

/-! ## Invariant rules -/

/-- What each step satisfying `ok` preserves, a run of such steps preserves. -/
theorem Run.guarded_invariant (inv : σ → Prop) {ok : Transition σ ε → Prop}
    (h : Run step s trace u) (hs : inv s)
    (hstep : ∀ t e v, inv t → step t e = some v → ok ⟨t, e, v⟩ → inv v)
    (hok : ∀ x ∈ trace, ok x) : inv u := by
  induction h with
  | nil => exact hs
  | snoc _ ht ih =>
      apply hstep _ _ _ _ ht
      · exact hok _ (by simp)
      · exact ih (fun x hx => hok x (by simp [hx]))

/-- What each step preserves, a run preserves. -/
theorem Run.invariant (inv : σ → Prop) (h : Run step s trace u) (hs : inv s)
    (hstep : ∀ t e v, inv t → step t e = some v → inv v) : inv u := by
  induction h with
  | nil => exact hs
  | snoc _ ht ih => exact hstep _ _ _ ih ht

/-- What each step satisfying `ok` preserves of a state and its history, if it may follow the
steps before it, a run of such steps preserves. -/
theorem Run.history_invariant (inv : List (Transition σ ε) → σ → Prop)
    {ok : Transition σ ε → Prop} {follows : Transition σ ε → Transition σ ε → Prop}
    (h : Run step s trace u) (hs : inv [] s)
    (hstep : ∀ trace t e v, inv trace t → step t e = some v → ok ⟨t, e, v⟩ →
      (∀ x ∈ trace, follows x ⟨t, e, v⟩) → inv (trace ++ [⟨t, e, v⟩]) v)
    (hok : ∀ x ∈ trace, ok x) (hfollows : trace.Pairwise follows) : inv trace u := by
  induction h with
  | nil => exact hs
  | snoc _ ht ih =>
      rcases List.pairwise_append.mp hfollows with ⟨hbefore, -, hlast⟩
      apply hstep _ _ _ _ _ ht
      · exact hok _ (by simp)
      · exact fun x hx => hlast x hx _ (List.mem_singleton_self _)
      · exact ih (fun x hx => hok x (by simp [hx])) hbefore

/-- Every transition of a run starts in a state that a prefix of the run reaches. -/
theorem Run.transition_reached (h : Run step s trace u) :
    ∀ x ∈ trace, step x.pre x.event = some x.post ∧
      ∃ before rest, trace = before ++ x :: rest ∧ Run step s before x.pre := by
  induction h with
  | nil => simp
  | snoc hr ht ih =>
      intro x hx
      rcases List.mem_append.mp hx with hx | hx
      · obtain ⟨hstep, before, rest, rfl, hpre⟩ := ih x hx
        exact ⟨hstep, before, rest ++ [⟨_, _, _⟩], (List.append_assoc _ _ _), hpre⟩
      · simp only [List.mem_singleton] at hx
        subst hx
        exact ⟨ht, _, [], by simp, hr⟩

/-- Under an invariant kept by the steps that satisfy `ok`, a run of such steps has every
transition between two states of the invariant. -/
theorem Run.guarded_transitions (inv : σ → Prop) (ok : Transition σ ε → Prop)
    (h : Run step s trace u) (hs : inv s)
    (hstep : ∀ t e v, inv t → step t e = some v → ok ⟨t, e, v⟩ → inv v)
    (hok : ∀ x ∈ trace, ok x) :
    ∀ x ∈ trace, step x.pre x.event = some x.post ∧ inv x.pre ∧ inv x.post := by
  intro x hx
  obtain ⟨hx', before, rest, rfl, hpre⟩ := h.transition_reached x hx
  have hinv : inv x.pre :=
    hpre.guarded_invariant inv hs hstep (fun y hy => hok y (by simp [hy]))
  exact ⟨hx', hinv, hstep _ _ _ hinv hx' (hok x hx)⟩

/-- Two laws about the steps of a run agree on every run if they agree on each step taken
from a state of an invariant that the first law maintains. -/
theorem Run.forall_congr (inv : σ → Prop) {p q : Transition σ ε → Prop}
    (h : Run step s trace u) (hs : inv s)
    (hstep : ∀ t e v, inv t → step t e = some v → p ⟨t, e, v⟩ → inv v)
    (hpq : ∀ t e v, inv t → step t e = some v → (p ⟨t, e, v⟩ ↔ q ⟨t, e, v⟩)) :
    (∀ x ∈ trace, p x) ↔ ∀ x ∈ trace, q x := by
  induction h with
  | nil => simp
  | snoc hr ht ih =>
      simp only [List.mem_append, List.mem_singleton, or_imp, forall_and, forall_eq, ← ih]
      constructor
      · rintro ⟨hall, hlast⟩
        exact ⟨hall, (hpq _ _ _ (hr.guarded_invariant inv hs hstep hall) ht).mp hlast⟩
      · rintro ⟨hall, hlast⟩
        exact ⟨hall, (hpq _ _ _ (hr.guarded_invariant inv hs hstep hall) ht).mpr hlast⟩

/-! ## Refinement -/

/-- If every step of a system is matched by one step of another system or by none, every run is
matched by a run that takes the matching steps in order. -/
theorem Run.refines {τ ε' : Type*} {step' : τ → ε' → Option τ} (refines : σ → τ → Prop)
    (label : Transition σ ε → Option ε') {a : τ} (h : Run step s trace u) (hs : refines s a)
    (hstep : ∀ t e v b, refines t b → step t e = some v →
      match label ⟨t, e, v⟩ with
      | none => refines v b
      | some e' => ∃ c, step' b e' = some c ∧ refines v c) :
    ∃ trace' b, Run step' a trace' b ∧ refines u b ∧
      trace'.map Transition.event = trace.filterMap label := by
  induction h with
  | nil => exact ⟨[], a, .nil, hs, rfl⟩
  | @snoc _ t e v _ ht ih =>
      obtain ⟨trace', b, hrun, hb, hevents⟩ := ih
      have hmatch := hstep t e v b hb ht
      cases hlabel : label ⟨t, e, v⟩ with
      | none =>
          rw [hlabel] at hmatch
          exact ⟨trace', b, hrun, hmatch, by simp [hevents, hlabel]⟩
      | some e' =>
          rw [hlabel] at hmatch
          obtain ⟨c, hc, hv⟩ := hmatch
          exact ⟨_, c, hrun.snoc hc, hv, by simp [hevents, hlabel]⟩

/-- The same for the runs whose steps satisfy a condition. -/
theorem Run.guarded_refines {τ ε' : Type*} {step' : τ → ε' → Option τ} (refines : σ → τ → Prop)
    (label : Transition σ ε → Option ε') {ok : Transition σ ε → Prop} {a : τ}
    (h : Run step s trace u) (hs : refines s a)
    (hstep : ∀ t e v b, refines t b → step t e = some v → ok ⟨t, e, v⟩ →
      match label ⟨t, e, v⟩ with
      | none => refines v b
      | some e' => ∃ c, step' b e' = some c ∧ refines v c)
    (hok : ∀ x ∈ trace, ok x) :
    ∃ trace' b, Run step' a trace' b ∧ refines u b ∧
      trace'.map Transition.event = trace.filterMap label := by
  induction h with
  | nil => exact ⟨[], a, .nil, hs, rfl⟩
  | @snoc _ t e v _ ht ih =>
      obtain ⟨trace', b, hrun, hb, hevents⟩ := ih fun x hx => hok x (by simp [hx])
      have hmatch := hstep t e v b hb ht (hok _ (by simp))
      cases hlabel : label ⟨t, e, v⟩ with
      | none =>
          rw [hlabel] at hmatch
          exact ⟨trace', b, hrun, hmatch, by simp [hevents, hlabel]⟩
      | some e' =>
          rw [hlabel] at hmatch
          obtain ⟨c, hc, hv⟩ := hmatch
          exact ⟨_, c, hrun.snoc hc, hv, by simp [hevents, hlabel]⟩

/-! ## Loops that end -/

section

variable {σ : Type*} {next : σ → Option σ} {measure : σ → ℕ}
  {decreases : ∀ s t, next s = some t → measure t < measure s}

/-- The last state of a loop whose rounds decrease a measure. -/
def finish (next : σ → Option σ) (measure : σ → ℕ)
    (decreases : ∀ s t, next s = some t → measure t < measure s) (s : σ) : σ :=
  match _h : next s with
  | none => s
  | some t => finish next measure decreases t
  termination_by measure s
  decreasing_by exact decreases s t _h

theorem finish_of_none {s : σ} (h : next s = none) : finish next measure decreases s = s := by
  rw [finish]
  split
  · rfl
  · rename_i hnext
    rw [h] at hnext
    cases hnext

theorem finish_of_some {s t : σ} (h : next s = some t) :
    finish next measure decreases s = finish next measure decreases t := by
  rw [finish]
  split
  · rename_i hnext
    rw [h] at hnext
    cases hnext
  · rename_i hnext
    rw [h] at hnext
    cases hnext
    rfl

variable (decreases) in
/-- The loop ends where there is no other round, and keeps what each round keeps. -/
theorem finish_invariant (inv : σ → Prop) (hstep : ∀ s t, inv s → next s = some t → inv t) {s : σ}
    (hs : inv s) :
    next (finish next measure decreases s) = none ∧ inv (finish next measure decreases s) := by
  induction s using finish.induct next measure decreases with
  | case1 s hnone => exact ⟨by rw [finish_of_none hnone, hnone], by rwa [finish_of_none hnone]⟩
  | case2 s t hsome ih =>
      rw [finish_of_some hsome]
      exact ih (hstep s t hs hsome)

/-- If each round of a loop is matched by a round of another loop or by none, the loops end in
matching states. -/
theorem finish_map {τ : Type*} {next' : τ → Option τ} {measure' : τ → ℕ}
    {decreases' : ∀ s t, next' s = some t → measure' t < measure' s} (f : σ → τ) (inv : σ → Prop)
    (hinv : ∀ s t, inv s → next s = some t → inv t)
    (hnone : ∀ s, inv s → next s = none → next' (f s) = none)
    (hsome : ∀ s t, inv s → next s = some t → f t = f s ∨ next' (f s) = some (f t)) {s : σ}
    (hs : inv s) :
    f (finish next measure decreases s) = finish next' measure' decreases' (f s) := by
  induction s using finish.induct next measure decreases with
  | case1 s hstop => rw [finish_of_none hstop, finish_of_none (hnone s hs hstop)]
  | case2 s t hround ih =>
      rw [finish_of_some hround, ih (hinv s t hs hround)]
      rcases hsome s t hs hround with heq | hmatch
      · rw [heq]
      · rw [finish_of_some hmatch]

end

end Runs
