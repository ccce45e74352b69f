import Mathlib.Data.Nat.Basic
import Mathlib.Tactic.Common

/-! # Statements that may return early

A statement of a function falls through to the next statement, returns from the function, or
runs on for ever. -/

namespace EarlyReturn

/-- How a statement ends. -/
inductive Outcome (σ : Type*) where
  | next (s : σ)
  | ret (s : σ)
  | diverge

abbrev Stmt (σ : Type*) := σ → Outcome σ

variable {σ : Type*}

/-- Go on with a statement after one that falls through. -/
def Outcome.bind : Outcome σ → Stmt σ → Outcome σ
  | .next s, c => c s
  | .ret s, _ => .ret s
  | .diverge, _ => .diverge

@[simp] theorem Outcome.next_bind (s : σ) (c : Stmt σ) : (Outcome.next s).bind c = c s := rfl

@[simp] theorem Outcome.ret_bind (s : σ) (c : Stmt σ) : (Outcome.ret s).bind c = .ret s := rfl

@[simp] theorem Outcome.diverge_bind (c : Stmt σ) : Outcome.diverge.bind c = .diverge := rfl

/-- The state in which a statement falls through. -/
def Outcome.passed : Outcome σ → Option σ
  | .next s => some s
  | .ret _ => none
  | .diverge => none

theorem Outcome.passed_eq_some {o : Outcome σ} {s : σ} : o.passed = some s ↔ o = .next s := by
  cases o <;> simp [Outcome.passed]

theorem Outcome.bind_assoc (o : Outcome σ) (c d : Stmt σ) :
    (o.bind c).bind d = o.bind fun s => (c s).bind d := by
  cases o <;> rfl

/-- A counted loop from round `i` on. It goes on while `more` holds and diverges without fuel. -/
def loop (more : ℕ → σ → Bool) (body : ℕ → Stmt σ) : (fuel i : ℕ) → Stmt σ
  | 0, _, _ => .diverge
  | fuel + 1, i, s =>
      if more i s then (body i s).bind (loop more body fuel (i + 1)) else .next s

theorem loop_of_not_more {more : ℕ → σ → Bool} {body : ℕ → Stmt σ} {fuel i : ℕ} {s : σ}
    (hfuel : 0 < fuel) (h : more i s = false) : loop more body fuel i s = .next s := by
  cases fuel with
  | zero => omega
  | succ fuel => rw [EarlyReturn.loop, h, if_neg Bool.false_ne_true]

/-! ## What a statement establishes -/

/-- The outcome is an end, in `Q` after falling through and in `R` after a return. -/
def Outcome.Ends (Q R : σ → Prop) : Outcome σ → Prop
  | .next s => Q s
  | .ret s => R s
  | .diverge => False

/-- From `P`, the statement ends, in `Q` if it falls through and in `R` if it returns. -/
def Triple (P : σ → Prop) (c : Stmt σ) (Q R : σ → Prop) : Prop :=
  ∀ s, P s → (c s).Ends Q R

variable {P P' Q Q' R : σ → Prop} {c d : Stmt σ}

theorem Outcome.Ends.mono {o : Outcome σ} (h : o.Ends Q R) (hQ : ∀ s, Q s → Q' s) :
    o.Ends Q' R := by
  cases o with
  | next s => exact hQ s h
  | ret s => exact h
  | diverge => exact h

theorem Outcome.Ends.bind {o : Outcome σ} (h : o.Ends Q R) (hd : Triple Q d Q' R) :
    (o.bind d).Ends Q' R := by
  cases o with
  | next s => exact hd s h
  | ret s => exact h
  | diverge => exact h

theorem Triple.mono (h : Triple P c Q R) (hP : ∀ s, P' s → P s) (hQ : ∀ s, Q s → Q' s) :
    Triple P' c Q' R :=
  fun s hs => (h s (hP s hs)).mono hQ

theorem Triple.seq (hc : Triple P c Q R) (hd : Triple Q d Q' R) :
    Triple P (fun s => (c s).bind d) Q' R :=
  fun s hs => (hc s hs).bind hd

theorem Triple.ite {b : σ → Prop} [DecidablePred b] (hc : Triple (fun s => P s ∧ b s) c Q R)
    (hd : Triple (fun s => P s ∧ ¬ b s) d Q R) :
    Triple P (fun s => if b s then c s else d s) Q R := by
  intro s hs
  by_cases hb : b s
  · simpa only [if_pos hb] using hc s ⟨hs, hb⟩
  · simpa only [if_neg hb] using hd s ⟨hs, hb⟩

/-- A loop that keeps `I`, and in which `I` bounds the number of rounds. -/
theorem Triple.loop {I : ℕ → σ → Prop} {more : ℕ → σ → Bool} {body : ℕ → Stmt σ} {n : ℕ}
    (hbound : ∀ i s, I i s → more i s → i < n)
    (hbody : ∀ i, Triple (fun s => I i s ∧ more i s) (body i) (I (i + 1)) R) {fuel i : ℕ}
    (hfuel : n < fuel + i) (hi : i ≤ n) :
    Triple (I i) (loop more body fuel i) (fun s => ∃ j, I j s ∧ more j s = false) R := by
  induction fuel generalizing i with
  | zero => omega
  | succ fuel ih =>
      intro s hs
      simp only [EarlyReturn.loop]
      cases hmore : more i s with
      | false => exact ⟨i, hs, hmore⟩
      | true =>
          have hlt := hbound i s hs hmore
          exact Triple.seq (hbody i) (ih (by omega) hlt) s ⟨hs, hmore⟩

/-! ## What a statement preserves -/

/-- The state that an outcome has, if it has one, satisfies `Q`. -/
def Outcome.All (Q : σ → Prop) : Outcome σ → Prop
  | .next s => Q s
  | .ret s => Q s
  | .diverge => True

theorem Outcome.All.bind {o : Outcome σ} (h : o.All Q) (hd : ∀ s, Q s → (d s).All Q) :
    (o.bind d).All Q := by
  cases o with
  | next s => exact hd s h
  | ret s => exact h
  | diverge => exact h

/-- What every round preserves, a loop preserves. -/
theorem all_loop {more : ℕ → σ → Bool} {body : ℕ → Stmt σ}
    (hbody : ∀ i s, Q s → (body i s).All Q) (fuel i : ℕ) {s : σ} (hs : Q s) :
    (loop more body fuel i s).All Q := by
  induction fuel generalizing i s with
  | zero => trivial
  | succ fuel ih =>
      rw [EarlyReturn.loop]
      split
      · exact (hbody i s hs).bind fun s' hs' => ih (i + 1) hs'
      · exact hs

/-! ## Statements that fall through -/

/-- From `s` the statement falls through into `Q`. -/
def FallsTo (c : Stmt σ) (s : σ) (Q : σ → Prop) : Prop := ∃ s', c s = .next s' ∧ Q s'

theorem FallsTo.mono {s : σ} (h : FallsTo c s Q) (hQ : ∀ s, Q s → Q' s) : FallsTo c s Q' := by
  rcases h with ⟨s', hs', hq⟩
  exact ⟨s', hs', hQ s' hq⟩

theorem FallsTo.seq {s : σ} (hc : FallsTo c s Q) (hd : ∀ s, Q s → FallsTo d s Q') :
    FallsTo (fun s => (c s).bind d) s Q' := by
  rcases hc with ⟨s₁, hs₁, hq⟩
  rcases hd s₁ hq with ⟨s₂, hs₂, hq'⟩
  refine ⟨s₂, ?_, hq'⟩
  simp only [hs₁, Outcome.next_bind, hs₂]

/-- A loop of exactly `n` rounds. -/
theorem FallsTo.loop {I : ℕ → σ → Prop} {more : ℕ → σ → Bool} {body : ℕ → Stmt σ} {n : ℕ}
    (hmore : ∀ i s, I i s → (more i s = true ↔ i < n))
    (hbody : ∀ i s, i < n → I i s → FallsTo (body i) s (I (i + 1))) {fuel i : ℕ}
    (hfuel : n < fuel + i) (hi : i ≤ n) {s : σ} (hs : I i s) :
    FallsTo (loop more body fuel i) s (I n) := by
  induction fuel generalizing i s with
  | zero => omega
  | succ fuel ih =>
      by_cases hlt : i < n
      · rcases hbody i s hlt hs with ⟨s₁, hs₁, hI⟩
        rcases ih (by omega) hlt hI with ⟨s₂, hs₂, hI₂⟩
        refine ⟨s₂, ?_, hI₂⟩
        rw [EarlyReturn.loop, if_pos ((hmore i s hs).mpr hlt), hs₁, Outcome.next_bind, hs₂]
      · have hn : i = n := by omega
        subst hn
        refine ⟨s, ?_, hs⟩
        rw [EarlyReturn.loop, if_neg]
        intro hcontra
        exact hlt ((hmore i s hs).mp hcontra)

/-! ## Sequences -/

/-- One statement after another. -/
def Stmt.seq (c d : Stmt σ) : Stmt σ := fun s => (c s).bind d

/-! ## Two runs -/

section

variable {τ : Type*} {R R' : σ → τ → Prop}

/-- Two outcomes of one kind, with related states. -/
def Outcome.Rel (R : σ → τ → Prop) : Outcome σ → Outcome τ → Prop
  | .next s, .next t => R s t
  | .ret s, .ret t => R s t
  | .diverge, .diverge => True
  | _, _ => False

/-- The three kinds that two outcomes can have together. -/
@[elab_as_elim]
theorem Outcome.Rel.kinds {motive : (o : Outcome σ) → (o' : Outcome τ) → o.Rel R o' → Prop}
    (next : ∀ s t (h : R s t), motive (.next s) (.next t) h)
    (ret : ∀ s t (h : R s t), motive (.ret s) (.ret t) h)
    (diverge : motive .diverge .diverge trivial) {o : Outcome σ} {o' : Outcome τ}
    (h : o.Rel R o') : motive o o' h := by
  cases o with
  | next s =>
      cases o' with
      | next t => exact next s t h
      | ret t => exact h.elim
      | diverge => exact h.elim
  | ret s =>
      cases o' with
      | next t => exact h.elim
      | ret t => exact ret s t h
      | diverge => exact h.elim
  | diverge =>
      cases o' with
      | next t => exact h.elim
      | ret t => exact h.elim
      | diverge => exact diverge

theorem Outcome.Rel.bind {o : Outcome σ} {o' : Outcome τ} {c : Stmt σ} {c' : Stmt τ}
    (h : o.Rel R o') (hR : ∀ s t, R s t → R' s t)
    (hc : ∀ s t, R s t → (c s).Rel R' (c' t)) : (o.bind c).Rel R' (o'.bind c') := by
  cases h using Outcome.Rel.kinds with
  | next s t h => exact hc s t h
  | ret s t h => exact hR s t h
  | diverge => trivial

theorem Outcome.Rel.eq_next {o : Outcome σ} {t : τ} (h : o.Rel R (.next t)) :
    ∃ s, o = .next s ∧ R s t := by
  cases o with
  | next s => exact ⟨s, rfl, h⟩
  | ret s => exact h.elim
  | diverge => exact h.elim

theorem Outcome.Rel.eq_ret {o : Outcome σ} {t : τ} (h : o.Rel R (.ret t)) :
    ∃ s, o = .ret s ∧ R s t := by
  cases o with
  | next s => exact h.elim
  | ret s => exact ⟨s, rfl, h⟩
  | diverge => exact h.elim

theorem Outcome.Rel.eq_diverge {o : Outcome σ} (h : o.Rel R .diverge) : o = .diverge := by
  cases o with
  | next s => exact h.elim
  | ret s => exact h.elim
  | diverge => rfl

/-- Two outcomes that are related to one third. -/
theorem Outcome.Rel.meet {υ : Type*} {S : υ → τ → Prop} {T : σ → υ → Prop} {o : Outcome σ}
    {o' : Outcome τ} {o'' : Outcome υ} (h : o.Rel R o') (h' : o''.Rel S o')
    (hT : ∀ s t u, R s t → S u t → T s u) : o.Rel T o'' := by
  cases o' with
  | next t =>
      rcases h.eq_next with ⟨s, rfl, hs⟩
      rcases h'.eq_next with ⟨u, rfl, hu⟩
      exact hT s t u hs hu
  | ret t =>
      rcases h.eq_ret with ⟨s, rfl, hs⟩
      rcases h'.eq_ret with ⟨u, rfl, hu⟩
      exact hT s t u hs hu
  | diverge =>
      rw [h.eq_diverge, h'.eq_diverge]
      trivial

end

/-- From related states the first run gets into `B` and stays there, or both runs go on
together. -/
structure Coupled (B : σ → Prop) (R : σ → σ → Prop) (c : Stmt σ) : Prop where
  stays : ∀ s, B s → (c s).All B
  both : ∀ s t, R s t → (c s).All B ∨ (c s).Rel R (c t)

section

variable {B : σ → Prop} {R : σ → σ → Prop}

theorem coupled_next : Coupled B R Outcome.next := ⟨fun _ h => h, fun _ _ h => Or.inr h⟩

theorem coupled_ret : Coupled B R Outcome.ret := ⟨fun _ h => h, fun _ _ h => Or.inr h⟩

theorem Coupled.seq (hc : Coupled B R c) (hd : Coupled B R d) : Coupled B R (Stmt.seq c d) where
  stays := fun s hs => (hc.stays s hs).bind hd.stays
  both := by
    intro s t hst
    rcases hc.both s t hst with hleft | hboth
    · exact Or.inl (hleft.bind hd.stays)
    · rw [Stmt.seq, Stmt.seq]
      generalize c s = o at hboth ⊢
      generalize c t = o' at hboth ⊢
      cases hboth using Outcome.Rel.kinds with
      | next s' t' h => exact hd.both s' t' h
      | ret s' t' h => exact Or.inr h
      | diverge => exact Or.inr trivial

theorem Coupled.ite {b : Prop} [Decidable b] (hc : Coupled B R c) (hd : Coupled B R d) :
    Coupled B R (if b then c else d) := by
  split
  · exact hc
  · exact hd

end

end EarlyReturn
