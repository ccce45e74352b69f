import CmcServer.Lib.Runs
import Mathlib.Data.Fintype.Defs
import Mathlib.Logic.Function.Basic

/-! # Critical sections

Threads share data under a lock. What a thread does while it has the lock is a program, which reads
and writes the data step by step, and the other threads take steps outside the lock in between. If
these steps do not disturb the open section, each section could as well be one step. -/

open Runs

namespace CriticalSection

/-! ## Programs -/

/-- A program that reads and writes data in single steps. -/
inductive Prog (D A : Type*) where
  | done (result : A)
  | step (write : D → D) (next : D → Prog D A)

namespace Prog

variable {D E : Type*} {A B : Type*}

/-- One program after another, which depends on the result of the first. -/
def bind (f : A → Prog D B) : Prog D A → Prog D B
  | .done a => f a
  | .step write next => .step write fun d => (next d).bind f

instance : Monad (Prog D) where
  pure := .done
  bind p f := p.bind f

/-- Read something from the data. -/
def load (f : D → A) : Prog D A := .step id fun d => .done (f d)

/-- Change the data. -/
def store (f : D → D) : Prog D Unit := .step f fun _ => .done ()

/-- The result and the data if nobody else takes a step. -/
def run : Prog D A → D → A × D
  | .done a, d => (a, d)
  | .step write next, d => (next d).run (write d)

@[simp] theorem run_pure (a : A) (d : D) : (pure a : Prog D A).run d = (a, d) := rfl

@[simp] theorem run_done (a : A) (d : D) : (Prog.done a : Prog D A).run d = (a, d) := rfl

@[simp] theorem run_load (f : D → A) (d : D) : (load f).run d = (f d, d) := rfl

@[simp] theorem run_store (f : D → D) (d : D) : (store f).run d = ((), f d) := rfl

@[simp] theorem run_bind {A B : Type _} (p : Prog D A) (f : A → Prog D B) (d : D) :
    (p >>= f).run d = (f (p.run d).1).run (p.run d).2 := by
  change (p.bind f).run d = _
  induction p generalizing d with
  | done a => rfl
  | step write next ih => exact ih d (write d)

@[simp] theorem run_ite (c : Prop) [Decidable c] (p q : Prog D A) (d : D) :
    (if c then p else q).run d = if c then p.run d else q.run d := by
  split <;> rfl

/-- A program on the first of two parts of the data. -/
def left : Prog D A → Prog (D × E) A
  | .done a => .done a
  | .step write next => .step (fun d => (write d.1, d.2)) fun d => (next d.1).left

@[simp] theorem run_left (p : Prog D A) (d : D × E) :
    p.left.run d = ((p.run d.1).1, (p.run d.1).2, d.2) := by
  induction p generalizing d with
  | done a => rfl
  | step write next ih => exact ih d.1 (write d.1, d.2)

/-- What is left of a program on the first part is one as well. -/
theorem left_next {write : D × E → D × E} {next : D × E → Prog (D × E) A}
    (h : ∃ p : Prog D A, .step write next = p.left) (d : D × E) :
    ∃ p : Prog D A, next d = p.left := by
  rcases h with ⟨p, hp⟩
  cases p with
  | done a => cases hp
  | step write' next' =>
      cases hp
      exact ⟨next' d.1, rfl⟩

/-- A step of somebody else that commutes with every step of the program. -/
def Unaffected (other : D → Option (B × D)) : Prog D A → Prop
  | .done _ => True
  | .step write next =>
      (∀ d, other (write d) = (other d).map fun (b, d') => (b, write d')) ∧
        (∀ d b d', other d = some (b, d') → next d' = next d) ∧ ∀ d, (next d).Unaffected other

/-- The step has the same effect before and after the rest of a program, which it does not
change. -/
def Passes (other : D → Option (B × D)) (p : Prog D A) (d : D) : Prop :=
  ∀ b d', other d = some (b, d') →
    other (p.run d).2 = some (b, (p.run d').2) ∧ (p.run d').1 = (p.run d).1

theorem Unaffected.passes {other : D → Option (B × D)} {p : Prog D A} (h : p.Unaffected other)
    (d : D) : p.Passes other d := by
  induction p generalizing d with
  | done a => exact fun b d' hother => ⟨hother, rfl⟩
  | step write next ih =>
      intro b d' hother
      rcases h with ⟨hwrite, hnext, hrest⟩
      have hafter : other (write d) = some (b, write d') := by
        rw [hwrite, hother, Option.map_some]
      rw [run, run, hnext d b d' hother]
      exact ih d (hrest d) (write d) b (write d') hafter

/-- What only touches the other part of the data passes. -/
theorem unaffected_left {other : E → Option (B × E)} (p : Prog D A) :
    (p.left : Prog (D × E) A).Unaffected
      fun d => (other d.2).map fun (b, e) => (b, d.1, e) := by
  induction p with
  | done a => trivial
  | step write next ih =>
      refine ⟨fun d => ?_, fun d b d' hother => ?_, fun d => ih d.1⟩
      · rw [Option.map_map]
        rfl
      · rcases Option.map_eq_some_iff.mp hother with ⟨⟨_, e⟩, _, hsame⟩
        cases hsame
        rfl

/-! ### Related programs -/

/-- Two programs that keep related data related in every step, and return related results. -/
def Related (r : D → D → Prop) (v : A → B → Prop) : Prog D A → Prog D B → Prop
  | .done a, .done b => v a b
  | .step write next, .step write' next' =>
      ∀ d d', r d d' → r (write d) (write' d') ∧ Related r v (next d) (next' d')
  | _, _ => False

section

variable {r : D → D → Prop} {v : A → B → Prop}

theorem Related.run {p : Prog D A} {q : Prog D B} (h : Related r v p q) {d d' : D} (hd : r d d') :
    v (p.run d).1 (q.run d').1 ∧ r (p.run d).2 (q.run d').2 := by
  induction p generalizing q d d' with
  | done a =>
      cases q with
      | done b => exact ⟨h, hd⟩
      | step write next => exact h.elim
  | step write next ih =>
      cases q with
      | done b => exact h.elim
      | step write' next' => exact ih d (h d d' hd).2 (h d d' hd).1

theorem Related.bind {A B A' B' : Type _} {v : A → B → Prop} {v' : A' → B' → Prop} {p : Prog D A}
    {q : Prog D B} {f : A → Prog D A'} {g : B → Prog D B'} (h : Related r v p q)
    (hnext : ∀ a b, v a b → Related r v' (f a) (g b)) : Related r v' (p >>= f) (q >>= g) := by
  change Related r v' (p.bind f) (q.bind g)
  induction p generalizing q with
  | done a =>
      cases q with
      | done b => exact hnext a b h
      | step write next => exact h.elim
  | step write next ih =>
      cases q with
      | done b => exact h.elim
      | step write' next' => exact fun d d' hd => ⟨(h d d' hd).1, ih d (h d d' hd).2⟩

theorem related_load {f : D → A} {g : D → B} (h : ∀ d d', r d d' → v (f d) (g d')) :
    Related r v (load f) (load g) := fun d d' hd => ⟨hd, h d d' hd⟩

theorem related_store {f g : D → D} (h : ∀ d d', r d d' → r (f d) (g d')) :
    Related r (fun _ _ => True) (store f) (store g) := fun d d' hd => ⟨h d d' hd, trivial⟩

end

end Prog

/-! ## Locks -/

/-- The atomic steps of the threads in the two functions of a lock. A thread holds the lock from the
step that lets it out of the first function to the last step of the second. -/
structure Lock (ι : Type*) where
  State : Type
  Event : Type
  step : State → Event → Option State
  thread : Event → ι
  holds : State → ι → Bool
  Sound : State → Prop
  sound_step {s s' : State} {e : Event} : Sound s → step s e = some s' → Sound s'
  exclusive {s : State} {t v : ι} : Sound s → holds s t = true → holds s v = true → t = v
  others {s s' : State} {e : Event} {t : ι} :
    step s e = some s' → t ≠ thread e → holds s' t = holds s t

/-! ## Threads -/

/-- What threads with the local states `L` do with the data: the programs of their calls under the
lock, which return the next local state, and the steps that they take outside. -/
structure Client (D L S P : Type*) where
  locked : S → L → Option (Prog D L)
  unlocked : P → L → D → Option (L × D)

/-- Where a thread is: outside the lock, waiting for it, or in a section with the rest of its
program to do. A thread that is done still has to give the lock back. -/
inductive Mode (D L S : Type*) where
  | idle (l : L)
  | waiting (l : L) (call : S)
  | inside (rest : Prog D L)

def Mode.isInside {D L S : Type*} : Mode D L S → Bool
  | .inside _ => true
  | .idle _ | .waiting _ _ => false

structure Threads {ι : Type*} (lock : Lock ι) (D L S : Type*) where
  lock : lock.State
  data : D
  mode : ι → Mode D L S

namespace Threads

variable {ι D L S P : Type*} {lock : Lock ι}

/-- The events, with the thread that takes the step. The thread of a step of the lock is known from
the step. -/
inductive Event (lock : Lock ι) (S P : Type*) where
  | unlocked (thread : ι) (act : P)
  | call (thread : ι) (act : S)
  | lock (event : lock.Event)
  | access (thread : ι)

section

variable [DecidableEq ι]

def setMode (s : Threads lock D L S) (t : ι) (mode : Mode D L S) : Threads lock D L S :=
  { s with mode := Function.update s.mode t mode }

@[simp] theorem setMode_data (s : Threads lock D L S) (t : ι) (mode : Mode D L S) :
    (s.setMode t mode).data = s.data := rfl

@[simp] theorem setMode_lock (s : Threads lock D L S) (t : ι) (mode : Mode D L S) :
    (s.setMode t mode).lock = s.lock := rfl

@[simp] theorem setMode_self (s : Threads lock D L S) (t : ι) (mode : Mode D L S) :
    (s.setMode t mode).mode t = mode := Function.update_self ..

theorem setMode_of_ne (s : Threads lock D L S) {t v : ι} (h : v ≠ t) (mode : Mode D L S) :
    (s.setMode t mode).mode v = s.mode v := Function.update_of_ne h ..

variable (client : Client D L S P)

/-- The state after a step of the lock by a thread that takes it or gives it back. -/
def afterLock (s : Threads lock D L S) (lock' : lock.State) (t : ι) :
    Option (Threads lock D L S) :=
  match s.mode t with
  | .idle _ => none
  | .waiting l act =>
      if lock.holds lock' t then
        (client.locked act l).map fun body => { s.setMode t (.inside body) with lock := lock' }
      else some { s with lock := lock' }
  | .inside (.done l) =>
      if lock.holds lock' t then some { s with lock := lock' }
      else some { s.setMode t (.idle l) with lock := lock' }
  | .inside (.step _ _) => none

def step (s : Threads lock D L S) : Event lock S P → Option (Threads lock D L S)
  | .unlocked t act =>
      match s.mode t with
      | .idle l =>
          (client.unlocked act l s.data).map fun (l, data) =>
            { s.setMode t (.idle l) with data }
      | _ => none
  | .call t act =>
      match s.mode t with
      | .idle l =>
          if (client.locked act l).isSome then some (s.setMode t (.waiting l act)) else none
      | _ => none
  | .lock e => (lock.step s.lock e).bind fun lock' => s.afterLock client lock' (lock.thread e)
  | .access t =>
      match s.mode t with
      | .inside (.step write next) =>
          some { s.setMode t (.inside (next s.data)) with data := write s.data }
      | _ => none

end

/-- The threads are outside the lock, in the local states `l`. -/
def initial (s : lock.State) (data : D) (l : ι → L) : Threads lock D L S where
  lock := s
  data := data
  mode := fun t => .idle (l t)

end Threads

/-! ## Sections as single steps -/

/-- The data and the local states of threads whose sections are single steps. -/
structure Sections (ι D L : Type*) where
  data : D
  loc : ι → L

namespace Sections

variable {ι D L S P : Type*} [DecidableEq ι]

inductive Event (ι S P : Type*) where
  | unlocked (thread : ι) (act : P)
  | locked (thread : ι) (act : S)

variable (client : Client D L S P)

def step (a : Sections ι D L) : Event ι S P → Option (Sections ι D L)
  | .unlocked t act =>
      (client.unlocked act (a.loc t) a.data).map fun (l, data) =>
        { data, loc := Function.update a.loc t l }
  | .locked t act =>
      (client.locked act (a.loc t)).map fun body =>
        let (l, data) := body.run a.data
        { data, loc := Function.update a.loc t l }

end Sections

namespace Threads

variable {ι D L S P : Type*} {lock : Lock ι}

/-- The local state and the data once a thread has done the rest of its section. -/
def settle : Mode D L S → D → L × D
  | .idle l, d => (l, d)
  | .waiting l _, d => (l, d)
  | .inside rest, d => rest.run d

/-- The sections that are open are done at once. -/
structure Settles (s : Threads lock D L S) (a : Sections ι D L) : Prop where
  loc : ∀ t, a.loc t = (settle (s.mode t) s.data).1
  inside : ∀ t rest, s.mode t = .inside rest → a.data = (rest.run s.data).2
  free : (∀ t rest, s.mode t ≠ .inside rest) → a.data = s.data

theorem Settles.unique {s : Threads lock D L S} {a b : Sections ι D L} (ha : s.Settles a)
    (hb : s.Settles b) : a = b := by
  have hloc : a.loc = b.loc := funext fun t => (ha.loc t).trans (hb.loc t).symm
  have hdata : a.data = b.data := by
    by_cases hin : ∃ t rest, s.mode t = .inside rest
    · rcases hin with ⟨t, rest, hmode⟩
      rw [ha.inside t rest hmode, hb.inside t rest hmode]
    · have hfree : ∀ t rest, s.mode t ≠ .inside rest := fun t rest hmode => hin ⟨t, rest, hmode⟩
      rw [ha.free hfree, hb.free hfree]
  cases a
  cases b
  cases hloc
  cases hdata
  rfl

/-- The threads in a section are those that hold the lock. -/
structure Coupled (s : Threads lock D L S) : Prop where
  sound : lock.Sound s.lock
  holds : ∀ t, lock.holds s.lock t = true ↔ ∃ rest, s.mode t = .inside rest

/-- A step outside the lock passes the section that is open. -/
def Undisturbed (client : Client D L S P)
    (x : Transition (Threads lock D L S) (Event lock S P)) : Prop :=
  ∀ t act l, x.event = .unlocked t act → x.pre.mode t = .idle l →
    ∀ v rest, x.pre.mode v = .inside rest → rest.Passes (client.unlocked act l) x.pre.data

/-- No section is open when a thread takes a step outside. -/
def Calm (x : Transition (Threads lock D L S) (Event lock S P)) : Prop :=
  match x.event with
  | .unlocked _ _ => ∀ v, (x.pre.mode v).isInside = false
  | _ => True

instance [Fintype ι] (x : Transition (Threads lock D L S) (Event lock S P)) : Decidable (Calm x) :=
  match x with
  | ⟨s, .unlocked _ _, _⟩ => inferInstanceAs (Decidable (∀ v, (s.mode v).isInside = false))
  | ⟨_, .call _ _, _⟩ | ⟨_, .lock _, _⟩ | ⟨_, .access _, _⟩ => inferInstanceAs (Decidable True)

theorem Calm.free {s s' : Threads lock D L S} {t : ι} {act : P}
    (h : Calm ⟨s, .unlocked t act, s'⟩) (v : ι) (rest : Prog D L) : s.mode v ≠ .inside rest := by
  intro hv
  have hcalm := h v
  rw [hv] at hcalm
  cases hcalm

theorem Calm.undisturbed {client : Client D L S P}
    {x : Transition (Threads lock D L S) (Event lock S P)} (h : Calm x) : Undisturbed client x := by
  rcases x with ⟨s, e, s'⟩
  rintro t act l rfl _ v rest hv
  exact absurd hv (h.free v rest)

section

variable [DecidableEq ι]

/-- A section counts as done when the lock is taken for it. -/
def effect (x : Transition (Threads lock D L S) (Event lock S P)) :
    Option (Sections.Event ι S P) :=
  match x.event with
  | .unlocked t act => some (.unlocked t act)
  | .lock e =>
      match x.pre.mode (lock.thread e) with
      | .waiting _ act =>
          if lock.holds x.post.lock (lock.thread e) then some (.locked (lock.thread e) act)
          else none
      | _ => none
  | _ => none

variable {client : Client D L S P} {s s' : Threads lock D L S} {a : Sections ι D L}

/-! ### What the events do -/

theorem step_unlocked {t : ι} {act : P} (h : s.step client (.unlocked t act) = some s') :
    ∃ l l' data, s.mode t = .idle l ∧ client.unlocked act l s.data = some (l', data) ∧
      s' = { s.setMode t (.idle l') with data } := by
  rw [step] at h
  split at h
  case h_1 l hmode =>
    rcases Option.map_eq_some_iff.mp h with ⟨⟨l', data⟩, hact, rfl⟩
    exact ⟨l, l', data, hmode, hact, rfl⟩
  case h_2 => cases h

theorem step_call {t : ι} {act : S} (h : s.step client (.call t act) = some s') :
    ∃ l, s.mode t = .idle l ∧ s' = s.setMode t (.waiting l act) := by
  rw [step] at h
  split at h
  case h_1 l hmode =>
    rcases Option.ite_none_right_eq_some.mp h with ⟨-, hsome⟩
    exact ⟨l, hmode, (Option.some.inj hsome).symm⟩
  case h_2 => cases h

theorem step_access {t : ι} (h : s.step client (.access t) = some s') :
    ∃ write next, s.mode t = .inside (.step write next) ∧
      s' = { s.setMode t (.inside (next s.data)) with data := write s.data } := by
  rw [step] at h
  split at h
  case h_1 write next hmode => exact ⟨write, next, hmode, (Option.some.inj h).symm⟩
  case h_2 => cases h

/-- A step of the lock lets the thread wait, lets it in, lets it go on leaving or lets it out. -/
theorem step_lock {e : lock.Event} (h : s.step client (.lock e) = some s') :
    ∃ lock', lock.step s.lock e = some lock' ∧
      ((∃ l act, s.mode (lock.thread e) = .waiting l act ∧
        ((lock.holds lock' (lock.thread e) = false ∧ s' = { s with lock := lock' }) ∨
          (lock.holds lock' (lock.thread e) = true ∧ ∃ body, client.locked act l = some body ∧
            s' = { s.setMode (lock.thread e) (.inside body) with lock := lock' }))) ∨
      ∃ l, s.mode (lock.thread e) = .inside (.done l) ∧
        ((lock.holds lock' (lock.thread e) = true ∧ s' = { s with lock := lock' }) ∨
          (lock.holds lock' (lock.thread e) = false ∧
            s' = { s.setMode (lock.thread e) (.idle l) with lock := lock' }))) := by
  rw [step] at h
  rcases Option.bind_eq_some_iff.mp h with ⟨lock', hlock, hafter⟩
  refine ⟨lock', hlock, ?_⟩
  rw [afterLock] at hafter
  split at hafter
  case h_1 => cases hafter
  case h_2 l act hmode =>
    refine .inl ⟨l, act, hmode, ?_⟩
    split at hafter
    case isTrue hholds =>
      rcases Option.map_eq_some_iff.mp hafter with ⟨body, hbody, rfl⟩
      exact .inr ⟨hholds, body, hbody, rfl⟩
    case isFalse hholds =>
      exact .inl ⟨Bool.eq_false_iff.mpr hholds, (Option.some.inj hafter).symm⟩
  case h_3 l hmode =>
    refine .inr ⟨l, hmode, ?_⟩
    split at hafter
    case isTrue hholds => exact .inl ⟨hholds, (Option.some.inj hafter).symm⟩
    case isFalse hholds =>
      exact .inr ⟨Bool.eq_false_iff.mpr hholds, (Option.some.inj hafter).symm⟩
  case h_4 => cases hafter

/-! ### Mutual exclusion -/

omit [DecidableEq ι] in
/-- At most one thread is in a section. -/
theorem Coupled.unique (h : s.Coupled) {t v : ι} {p q : Prog D L} (ht : s.mode t = .inside p)
    (hv : s.mode v = .inside q) : t = v :=
  lock.exclusive h.sound ((h.holds t).mpr ⟨p, ht⟩) ((h.holds v).mpr ⟨q, hv⟩)

/-- A thread that stays where it is with respect to the lock. -/
theorem Coupled.setMode (h : s.Coupled) {t : ι} {mode : Mode D L S} {data : D}
    (hsame : (∃ rest, mode = .inside rest) ↔ ∃ rest, s.mode t = .inside rest) :
    Coupled { s.setMode t mode with data } where
  sound := h.sound
  holds := by
    intro v
    by_cases hv : v = t
    · subst hv
      simpa [hsame] using h.holds v
    · simpa [setMode_of_ne s hv] using h.holds v

/-- The thread of a step of the lock ends up where the lock says. -/
theorem Coupled.lockStep (h : s.Coupled) {e : lock.Event} {lock' : lock.State}
    (hlock : lock.step s.lock e = some lock') {mode : ι → Mode D L S}
    (hothers : ∀ v, v ≠ lock.thread e → mode v = s.mode v)
    (hthread : lock.holds lock' (lock.thread e) = true ↔
      ∃ rest, mode (lock.thread e) = .inside rest) :
    Coupled { s with lock := lock', mode } where
  sound := lock.sound_step h.sound hlock
  holds := by
    intro v
    by_cases hv : v = lock.thread e
    · rw [hv]
      exact hthread
    · change lock.holds lock' v = true ↔ ∃ rest, mode v = .inside rest
      rw [lock.others hlock hv, hothers v hv]
      exact h.holds v

theorem Coupled.step {e : Event lock S P} (h : s.Coupled) (hstep : s.step client e = some s') :
    s'.Coupled := by
  cases e with
  | unlocked t act =>
      rcases step_unlocked hstep with ⟨l, l', data, hmode, -, rfl⟩
      exact h.setMode (by simp [hmode])
  | call t act =>
      rcases step_call hstep with ⟨l, hmode, rfl⟩
      exact h.setMode (by simp [hmode])
  | access t =>
      rcases step_access hstep with ⟨write, next, hmode, rfl⟩
      exact h.setMode (by simp [hmode])
  | lock e =>
      rcases step_lock hstep with ⟨lock', hlock, hwaiting | hinside⟩
      · rcases hwaiting with ⟨l, act, hmode, ⟨hout, rfl⟩ | ⟨hin, body, -, rfl⟩⟩
        · exact h.lockStep hlock (fun _ _ => rfl) (by simp [hout, hmode])
        · exact h.lockStep hlock (fun v hv => setMode_of_ne s hv _) (by simp [hin])
      · rcases hinside with ⟨l, hmode, ⟨hin, rfl⟩ | ⟨hout, rfl⟩⟩
        · exact h.lockStep hlock (fun _ _ => rfl) (by simp [hin, hmode])
        · exact h.lockStep hlock (fun v hv => setMode_of_ne s hv _) (by simp [hout])

/-! ### Sections as single steps -/

omit [DecidableEq ι] in
theorem settle_of_outside {mode : Mode D L S} (h : ∀ rest, mode ≠ .inside rest) (d d' : D) :
    (settle mode d).1 = (settle mode d').1 := by
  cases mode with
  | idle l => rfl
  | waiting l act => rfl
  | inside rest => exact absurd rfl (h rest)

/-- The state settles to one where a thread outside has taken a step. -/
theorem Settles.outside (h : s.Settles a) {t : ι} (mode : Mode D L S) {data data' : D}
    (ht : ∀ rest, s.mode t ≠ .inside rest) (hmode : ∀ rest, mode ≠ .inside rest)
    (hinside : ∀ v rest, s.mode v = .inside rest →
      data' = (rest.run data).2 ∧ (rest.run data).1 = (rest.run s.data).1)
    (hfree : (∀ v rest, s.mode v ≠ .inside rest) → data' = data) :
    Settles { s.setMode t mode with data }
      { data := data', loc := Function.update a.loc t (settle mode data).1 } where
  loc := by
    intro v
    by_cases hv : v = t
    · subst hv
      simp
    · simp only [setMode_of_ne s hv, Function.update_of_ne hv, h.loc v]
      by_cases hin : ∃ rest, s.mode v = .inside rest
      · rcases hin with ⟨rest, hrest⟩
        rw [hrest]
        exact (hinside v rest hrest).2.symm
      · exact settle_of_outside (fun rest hrest => hin ⟨rest, hrest⟩) _ _
  inside := by
    intro v rest hv
    by_cases hvt : v = t
    · subst hvt
      exact absurd (by simpa using hv) (hmode rest)
    · exact (hinside v rest (by simpa [setMode_of_ne s hvt] using hv)).1
  free := by
    intro hall
    refine hfree fun v rest hv => ?_
    by_cases hvt : v = t
    · exact ht rest (hvt ▸ hv)
    · exact hall v rest (by simpa [setMode_of_ne s hvt] using hv)

/-- A step outside changes the data in a way that the rest of the open section does not look at.
Once that rest is done the data have changed in the same way. -/
theorem Settles.beside {r : D → D → Prop} (h : s.Settles a) (hcoupled : s.Coupled) {t : ι} {l : L}
    (l' : L) {data : D} (hmode : s.mode t = .idle l)
    (hrests : ∀ v rest, s.mode v = .inside rest → Prog.Related r (· = ·) rest rest)
    (hr : r s.data data) :
    ∃ data', Settles { s.setMode t (.idle l') with data }
        { data := data', loc := Function.update a.loc t l' } ∧ r a.data data' ∧
      (∀ v rest, s.mode v = .inside rest → data' = (rest.run data).2) ∧
      ((∀ v rest, s.mode v ≠ .inside rest) → data' = data) := by
  have ht : ∀ rest, s.mode t ≠ .inside rest := by simp [hmode]
  by_cases hin : ∃ v rest, s.mode v = .inside rest
  · rcases hin with ⟨v, rest, hrest⟩
    have hrelated := (hrests v rest hrest).run hr
    have honly : ∀ u rest', s.mode u = .inside rest' → rest' = rest := by
      intro u rest' hu
      cases hcoupled.unique hu hrest
      cases hu.symm.trans hrest
      rfl
    refine ⟨(rest.run data).2, ?_, h.inside v rest hrest ▸ hrelated.2, fun u rest' hu => ?_,
      fun hfree => absurd hrest (hfree v rest)⟩
    · refine h.outside (.idle l') ht (by simp) (fun u rest' hu => ?_)
        fun hfree => absurd hrest (hfree v rest)
      rw [honly u rest' hu]
      exact ⟨rfl, hrelated.1.symm⟩
    · rw [honly u rest' hu]
  · have hfree : ∀ v rest, s.mode v ≠ .inside rest := fun v rest hv => hin ⟨v, rest, hv⟩
    refine ⟨data, ?_, h.free hfree ▸ hr, fun v rest hv => absurd hv (hfree v rest), fun _ => rfl⟩
    exact h.outside (.idle l') ht (by simp) (fun v rest hv => absurd hv (hfree v rest)) fun _ => rfl

theorem Settles.unlocked (h : s.Settles a) (hcoupled : s.Coupled) {t : ι} {act : P}
    (hstep : s.step client (.unlocked t act) = some s')
    (hpasses : Undisturbed client ⟨s, .unlocked t act, s'⟩) :
    ∃ b, a.step client (.unlocked t act) = some b ∧ s'.Settles b := by
  rcases step_unlocked hstep with ⟨l, l', data, hmode, hact, rfl⟩
  have hloc : a.loc t = l := by rw [h.loc t, hmode, settle]
  have hnext : ∃ data', client.unlocked act l a.data = some (l', data') ∧
      (∀ v rest, s.mode v = .inside rest →
        data' = (rest.run data).2 ∧ (rest.run data).1 = (rest.run s.data).1) ∧
      ((∀ v rest, s.mode v ≠ .inside rest) → data' = data) := by
    by_cases hin : ∃ v rest, s.mode v = .inside rest
    · rcases hin with ⟨v, rest, hrest⟩
      have hpass := hpasses t act l rfl hmode v rest hrest l' data hact
      refine ⟨(rest.run data).2, ?_, fun u rest' hu => ?_, fun hfree => absurd hrest (hfree v rest)⟩
      · rw [h.inside v rest hrest]
        exact hpass.1
      · cases hcoupled.unique hu hrest
        cases hu.symm.trans hrest
        exact ⟨rfl, hpass.2⟩
    · refine ⟨data, ?_, fun v rest hv => absurd ⟨v, rest, hv⟩ hin, fun _ => rfl⟩
      rw [h.free fun v rest hv => hin ⟨v, rest, hv⟩]
      exact hact
  rcases hnext with ⟨data', hact', hinside, hfree⟩
  refine ⟨_, by rw [Sections.step, hloc, hact', Option.map_some], ?_⟩
  have ht : ∀ rest, s.mode t ≠ .inside rest := by simp [hmode]
  exact h.outside (.idle l') ht (by simp) hinside hfree

/-- A thread that asks for the lock has not done anything yet. -/
theorem Settles.call (h : s.Settles a) {t : ι} {act : S}
    (hstep : s.step client (.call t act) = some s') : s'.Settles a := by
  rcases step_call hstep with ⟨l, hmode, rfl⟩
  have ht : ∀ rest, s.mode t ≠ .inside rest := by simp [hmode]
  have hsame : Function.update a.loc t l = a.loc := by
    rw [Function.update_eq_self_iff, h.loc t, hmode, settle]
  have hsettles : Settles (s.setMode t (.waiting l act))
      { data := a.data, loc := Function.update a.loc t l } :=
    h.outside (.waiting l act) ht (by simp) (fun v rest hv => ⟨h.inside v rest hv, rfl⟩) h.free
  rw [hsame] at hsettles
  exact hsettles

/-- A step inside a section is part of what settles. -/
theorem Settles.access (h : s.Settles a) (hcoupled : s.Coupled) {t : ι}
    (hstep : s.step client (.access t) = some s') : s'.Settles a := by
  rcases step_access hstep with ⟨write, next, hmode, rfl⟩
  have hothers : ∀ v rest, v ≠ t → s.mode v ≠ .inside rest := fun v rest hne hv =>
    hne (hcoupled.unique hv hmode)
  constructor
  · intro v
    rw [h.loc v]
    by_cases hv : v = t
    · subst hv
      simp [hmode, settle, Prog.run]
    · simp only [setMode_of_ne s hv]
      exact settle_of_outside (fun rest => hothers v rest hv) _ _
  · intro v rest hv
    by_cases hvt : v = t
    · subst hvt
      cases (by simpa using hv : next s.data = rest)
      exact h.inside v _ hmode
    · exact absurd (by simpa [setMode_of_ne s hvt] using hv) (hothers v rest hvt)
  · intro hfree
    exact absurd (setMode_self s t _) (hfree t (next s.data))

/-- Nobody is in a section when a thread takes the lock. -/
theorem Coupled.alone {t : ι} {l : L} {act : S} {lock' : lock.State} {body : Prog D L}
    (h : Coupled { s.setMode t (.inside body) with lock := lock' })
    (hmode : s.mode t = .waiting l act) (v : ι) (rest : Prog D L) : s.mode v ≠ .inside rest := by
  intro hv
  by_cases hvt : v = t
  · subst hvt
    cases hmode.symm.trans hv
  · exact hvt (h.unique (p := rest) (by simpa [setMode_of_ne s hvt] using hv)
      (setMode_self s t (.inside body)))

/-- Taking the lock counts as the whole section. -/
theorem Settles.acquire (h : s.Settles a) {t : ι} {l : L} {act : S} {lock' : lock.State}
    {body : Prog D L} (hmode : s.mode t = .waiting l act)
    (hbody : client.locked act l = some body)
    (hcoupled : Coupled { s.setMode t (.inside body) with lock := lock' }) :
    ∃ b, a.step client (.locked t act) = some b ∧
      Settles { s.setMode t (.inside body) with lock := lock' } b := by
  have hloc : a.loc t = l := by rw [h.loc t, hmode, settle]
  have halone := hcoupled.alone hmode
  have hdata := h.free halone
  refine ⟨_, by rw [Sections.step, hloc, hbody, Option.map_some], ?_⟩
  constructor
  · intro v
    by_cases hv : v = t
    · subst hv
      simp [settle, hdata]
    · simp [setMode_of_ne s hv, hv, h.loc v]
  · intro v rest hv
    by_cases hvt : v = t
    · subst hvt
      cases (by simpa using hv : body = rest)
      simp [hdata]
    · exact absurd (by simpa [setMode_of_ne s hvt] using hv) (halone v rest)
  · intro hfree
    exact absurd (setMode_self s t _) (hfree t body)

/-- A section that is done has settled. -/
theorem Settles.release (h : s.Settles a) (hcoupled : s.Coupled) {t : ι} {l : L}
    {lock' : lock.State} (hmode : s.mode t = .inside (.done l)) :
    Settles { s.setMode t (.idle l) with lock := lock' } a := by
  have hothers : ∀ v rest, v ≠ t → s.mode v ≠ .inside rest := fun v rest hne hv =>
    hne (hcoupled.unique hv hmode)
  constructor
  · intro v
    rw [h.loc v]
    by_cases hv : v = t
    · subst hv
      simp [hmode, settle]
    · simp [setMode_of_ne s hv]
  · intro v rest hv
    by_cases hvt : v = t
    · subst hvt
      simp at hv
    · exact absurd (by simpa [setMode_of_ne s hvt] using hv) (hothers v rest hvt)
  · intro _
    exact h.inside t _ hmode

/-- Each step is a step of the threads whose sections are single steps, or none. -/
theorem Settles.step {e : Event lock S P} (h : s.Settles a) (hcoupled : s.Coupled)
    (hstep : s.step client e = some s') (hpasses : Undisturbed client ⟨s, e, s'⟩) :
    match effect ⟨s, e, s'⟩ with
    | none => s'.Settles a
    | some e' => ∃ b, a.step client e' = some b ∧ s'.Settles b := by
  have hcoupled' := hcoupled.step hstep
  cases e with
  | unlocked t act => exact h.unlocked hcoupled hstep hpasses
  | call t act => exact h.call hstep
  | access t => exact h.access hcoupled hstep
  | lock e =>
      rcases step_lock hstep with ⟨lock', hlock, hwaiting | hinside⟩
      · rcases hwaiting with ⟨l, act, hmode, ⟨hout, rfl⟩ | ⟨hin, body, hbody, rfl⟩⟩
        · simpa [effect, hmode, hout] using ⟨h.loc, h.inside, h.free⟩
        · simpa [effect, hmode, hin] using h.acquire hmode hbody hcoupled'
      · rcases hinside with ⟨l, hmode, ⟨hin, rfl⟩ | ⟨hout, rfl⟩⟩
        · simpa [effect, hmode] using ⟨h.loc, h.inside, h.free⟩
        · simpa [effect, hmode] using h.release hcoupled hmode

omit [DecidableEq ι] in
/-- A step of the lock counts as a section or as nothing. -/
theorem locked_of_effect {e : lock.Event} {e' : Sections.Event ι S P}
    (h : effect ⟨s, .lock e, s'⟩ = some e') : ∃ t act, e' = .locked t act := by
  simp only [effect] at h
  split at h
  · split at h
    · exact ⟨_, _, (Option.some.inj h).symm⟩
    · cases h
  · cases h

/-- A section finds the data as they are. -/
theorem Settles.data_of_locked (h : s.Settles a) (hcoupled : s.Coupled) {e : Event lock S P}
    (hstep : s.step client e = some s') {t : ι} {act : S}
    (heffect : effect ⟨s, e, s'⟩ = some (.locked t act)) : a.data = s.data := by
  have hcoupled' := hcoupled.step hstep
  cases e with
  | unlocked v act => cases heffect
  | call v act => cases heffect
  | access v => cases heffect
  | lock e =>
      rcases step_lock hstep with ⟨lock', hlock, hwaiting | hinside⟩
      · rcases hwaiting with ⟨l, act', hmode, ⟨hout, rfl⟩ | ⟨hin, body, hbody, rfl⟩⟩
        · simp [effect, hmode, hout] at heffect
        · exact h.free (hcoupled'.alone hmode)
      · rcases hinside with ⟨l, hmode, -⟩
        simp [effect, hmode] at heffect

/-! ## Runs -/

omit [DecidableEq ι] in
theorem coupled_initial {lockState : lock.State} (hsound : lock.Sound lockState)
    (hfree : ∀ t, lock.holds lockState t = false) (data : D) (l : ι → L) :
    (initial (S := S) lockState data l).Coupled where
  sound := hsound
  holds := by simp [initial, hfree]

omit [DecidableEq ι] in
theorem settles_initial (lockState : lock.State) (data : D) (l : ι → L) :
    (initial (S := S) lockState data l).Settles { data, loc := l } where
  loc := fun _ => rfl
  inside := fun _ _ h => by cases h
  free := fun _ => rfl

/-- The run takes the sections one at a time, in the order in which they get the lock. -/
theorem run_settles {lockState : lock.State} (hsound : lock.Sound lockState)
    (hfree : ∀ t, lock.holds lockState t = false) {data : D} {l : ι → L}
    {trace : List (Transition (Threads lock D L S) (Event lock S P))}
    (h : Run (step client) (initial lockState data l) trace s)
    (hpasses : ∀ x ∈ trace, Undisturbed client x) :
    ∃ trace' a, Run (Sections.step client) { data, loc := l } trace' a ∧
      (s.Coupled ∧ s.Settles a) ∧
      trace'.map Transition.event = trace.filterMap effect := by
  refine h.guarded_refines (fun s a => s.Coupled ∧ s.Settles a) effect
    ⟨coupled_initial hsound hfree data l, settles_initial lockState data l⟩ ?_ hpasses
  rintro s e s' a ⟨hcoupled, hsettles⟩ hstep hok
  have hnext := hsettles.step hcoupled hstep hok
  cases heffect : effect ⟨s, e, s'⟩ with
  | none =>
      rw [heffect] at hnext
      exact ⟨hcoupled.step hstep, hnext⟩
  | some e' =>
      rw [heffect] at hnext
      rcases hnext with ⟨b, hb, hsettles'⟩
      exact ⟨b, hb, hcoupled.step hstep, hsettles'⟩

/-! ### Disciplined clients -/

/-- What is left of the open section satisfies `p`. -/
def Rests (p : Prog D L → Prop) (s : Threads lock D L S) : Prop :=
  ∀ t rest, s.mode t = .inside rest → p rest

theorem Rests.setMode {p : Prog D L → Prop} (h : s.Rests p) {t : ι} {mode : Mode D L S} {data : D}
    {lock' : lock.State} (hmode : ∀ rest, mode = .inside rest → p rest) :
    Rests p { s.setMode t mode with data, lock := lock' } := by
  intro v rest hv
  by_cases hvt : v = t
  · subst hvt
    exact hmode rest (by simpa using hv)
  · exact h v rest (by simpa [setMode_of_ne s hvt] using hv)

theorem Rests.step {p : Prog D L → Prop} (hbody : ∀ act l body, client.locked act l = some body →
      p body)
    (hnext : ∀ write next d, p (.step write next) → p (next d)) {e : Event lock S P}
    (h : s.Rests p) (hstep : s.step client e = some s') : s'.Rests p := by
  cases e with
  | unlocked t act =>
      rcases step_unlocked hstep with ⟨l, l', data, -, -, rfl⟩
      exact h.setMode (by simp)
  | call t act =>
      rcases step_call hstep with ⟨l, -, rfl⟩
      exact h.setMode (by simp)
  | access t =>
      rcases step_access hstep with ⟨write, next, hmode, rfl⟩
      refine h.setMode fun rest hrest => ?_
      cases hrest
      exact hnext write next s.data (h t _ hmode)
  | lock e =>
      rcases step_lock hstep with ⟨lock', -, hwaiting | hinside⟩
      · rcases hwaiting with ⟨l, act, -, ⟨-, rfl⟩ | ⟨-, body, hlocked, rfl⟩⟩
        · exact h
        · refine h.setMode fun rest hrest => ?_
          cases hrest
          exact hbody act l body hlocked
      · rcases hinside with ⟨l, -, ⟨-, rfl⟩ | ⟨-, rfl⟩⟩
        · exact h
        · exact h.setMode (by simp)

theorem run_rests {p : Prog D L → Prop} (hbody : ∀ act l body, client.locked act l = some body →
      p body)
    (hnext : ∀ write next d, p (.step write next) → p (next d)) {lockState : lock.State} {data : D}
    {l : ι → L} {trace : List (Transition (Threads lock D L S) (Event lock S P))}
    (h : Run (Threads.step client) (initial lockState data l) trace s) : s.Rests p :=
  h.invariant (Rests p) (fun _ _ hv => by cases hv)
    fun _ _ _ hinv hstep => hinv.step hbody hnext hstep

/-- The programs under the lock commute with all steps outside. -/
def Disciplined (client : Client D L S P) : Prop :=
  ∀ act l body, client.locked act l = some body →
    ∀ act' l', body.Unaffected (client.unlocked act' l')

/-- If nothing outside the lock disturbs a section, every run takes the sections one at a time. -/
theorem run_settles_of_disciplined (hclient : Disciplined client) {lockState : lock.State}
    (hsound : lock.Sound lockState) (hfree : ∀ t, lock.holds lockState t = false) {data : D}
    {l : ι → L} {trace : List (Transition (Threads lock D L S) (Event lock S P))}
    (h : Run (Threads.step client) (initial lockState data l) trace s) :
    ∃ trace' a, Run (Sections.step client) { data, loc := l } trace' a ∧
      (s.Coupled ∧ s.Settles a) ∧
      trace'.map Transition.event = trace.filterMap effect := by
  refine run_settles hsound hfree h fun x hx => ?_
  rcases h.transition_reached x hx with ⟨-, before, rest, -, hpre⟩
  intro t act l hevent hidle v rest hv
  have hrests := run_rests (p := fun rest => ∀ act l, rest.Unaffected (client.unlocked act l))
    hclient (fun write next d hstep act l => (hstep act l).2.2 d) hpre
  exact (hrests v rest hv act l).passes x.pre.data

end

end Threads

end CriticalSection
