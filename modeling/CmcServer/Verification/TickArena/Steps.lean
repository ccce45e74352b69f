import CmcServer.Model.TickArena
import Mathlib.Data.Fintype.Card

/-! # The steps of the tick arena system

One inversion rule per event. They say everything a step does, so that no later proof unfolds
`TickState.step`. -/

namespace CmcServer

namespace TickArenas

variable (g : TickArenas) (a b : ArenaId) (f : TickArena → TickArena)

@[simp] theorem modify_currentTickArena :
    (g.modify a f).currentTickArena = g.currentTickArena := rfl

@[simp] theorem modify_nextTickArena : (g.modify a f).nextTickArena = g.nextTickArena := rfl

theorem users_modify_self : (g.modify a f).users a = (f (g.arena a)).users := by
  simp [users, modify]

theorem users_modify_of_ne (h : b ≠ a) : (g.modify a f).users b = g.users b := by
  simp [users, modify, h]

/-- An update that keeps the counter of the arena it changes keeps every counter. -/
theorem users_modify_of_users_eq (h : (f (g.arena a)).users = (g.arena a).users) :
    (g.modify a f).users b = g.users b := by
  by_cases hb : b = a
  · subst hb
    rw [users_modify_self, h]
    rfl
  · exact users_modify_of_ne g a b f hb

@[simp] theorem switchLocked_currentTickArena :
    g.switchLocked.currentTickArena = g.nextTickArena := rfl

@[simp] theorem switchLocked_nextTickArena :
    g.switchLocked.nextTickArena = g.currentTickArena := rfl

@[simp] theorem users_switchLocked : g.switchLocked.users a = g.users a := by
  unfold switchLocked
  rw [users_modify_of_users_eq _ _ _ _ rfl]
  rfl

@[simp] theorem resetTarget_eq : g.resetTarget = g.currentTickArena := rfl

@[simp] theorem returnTickArena_currentTickArena :
    (g.returnTickArena a).currentTickArena = g.currentTickArena := rfl

theorem users_getTickArena :
    g.getTickArena.2.users a =
      if a = g.currentTickArena then sizeAdd (g.users a) 1 else g.users a := by
  by_cases ha : a = g.currentTickArena
  · subst ha
    rw [if_pos rfl]
    exact users_modify_self g _ fun a => { a with users := sizeAdd a.users 1 }
  · rw [if_neg ha]
    exact users_modify_of_ne g _ _ (fun a => { a with users := sizeAdd a.users 1 }) ha

/-- `return_tick_arena` decrements the current arena, whatever its argument. -/
theorem users_returnTickArena :
    (g.returnTickArena b).users a =
      if a = g.currentTickArena then sizeAdd (g.users a) (2 ^ 64 - 1) else g.users a := by
  by_cases ha : a = g.currentTickArena
  · subst ha
    rw [if_pos rfl]
    exact users_modify_self g _ fun a => { a with users := sizeAdd a.users (toSize (-1)) }
  · rw [if_neg ha]
    exact users_modify_of_ne g _ _
      (fun a => { a with users := sizeAdd a.users (toSize (-1)) }) ha

end TickArenas

theorem TickArena.afterAlloc_users (arena : TickArena) (size : ℕ) :
    (arena.afterAlloc size).users = arena.users := by
  unfold TickArena.afterAlloc TickArena.tickArenaAllocUnlocked
  by_cases h : sizeAdd arena.currentOffset size > arena.maxSize <;> simp [h]

theorem TickArenas.users_modify_afterAlloc (g : TickArenas) (a b : ArenaId) (size : ℕ) :
    (g.modify a fun arena => arena.afterAlloc size).users b = g.users b :=
  g.users_modify_of_users_eq a b (fun arena => arena.afterAlloc size)
    (TickArena.afterAlloc_users _ _)

namespace TickState

variable {ι : Type*} [DecidableEq ι] {s s' : TickState ι} {t : ι} {size : ℕ}

theorem step_get_iff :
    step s (.get t) = some s' ↔ s.held t = none ∧
      s' = { s with
        arenas := s.arenas.getTickArena.2,
        held := Function.update s.held t (some s.arenas.currentTickArena) } := by
  cases h : s.held t <;> simp [step, h, TickArenas.getTickArena, eq_comm]

theorem step_ret_iff :
    step s (.ret t) = some s' ↔ ∃ a, s.held t = some a ∧
      s' = { s with
        arenas := s.arenas.returnTickArena a, held := Function.update s.held t none } := by
  cases h : s.held t <;> simp [step, h, eq_comm]

theorem step_alloc_iff :
    step s (.alloc t size) = some s' ↔ ∃ a, s.held t = some a ∧
      s' = { s with arenas := s.arenas.modify a fun arena => arena.afterAlloc size } := by
  cases h : s.held t <;> simp [step, h, eq_comm]

theorem step_swap_iff :
    step s .swap = some s' ↔ (∃ a, s.game = .ticking a) ∧
      s' = { s with arenas := s.arenas.switchLocked, game := .waiting } := by
  cases h : s.game <;> simp [step, h, eq_comm]

theorem step_wait_iff :
    step s .wait = some s' ↔ s.game = .waiting ∧
      s.arenas.users s.arenas.currentTickArena = 0 ∧
      s' = { s with game := .ticking (some s.arenas.currentTickArena) } := by
  cases h : s.game <;> simp [step, h, eq_comm]

theorem step_tickAlloc_iff :
    step s (.tickAlloc size) = some s' ↔ ∃ a, s.game = .ticking (some a) ∧
      s' = { s with arenas := s.arenas.modify a fun arena => arena.afterAlloc size } := by
  rcases h : s.game with (_ | a) | _ <;> simp [step, h, eq_comm]

/-! ## The laws of a step -/

/-- If the step resets an arena, no packet thread is using that arena. -/
def ResetUnheld (x : Runs.Transition (TickState ι) (TickEvent ι)) : Prop :=
  x.event = .swap → ∀ t, x.pre.held t ≠ some x.pre.arenas.resetTarget

/-- No packet thread is inside `get_tick_arena` .. `return_tick_arena` when the game loop
enters the locked section of `switch_tick_arenas`. -/
def SwitchQuiescent (x : Runs.Transition (TickState ι) (TickEvent ι)) : Prop :=
  x.event = .swap → ∀ t, x.pre.held t = none

/-- A returned arena is still the current one. -/
def ReturnsCurrent (x : Runs.Transition (TickState ι) (TickEvent ι)) : Prop :=
  ∀ t, x.event = .ret t → x.pre.held t = some x.pre.arenas.currentTickArena

/-- `get_tick_arena` is not called between the return of a `switch_tick_arenas` and the next
swap. -/
def NoGetDuringTick (x : Runs.Transition (TickState ι) (TickEvent ι)) : Prop :=
  ∀ t a, x.event = .get t → x.pre.game ≠ .ticking (some a)

/-- When `switch_tick_arenas` returns an arena no packet thread is using it, and until the
next swap no call of `get_tick_arena` returns it. -/
structure TickExclusive (x : Runs.Transition (TickState ι) (TickEvent ι)) : Prop where
  unheld : ∀ a, x.event = .wait → x.post.game = .ticking (some a) →
    ∀ t, x.pre.held t ≠ some a
  unshared : ∀ t a, x.event = .get t → x.pre.game = .ticking (some a) →
    x.post.held t ≠ some a

def holders [Fintype ι] (s : TickState ι) (a : ArenaId) : ℕ :=
  (Finset.univ.filter fun t => s.held t = some a).card

/-- Every counter equals the number of packet threads using its arena. -/
def UsersExact [Fintype ι] (s : TickState ι) : Prop :=
  ∀ a, s.arenas.users a = s.holders a

/-- The counters are exact after the step, and a decrement did not find zero. -/
def CountsExact [Fintype ι] (x : Runs.Transition (TickState ι) (TickEvent ι)) : Prop :=
  x.post.UsersExact ∧
    ∀ t, x.event = .ret t → 0 < x.pre.arenas.users x.pre.arenas.currentTickArena

instance [Fintype ι] (x : Runs.Transition (TickState ι) (TickEvent ι)) :
    Decidable (ResetUnheld x) :=
  inferInstanceAs (Decidable (_ → ∀ _, _))

instance [Fintype ι] (x : Runs.Transition (TickState ι) (TickEvent ι)) :
    Decidable (SwitchQuiescent x) :=
  inferInstanceAs (Decidable (_ → ∀ _, _))

instance [Fintype ι] (x : Runs.Transition (TickState ι) (TickEvent ι)) :
    Decidable (ReturnsCurrent x) :=
  inferInstanceAs (Decidable (∀ _, _))

instance [Fintype ι] (x : Runs.Transition (TickState ι) (TickEvent ι)) :
    Decidable (NoGetDuringTick x) :=
  inferInstanceAs (Decidable (∀ _ _, _))

instance [Fintype ι] (s : TickState ι) : Decidable s.UsersExact :=
  inferInstanceAs (Decidable (∀ _, _))

instance [Fintype ι] (x : Runs.Transition (TickState ι) (TickEvent ι)) :
    Decidable (CountsExact x) :=
  inferInstanceAs (Decidable (_ ∧ ∀ _, _))

end TickState

end CmcServer
