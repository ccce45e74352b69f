import CmcServer.Verification.TickArena.LostUpdates

/-! # Sections as single steps of the arenas

`TickState` takes the sections under the ticket lock, and `return_tick_arena`, as single steps. A
run of the loads and stores is such a run if no step outside the lock disturbs a section and every
decrement goes to the arena that is current. -/

namespace CmcServer.TickArenas

open Runs CriticalSection

variable {ι : Type} [DecidableEq ι] {game : ι} {a b : Sections ι TickArenas ArenaPhase}

def gamePhase : ArenaPhase → GamePhase
  | .ticking arena => .ticking arena
  | _ => .waiting

def isGame : ArenaPhase → Bool
  | .ticking _ | .waiting => true
  | .idle | .holding _ | .returning _ _ => false

def asTick (game : ι) (a : Sections ι TickArenas ArenaPhase) : TickState ι :=
  { counts a with game := gamePhase (a.loc game) }

def Roles (game : ι) (a : Sections ι TickArenas ArenaPhase) : Prop :=
  ∀ t, isGame (a.loc t) = true ↔ t = game

/-- The step that a section or a step outside counts as. A load of the pointer counts as nothing,
the decrement behind it counts as `return_tick_arena`. -/
def tickEvent : Sections.Event ι ArenaOp ArenaAct → Option (TickEvent ι)
  | .locked t .get => some (.get t)
  | .locked _ .switch => some .swap
  | .unlocked _ .loadCurrent => none
  | .unlocked t .fetchSub => some (.ret t)
  | .unlocked t (.alloc size) => some (.alloc t size)
  | .unlocked _ .wait => some .wait
  | .unlocked _ (.tickAlloc size) => some (.tickAlloc size)

/-- If a thread is about to decrement, it does it to this arena. -/
def Aims (arena : ArenaId) : ArenaPhase → Prop
  | .returning _ target => target = arena
  | _ => True

instance (arena : ArenaId) (l : ArenaPhase) : Decidable (Aims arena l) :=
  match l with
  | .returning _ target => inferInstanceAs (Decidable (target = arena))
  | .idle | .holding _ | .ticking _ | .waiting => inferInstanceAs (Decidable True)

/-- A decrement goes to the arena that is current. -/
def DecrementsCurrent (a : Sections ι TickArenas ArenaPhase) :
    Sections.Event ι ArenaOp ArenaAct → Prop
  | .unlocked t .fetchSub => Aims a.data.currentTickArena (a.loc t)
  | _ => True

/-! ## Steps -/

theorem Roles.update (h : Roles game a) {t : ι} {g : TickArenas} {l : ArenaPhase}
    (hl : isGame l = isGame (a.loc t)) :
    Roles game { data := g, loc := Function.update a.loc t l } := by
  intro v
  by_cases hv : v = t
  · subst hv
    simpa [hl] using h v
  · simpa [hv] using h v

theorem asTick_update (g : TickArenas) (t : ι) (l : ArenaPhase) :
    asTick game { data := g, loc := Function.update a.loc t l } =
      { arenas := g, game := gamePhase (Function.update a.loc t l game)
        held := Function.update (counts a).held t l.held } := by
  rw [asTick, counts_update]

theorem asTick_packet (h : Roles game a) {t : ι} (ht : isGame (a.loc t) = false) (g : TickArenas)
    (l : ArenaPhase) :
    asTick game { data := g, loc := Function.update a.loc t l } =
      { asTick game a with arenas := g, held := Function.update (counts a).held t l.held } := by
  have hne : game ≠ t := by
    rintro rfl
    rw [(h game).mpr rfl] at ht
    cases ht
  rw [asTick_update, Function.update_of_ne hne]
  rfl

theorem update_held {t : ι} {l : ArenaPhase} (hl : l.held = (a.loc t).held) :
    Function.update (counts a).held t l.held = (counts a).held := by
  rw [hl]
  exact Function.update_eq_self ..

theorem held_of_isGame {l : ArenaPhase} (h : isGame l = true) : l.held = none := by
  cases l <;> first | rfl | cases h

theorem asTick_game (h : Roles game a) (g : TickArenas) {l : ArenaPhase} (hl : isGame l = true) :
    asTick game { data := g, loc := Function.update a.loc game l } =
      { asTick game a with arenas := g, game := gamePhase l } := by
  have hsame : l.held = (a.loc game).held := by
    rw [held_of_isGame hl, held_of_isGame ((h game).mpr rfl)]
  rw [asTick_update, Function.update_self, update_held hsame]
  rfl

/-- Each step is the step of the arenas that it counts as. -/
theorem Roles.step (h : Roles game a) {e : Sections.Event ι ArenaOp ArenaAct}
    (hstep : a.step client e = some b) (hcurrent : DecrementsCurrent a e) :
    Roles game b ∧
      match tickEvent e with
      | none => asTick game b = asTick game a
      | some e' => (asTick game a).step e' = some (asTick game b) := by
  cases e with
  | locked t call =>
      rcases Option.map_eq_some_iff.mp hstep with ⟨body, hbody, rfl⟩
      cases call with
      | get =>
          cases hphase : a.loc t <;> rw [hphase] at hbody <;> cases hbody
          rw [run_getAccesses]
          refine ⟨h.update (by simp [hphase, isGame]), ?_⟩
          simp only [tickEvent]
          rw [asTick_packet h (by simp [hphase, isGame]), TickState.step_get_iff]
          exact ⟨congrArg ArenaPhase.held hphase, rfl⟩
      | switch =>
          cases hphase : a.loc t <;> rw [hphase] at hbody <;> cases hbody
          rename_i arena
          have ht : t = game := (h t).mp (by simp [hphase, isGame])
          subst ht
          rw [run_switchAccesses]
          refine ⟨h.update (by simp [hphase, isGame]), ?_⟩
          simp only [tickEvent]
          rw [asTick_game h _ rfl, TickState.step_swap_iff]
          exact ⟨⟨arena, congrArg gamePhase hphase⟩, rfl⟩
  | unlocked t act =>
      rcases Option.map_eq_some_iff.mp hstep with ⟨⟨l, g⟩, hact, rfl⟩
      cases act with
      | loadCurrent =>
          cases hphase : a.loc t <;> rw [hphase] at hact <;> cases hact
          rename_i arena
          refine ⟨h.update (by simp [hphase, isGame]), ?_⟩
          simp only [tickEvent]
          rw [asTick_packet h (by simp [hphase, isGame]), update_held (by rw [hphase]; rfl)]
          rfl
      | fetchSub =>
          cases hphase : a.loc t <;> rw [hphase] at hact <;> cases hact
          rename_i arena target
          refine ⟨h.update (by simp [hphase, isGame]), ?_⟩
          simp only [tickEvent]
          have htarget : target = a.data.currentTickArena := by
            rw [DecrementsCurrent, hphase] at hcurrent
            exact hcurrent
          rw [asTick_packet h (by simp [hphase, isGame]), TickState.step_ret_iff, htarget]
          exact ⟨arena, congrArg ArenaPhase.held hphase, rfl⟩
      | alloc size =>
          cases hphase : a.loc t <;> rw [hphase] at hact <;> cases hact
          rename_i arena
          refine ⟨h.update (by simp [hphase, isGame]), ?_⟩
          simp only [tickEvent]
          rw [asTick_packet h (by simp [hphase, isGame]), TickState.step_alloc_iff,
            update_held (by rw [hphase])]
          exact ⟨arena, congrArg ArenaPhase.held hphase, rfl⟩
      | wait =>
          cases hphase : a.loc t <;> rw [hphase] at hact <;>
            simp only [client, unlocked, reduceCtorEq] at hact
          rcases Option.ite_none_right_eq_some.mp hact with ⟨hzero, hact⟩
          cases hact
          have ht : t = game := (h t).mp (by simp [hphase, isGame])
          subst ht
          refine ⟨h.update (by simp [hphase, isGame]), ?_⟩
          simp only [tickEvent]
          rw [asTick_game h _ rfl, TickState.step_wait_iff]
          exact ⟨congrArg gamePhase hphase, hzero, rfl⟩
      | tickAlloc size =>
          rcases hphase : a.loc t with _ | _ | _ | (_ | arena) | _ <;> rw [hphase] at hact <;>
            cases hact
          have ht : t = game := (h t).mp (by simp [hphase, isGame])
          subst ht
          refine ⟨h.update (by simp [hphase, isGame]), ?_⟩
          simp only [tickEvent]
          rw [asTick_game h _ rfl, TickState.step_tickAlloc_iff]
          refine ⟨arena, congrArg gamePhase hphase, ?_⟩
          rw [asTick, hphase]
          rfl

/-! ## Runs -/

variable [Fintype ι] {hthreads : Fintype.card ι < 2 ^ 64} {start₁ start₂ : ℕ} {ticket : BitVec 64}
  {s : Threads (ticketLock ι hthreads) TickArenas ArenaPhase ArenaOp}
  {trace : List (Transition (Threads (ticketLock ι hthreads) TickArenas ArenaPhase ArenaOp)
    (Threads.Event (ticketLock ι hthreads) ArenaOp ArenaAct))}

/-- If the step is a decrement, it goes to the arena that is current once the open section is
done. -/
def ReturnsToCurrent (x : Transition (Threads (ticketLock ι hthreads) TickArenas ArenaPhase ArenaOp)
    (Threads.Event (ticketLock ι hthreads) ArenaOp ArenaAct)) : Prop :=
  ∀ a e, x.pre.Settles a → Threads.effect x = some e → DecrementsCurrent a e

omit [Fintype ι] in
theorem roles_start (data : TickArenas) :
    Roles game { data, loc := fun t => if t = game then .ticking none else .idle } := by
  intro t
  by_cases ht : t = game
  · simp [ht, isGame]
  · simp [ht, isGame]

omit [Fintype ι] in
theorem asTick_start (start₁ start₂ : ℕ) :
    asTick game { data := initTickArenas start₁ start₂
                  loc := fun t => if t = game then .ticking none else .idle } =
      TickState.initial ι start₁ start₂ := by
  have hnone : (fun t => (if t = game then ArenaPhase.ticking none else .idle).held) =
      fun _ => none := by
    funext t
    split <;> rfl
  simp only [asTick, counts, TickState.initial, hnone, if_true]
  rfl

/-- The run so far is one of the arenas, which leads to where the open section settles. -/
theorem run_asTick
    (h : Run (Threads.step client) (start hthreads game start₁ start₂ ticket) trace s)
    (hundisturbed : ∀ x ∈ trace, Threads.Undisturbed client x)
    (hcurrent : ∀ x ∈ trace, ReturnsToCurrent x) :
    ∃ trace' a, Run TickState.step (TickState.initial ι start₁ start₂) trace' (asTick game a) ∧
      (s.Coupled ∧ s.Settles a ∧ Roles game a) ∧
      trace'.map Transition.event = (trace.filterMap Threads.effect).filterMap tickEvent := by
  induction h with
  | nil =>
      refine ⟨[], _, ?_, ⟨(tracked_start game start₁ start₂ ticket).coupled,
        Threads.settles_initial _ _ _, roles_start _⟩, rfl⟩
      rw [asTick_start]
      exact .nil
  | @snoc trace s e s' _ hstep ih =>
      rcases ih (fun x hx => hundisturbed x (List.mem_append_left _ hx))
        (fun x hx => hcurrent x (List.mem_append_left _ hx)) with
        ⟨trace', a, hrun, ⟨hcoupled, hsettles, hroles⟩, hevents⟩
      have hnext := hsettles.step hcoupled hstep (hundisturbed _ (by simp))
      have hcurrent' := hcurrent ⟨s, e, s'⟩ (by simp)
      cases heffect : Threads.effect ⟨s, e, s'⟩ with
      | none =>
          rw [heffect] at hnext
          exact ⟨trace', a, hrun, ⟨hcoupled.step hstep, hnext, hroles⟩, by simp [hevents, heffect]⟩
      | some e' =>
          rw [heffect] at hnext
          rcases hnext with ⟨b, hb, hsettles'⟩
          rcases hroles.step hb (hcurrent' a e' hsettles heffect) with ⟨hroles', hmatch⟩
          cases htick : tickEvent e' with
          | none =>
              rw [htick] at hmatch
              exact ⟨trace', b, hmatch ▸ hrun, ⟨hcoupled.step hstep, hsettles', hroles'⟩,
                by simp [hevents, heffect, htick]⟩
          | some e'' =>
              rw [htick] at hmatch
              exact ⟨_, b, hrun.snoc hmatch, ⟨hcoupled.step hstep, hsettles', hroles'⟩,
                by simp [hevents, heffect, htick]⟩

/-- If no step outside the lock disturbs a section and each decrement goes to the current arena, the
loads and stores of a run do what the single steps of the arenas do. -/
theorem run_is_atomic
    (h : Run (Threads.step client) (start hthreads game start₁ start₂ ticket) trace s)
    (hundisturbed : ∀ x ∈ trace, Threads.Undisturbed client x)
    (hcurrent : ∀ x ∈ trace, ReturnsToCurrent x) :
    ∃ trace' a, Run TickState.step (TickState.initial ι start₁ start₂) trace' (asTick game a) ∧
      s.Settles a ∧
      trace'.map Transition.event = (trace.filterMap Threads.effect).filterMap tickEvent := by
  rcases run_asTick h hundisturbed hcurrent with ⟨trace', a, hrun, ⟨-, hsettles, -⟩, hevents⟩
  exact ⟨trace', a, hrun, hsettles, hevents⟩

/-- If the step is a decrement, it goes to the arena that is current now. -/
def AimsNow (x : Transition (Threads (ticketLock ι hthreads) TickArenas ArenaPhase ArenaOp)
    (Threads.Event (ticketLock ι hthreads) ArenaOp ArenaAct)) : Prop :=
  match x.event with
  | .unlocked t .fetchSub =>
      Aims x.pre.data.currentTickArena (Threads.settle (x.pre.mode t) x.pre.data).1
  | _ => True

omit [DecidableEq ι] [Fintype ι] in
instance (x : Transition (Threads (ticketLock ι hthreads) TickArenas ArenaPhase ArenaOp)
    (Threads.Event (ticketLock ι hthreads) ArenaOp ArenaAct)) : Decidable (AimsNow x) :=
  match x with
  | ⟨s, .unlocked t .fetchSub, _⟩ =>
      inferInstanceAs
        (Decidable (Aims s.data.currentTickArena (Threads.settle (s.mode t) s.data).1))
  | ⟨_, .unlocked _ .loadCurrent, _⟩ | ⟨_, .unlocked _ (.alloc _), _⟩ | ⟨_, .unlocked _ .wait, _⟩
  | ⟨_, .unlocked _ (.tickAlloc _), _⟩ | ⟨_, .call _ _, _⟩ | ⟨_, .lock _, _⟩ | ⟨_, .access _, _⟩ =>
      inferInstanceAs (Decidable True)

/-- Outside of sections nothing has to settle. -/
theorem returnsToCurrent_of_calm
    {x : Transition (Threads (ticketLock ι hthreads) TickArenas ArenaPhase ArenaOp)
      (Threads.Event (ticketLock ι hthreads) ArenaOp ArenaAct)} (hcalm : Threads.Calm x)
    (h : AimsNow x) : ReturnsToCurrent x := by
  rcases x with ⟨s, event, s'⟩
  rintro a e hsettles heffect
  cases event with
  | unlocked t act =>
      cases heffect
      cases act with
      | fetchSub =>
          change Aims a.data.currentTickArena (a.loc t)
          rw [hsettles.free hcalm.free, hsettles.loc t]
          exact h
      | _ => trivial
  | lock event =>
      rcases Threads.locked_of_effect heffect with ⟨t, call, rfl⟩
      trivial
  | call t call => cases heffect
  | access t => cases heffect

/-- The first packet thread allocates and returns its arena while the second one waits for the lock,
and the game loop switches once both are done. -/
def calmRun : List (Threads.Event (ticketLock (Fin 3) card_three) ArenaOp ArenaAct) :=
  [.call first .get, .lock (.fetchAdd first), .lock (.load first), .access first, .access first,
    .access first, .call second .get, .lock (.fetchAdd second), .lock (.leaveLoad first),
    .lock (.leaveStore first), .unlocked first (.alloc 64), .unlocked first .loadCurrent,
    .unlocked first .fetchSub, .lock (.load second), .access second, .access second, .access second,
    .lock (.leaveLoad second), .lock (.leaveStore second), .unlocked second .loadCurrent,
    .unlocked second .fetchSub, .call gameLoop .switch, .lock (.fetchAdd gameLoop),
    .lock (.load gameLoop), .access gameLoop, .access gameLoop, .access gameLoop, .access gameLoop,
    .access gameLoop, .access gameLoop, .access gameLoop, .access gameLoop,
    .lock (.leaveLoad gameLoop), .lock (.leaveStore gameLoop), .unlocked gameLoop .wait]

theorem run_is_atomic_calm :
    (threeThreads calmRun).length = calmRun.length ∧
      ∃ trace' a, Run TickState.step (TickState.initial (Fin 3) 0x100000000 0x200000000) trace'
        (asTick gameLoop a) ∧
      trace'.map Transition.event =
        [.get first, .alloc first 64, .ret first, .get second, .ret second, .swap, .wait] := by
  rcases run_replay (Threads.step client) (start card_three gameLoop 0x100000000 0x200000000 0)
    calmRun with ⟨u, hrun⟩
  have hcalm : ∀ x ∈ threeThreads calmRun, Threads.Calm x := by decide +kernel
  have haims : ∀ x ∈ threeThreads calmRun, AimsNow x := by decide +kernel
  have hevents : ((threeThreads calmRun).filterMap Threads.effect).filterMap tickEvent =
      [.get first, .alloc first 64, .ret first, .get second, .ret second, .swap, .wait] := by
    decide +kernel
  rcases run_is_atomic hrun (fun x hx => (hcalm x hx).undisturbed)
    (fun x hx => returnsToCurrent_of_calm (hcalm x hx) (haims x hx)) with
    ⟨trace', a, htick, -, hmap⟩
  exact ⟨by decide +kernel, trace', a, htick, hmap.trans hevents⟩

end CmcServer.TickArenas
