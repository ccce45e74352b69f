import CmcServer.Model.TickArenaThreads
import CmcServer.Verification.TickArena.Counts
import CmcServer.Verification.TicketLock.Fairness

/-! # Lost updates of the user counts

`users++` is a load and a store under the ticket lock, but `return_tick_arena` decrements without
the lock, and an arena that it finds through a pointer of its own. The counts are exact as long as
no decrement falls between the load and the store and each goes to the arena that is returned. -/

namespace CmcServer

open Runs CriticalSection

/-! ## The ticket lock -/

def LockEvent.thread {ι : Type} : LockEvent ι → ι
  | .fetchAdd t => t
  | .load t => t
  | .leaveLoad t => t
  | .leaveStore t => t

def LockPhase.hasLock : LockPhase → Bool
  | .inside | .leaving _ => true
  | .outside | .entering _ => false

theorem LockPhase.hasLock_iff {phase : LockPhase} : phase.hasLock = true ↔ phase.HasLock := by
  cases phase <;> simp [hasLock, HasLock]

namespace LockState

variable {ι : Type} [DecidableEq ι] {s s' : LockState ι} {t : ι} {e : LockEvent ι}

theorem step_others (h : s.step e = some s') (hne : t ≠ e.thread) : s'.phase t = s.phase t := by
  have hset : ∀ phase, (s.setPhase e.thread phase).phase t = s.phase t := fun phase =>
    Function.update_of_ne hne ..
  cases e with
  | fetchAdd v =>
      simp only [step] at h
      split at h <;> cases h
      exact hset _
  | load v =>
      simp only [step] at h
      split at h
      · split at h <;> cases h
        · rfl
        · exact hset _
      · cases h
  | leaveLoad v =>
      simp only [step] at h
      split at h <;> cases h
      exact hset _
  | leaveStore v =>
      simp only [step] at h
      split at h <;> cases h
      exact hset _

theorem queued_step [Fintype ι] (hthreads : Fintype.card ι < 2 ^ 64) (h : ∃ a, s.Queued a)
    (hstep : s.step e = some s') : ∃ a, s'.Queued a := by
  rcases h with ⟨a, ha⟩
  cases e with
  | fetchAdd t =>
      rcases ha.fetchAdd hstep with ⟨b, -, hb⟩
      exact ⟨b, hb⟩
  | load t =>
      have hload := ha.load hthreads hstep
      split at hload
      · rcases hload with ⟨b, -, hb⟩
        exact ⟨b, hb⟩
      · exact ⟨a, hload⟩
  | leaveLoad t => exact ⟨a, ha.leaveLoad hstep⟩
  | leaveStore t =>
      rcases ha.leaveStore hstep with ⟨b, -, hb⟩
      exact ⟨b, hb⟩

end LockState

/-- The ticket lock of fewer than 2^64 threads lets one thread in at a time. -/
def ticketLock (ι : Type) [DecidableEq ι] [Fintype ι] (hthreads : Fintype.card ι < 2 ^ 64) :
    Lock ι where
  State := LockState ι
  Event := LockEvent ι
  step := LockState.step
  thread := LockEvent.thread
  holds s t := (s.phase t).hasLock
  Sound s := ∃ a, s.Queued a
  sound_step h hstep := LockState.queued_step hthreads h hstep
  exclusive h ht hv := by
    rcases h with ⟨a, ha⟩
    have hfirst := (ha.head_of_hasLock (LockPhase.hasLock_iff.mp ht)).1
    rw [(ha.head_of_hasLock (LockPhase.hasLock_iff.mp hv)).1] at hfirst
    exact (Option.some.inj hfirst).symm
  others h hne := by rw [LockState.step_others h hne]

/-! ## Sections -/

namespace TickArenas

variable {g : TickArenas}

theorem run_getAccesses (g : TickArenas) :
    getAccesses.run g = (.holding g.currentTickArena, g.getTickArena.2) := by
  simp [getAccesses, getTickArena, users, modify]

theorem run_switchAccesses (g : TickArenas) :
    switchAccesses.run g = (.waiting, g.switchLocked) := by
  simp [switchAccesses, switchLocked, resetTarget, swapPointers, modify, TickArena.resetArena]

/-- The pointers are the same, and so are the users of the arenas in `p`. -/
structure Agree (p : ArenaId → Prop) (g g' : TickArenas) : Prop where
  current : g.currentTickArena = g'.currentTickArena
  next : g.nextTickArena = g'.nextTickArena
  users : ∀ b, p b → g.users b = g'.users b

namespace Agree

variable {p : ArenaId → Prop} {g g' : TickArenas}

theorem refl (p : ArenaId → Prop) (g : TickArenas) : Agree p g g := ⟨rfl, rfl, fun _ _ => rfl⟩

/-- Both sides change the same arena, and its users agree again. -/
theorem modify (h : Agree p g g') {a : ArenaId} {f f' : TickArena → TickArena}
    (hf : p a → (f (g.arena a)).users = (f' (g'.arena a)).users) :
    Agree p (g.modify a f) (g'.modify a f') where
  current := h.current
  next := h.next
  users := by
    intro b hb
    by_cases hba : b = a
    · subst hba
      rw [users_modify_self, users_modify_self, hf hb]
    · rw [users_modify_of_ne (h := hba), users_modify_of_ne (h := hba), h.users b hb]

end Agree

/-- A program that does with the pointers and the users of some arenas the same whatever else is in
the arenas. -/
def Steady (rest : Prog TickArenas ArenaPhase) : Prop :=
  ∀ p, Prog.Related (Agree p) (· = ·) rest rest

theorem steady_getAccesses : Steady getAccesses := by
  intro p
  refine (Prog.related_load (v := (· = ·)) fun g g' h => h.current).bind ?_
  rintro arena _ rfl
  refine (Prog.related_load (v := fun users users' => p arena → users = users')
    fun g g' h => h.users arena).bind ?_
  intro users users' husers
  refine (Prog.related_store fun g g' h => ?_).bind fun _ _ _ => rfl
  exact h.modify fun hp => by rw [husers hp]

theorem steady_switchAccesses : Steady switchAccesses := by
  intro p
  refine (Prog.related_load (v := (· = ·)) fun g g' h => h.next).bind ?_
  rintro next _ rfl
  refine (Prog.related_load (v := (· = ·)) fun g g' h => h.current).bind ?_
  rintro current _ rfl
  refine (Prog.related_store fun g g' h => ⟨h.current, rfl, h.users⟩).bind fun _ _ _ => ?_
  refine (Prog.related_store fun g g' h => ⟨rfl, h.next, h.users⟩).bind fun _ _ _ => ?_
  refine (Prog.related_load (v := (· = ·)) fun g g' h => h.next).bind ?_
  rintro arena _ rfl
  refine (Prog.related_load (v := fun _ _ => True) fun g g' h => trivial).bind ?_
  intro offset offset' _
  refine (Prog.related_store fun g g' h => ?_).bind fun _ _ _ => ?_
  · exact h.modify fun hp => h.users arena hp
  · refine (Prog.related_store fun g g' h => ?_).bind fun _ _ _ => rfl
    exact h.modify fun hp => h.users arena hp

theorem steady_locked {call : ArenaOp} {l : ArenaPhase} {body : Prog TickArenas ArenaPhase}
    (h : client.locked call l = some body) : Steady body := by
  cases call with
  | get =>
      cases l <;> cases h
      exact steady_getAccesses
  | switch =>
      cases l <;> cases h
      exact steady_switchAccesses

theorem Steady.next {write : TickArenas → TickArenas}
    {next : TickArenas → Prog TickArenas ArenaPhase} (h : Steady (.step write next))
    (g : TickArenas) : Steady (next g) :=
  fun p => (h p g g (.refl p g)).2

end TickArenas

/-- The arena that a thread has between `get_tick_arena` and the end of `return_tick_arena`. -/
def ArenaPhase.held : ArenaPhase → Option ArenaId
  | .holding arena => some arena
  | .returning arena _ => some arena
  | _ => none

namespace TickArenas

variable {ι : Type} [DecidableEq ι] [Fintype ι] {hthreads : Fintype.card ι < 2 ^ 64}
  {s s' : Threads (ticketLock ι hthreads) TickArenas ArenaPhase ArenaOp}
  {a b : Sections ι TickArenas ArenaPhase} {t : ι}

/-! ## Counting -/

/-- The arenas and who has them. -/
def counts (a : Sections ι TickArenas ArenaPhase) : TickState ι where
  arenas := a.data
  game := .waiting
  held t := (a.loc t).held

omit [Fintype ι] in
theorem counts_update (g : TickArenas) (t : ι) (l : ArenaPhase) :
    counts { data := g, loc := Function.update a.loc t l } =
      { counts a with arenas := g, held := Function.update (counts a).held t l.held } := by
  have hheld : (fun v => (Function.update a.loc t l v).held) =
      Function.update (fun v => (a.loc v).held) t l.held := by
    funext v
    by_cases hv : v = t
    · subst hv
      simp
    · simp [hv]
  rw [counts, hheld]
  rfl

theorem usersExact_same {g : TickArenas} {l : ArenaPhase} (h : (counts a).UsersExact)
    (hl : l.held = (a.loc t).held) (hg : ∀ b, g.users b = a.data.users b) :
    (counts { data := g, loc := Function.update a.loc t l }).UsersExact := by
  refine TickState.usersExact_congr h ?_ hg
  rw [counts_update, hl]
  exact Function.update_eq_self ..

theorem usersExact_locked (hcard : Fintype.card ι < 2 ^ 64) {call : ArenaOp}
    (h : (counts a).UsersExact) (hstep : a.step client (.locked t call) = some b) :
    (counts b).UsersExact := by
  rcases Option.map_eq_some_iff.mp hstep with ⟨body, hbody, rfl⟩
  cases call with
  | get =>
      cases hphase : a.loc t <;> rw [hphase] at hbody <;> cases hbody
      have hget : (counts a).step (.get t) = some (counts
          { data := a.data.getTickArena.2
            loc := Function.update a.loc t (.holding a.data.currentTickArena) }) := by
        rw [TickState.step_get_iff, counts_update]
        exact ⟨congrArg ArenaPhase.held hphase, rfl⟩
      rw [run_getAccesses]
      exact TickState.usersExact_get hcard h hget
  | switch =>
      cases hphase : a.loc t <;> rw [hphase] at hbody <;> cases hbody
      rw [run_switchAccesses]
      exact usersExact_same h (by rw [hphase]; rfl) fun b => users_switchLocked ..

/-- A decrement keeps the counts exact if and only if it goes to the arena that the thread has, and
the count of that arena is one less afterwards. -/
theorem usersExact_fetchSub_iff (hcard : Fintype.card ι < 2 ^ 64) {arena target : ArenaId}
    {g : TickArenas} (h : (counts a).UsersExact) (hphase : (a.loc t).held = some arena)
    (hothers : ∀ b, b ≠ target → g.users b = a.data.users b) :
    (counts { data := g, loc := Function.update a.loc t .idle }).UsersExact ↔
      target = arena ∧ g.users target = sizeAdd (a.data.users target) (2 ^ 64 - 1) := by
  have hreleased : (counts { data := g, loc := Function.update a.loc t .idle }).held =
      Function.update (counts a).held t none := by
    rw [counts_update]
    rfl
  have hrel := TickState.holders_release (s := counts a) hphase hreleased
  have hlt : ∀ b, a.data.users b < 2 ^ 64 := by
    intro b
    rw [show a.data.users b = _ from h b]
    exact (TickState.holders_le_card _ b).trans_lt hcard
  have hpred : sizeAdd (a.data.users arena) (2 ^ 64 - 1) = a.data.users arena - 1 := by
    refine TickState.sizeAdd_pred ?_ (hlt arena)
    rw [show a.data.users arena = _ from h arena, hrel arena, if_pos rfl]
    exact Nat.succ_pos _
  constructor
  · intro hexact
    have hafter := hexact arena
    have hbefore := h arena
    have hholders := hrel arena
    rw [if_pos rfl] at hholders
    change g.users arena = _ at hafter
    change a.data.users arena = _ at hbefore
    have htarget : target = arena := by
      by_contra hne
      have hsame := hothers arena (Ne.symm hne)
      omega
    subst htarget
    exact ⟨rfl, by omega⟩
  · rintro ⟨rfl, husers⟩ b
    have hbefore := h b
    have hholders := hrel b
    change a.data.users b = _ at hbefore
    change g.users b = _
    by_cases hb : b = target
    · subst hb
      rw [if_pos rfl] at hholders
      omega
    · rw [if_neg hb] at hholders
      rw [hothers b hb]
      omega

/-! ## Steps -/

/-- The counts are those of the threads that have an arena, once the open section is done. -/
def Exact (s : Threads (ticketLock ι hthreads) TickArenas ArenaPhase ArenaOp) : Prop :=
  ∀ a, s.Settles a → (counts a).UsersExact

/-- The end of a section that is open does not overwrite a decrement. -/
def Survives (g : TickArenas) (target : ArenaId) : Mode TickArenas ArenaPhase ArenaOp → Prop
  | .inside rest =>
      (rest.run (g.fetchSub target)).2.users target =
        sizeAdd ((rest.run g).2.users target) (2 ^ 64 - 1)
  | _ => True

instance (g : TickArenas) (target : ArenaId) (mode : Mode TickArenas ArenaPhase ArenaOp) :
    Decidable (Survives g target mode) :=
  match mode with
  | .inside _ => inferInstanceAs (Decidable (_ = _))
  | .idle _ => inferInstanceAs (Decidable True)
  | .waiting _ _ => inferInstanceAs (Decidable True)

/-- A thread about to decrement does it to the arena that it returns, and the open section does not
overwrite it. -/
def ReturnsWell (s : Threads (ticketLock ι hthreads) TickArenas ArenaPhase ArenaOp) :
    Mode TickArenas ArenaPhase ArenaOp → Prop
  | .idle (.returning arena target) =>
      target = arena ∧ ∀ v, Survives s.data target (s.mode v)
  | _ => True

instance (s : Threads (ticketLock ι hthreads) TickArenas ArenaPhase ArenaOp)
    (mode : Mode TickArenas ArenaPhase ArenaOp) : Decidable (ReturnsWell s mode) :=
  match mode with
  | .idle (.returning arena target) =>
      inferInstanceAs (Decidable (target = arena ∧ ∀ v, Survives s.data target (s.mode v)))
  | .idle .idle | .idle (.holding _) | .idle (.ticking _) | .idle .waiting | .waiting _ _
  | .inside _ => inferInstanceAs (Decidable True)

/-- If the step is a decrement, it is counted. -/
def Counted (x : Transition (Threads (ticketLock ι hthreads) TickArenas ArenaPhase ArenaOp)
    (Threads.Event (ticketLock ι hthreads) ArenaOp ArenaAct)) : Prop :=
  match x.event with
  | .unlocked t .fetchSub => ReturnsWell x.pre (x.pre.mode t)
  | _ => True

instance (x : Transition (Threads (ticketLock ι hthreads) TickArenas ArenaPhase ArenaOp)
    (Threads.Event (ticketLock ι hthreads) ArenaOp ArenaAct)) : Decidable (Counted x) :=
  match x with
  | ⟨s, .unlocked t .fetchSub, _⟩ => inferInstanceAs (Decidable (ReturnsWell s (s.mode t)))
  | ⟨_, .unlocked _ .loadCurrent, _⟩ | ⟨_, .unlocked _ (.alloc _), _⟩ | ⟨_, .unlocked _ .wait, _⟩
  | ⟨_, .unlocked _ (.tickAlloc _), _⟩ | ⟨_, .call _ _, _⟩ | ⟨_, .lock _, _⟩ | ⟨_, .access _, _⟩ =>
      inferInstanceAs (Decidable True)

/-- What the steps keep that count every decrement. -/
structure Tracked (s : Threads (ticketLock ι hthreads) TickArenas ArenaPhase ArenaOp) : Prop where
  coupled : s.Coupled
  steady : s.Rests Steady
  settles : ∃ a, s.Settles a ∧ (counts a).UsersExact

/-- A step outside the lock that is not a decrement. -/
theorem Tracked.beside {l l' : ArenaPhase} {g : TickArenas} (h : Tracked s)
    (hmode : s.mode t = .idle l) (hl : l'.held = l.held) (hg : Agree (fun _ => True) s.data g) :
    ∃ b, Threads.Settles { s.setMode t (.idle l') with data := g } b ∧ (counts b).UsersExact := by
  rcases h.settles with ⟨a, ha, hexact⟩
  have hloc : a.loc t = l := by rw [ha.loc t, hmode, Threads.settle]
  rcases ha.beside h.coupled l' hmode (fun v rest hv => h.steady v rest hv _) hg with
    ⟨g', hsettles, hagree, -⟩
  exact ⟨_, hsettles, usersExact_same hexact (by rw [hl, hloc])
    fun b => (hagree.users b trivial).symm⟩

theorem users_fetchSub (g : TickArenas) (target : ArenaId) :
    (g.fetchSub target).users target = sizeAdd (g.users target) (2 ^ 64 - 1) := by
  rw [fetchSub, users_modify_self]
  rfl

theorem agree_fetchSub (g : TickArenas) (target : ArenaId) :
    Agree (· ≠ target) g (g.fetchSub target) where
  current := rfl
  next := rfl
  users := fun b hb => (users_modify_of_ne g target b _ hb).symm

theorem agree_afterAlloc (g : TickArenas) (a : ArenaId) (size : ℕ) :
    Agree (fun _ => True) g (g.modify a fun arena => arena.afterAlloc size) where
  current := rfl
  next := rfl
  users := fun b _ => (users_modify_afterAlloc g a b size).symm

/-- A decrement leaves the counts exact if and only if it is counted. -/
theorem Tracked.fetchSub (hcard : Fintype.card ι < 2 ^ 64) {arena target : ArenaId}
    (h : Tracked s) (hmode : s.mode t = .idle (.returning arena target)) :
    ∃ b, Threads.Settles { s.setMode t (.idle .idle) with data := s.data.fetchSub target } b ∧
      ((counts b).UsersExact ↔ target = arena ∧ ∀ v, Survives s.data target (s.mode v)) := by
  rcases h.settles with ⟨a, ha, hexact⟩
  have hloc : (a.loc t).held = some arena := by
    rw [ha.loc t, hmode]
    rfl
  rcases ha.beside h.coupled .idle hmode (fun v rest hv => h.steady v rest hv _)
    (agree_fetchSub s.data target) with ⟨g', hsettles, hagree, hinside, hfree⟩
  refine ⟨_, hsettles, ?_⟩
  rw [usersExact_fetchSub_iff hcard hexact hloc fun b hb => (hagree.users b hb).symm]
  refine and_congr_right fun _ => ?_
  by_cases hin : ∃ v rest, s.mode v = .inside rest
  · rcases hin with ⟨v, rest, hv⟩
    rw [hinside v rest hv, ha.inside v rest hv]
    refine ⟨fun husers u => ?_, fun hall => ?_⟩
    rotate_left
    · have hlast := hall v
      rwa [hv] at hlast
    cases hu : s.mode u with
    | inside rest' =>
        cases h.coupled.unique hu hv
        cases hu.symm.trans hv
        exact husers
    | _ => trivial
  · have hout : ∀ v rest, s.mode v ≠ .inside rest := fun v rest hv => hin ⟨v, rest, hv⟩
    rw [hfree hout, ha.free hout]
    refine ⟨fun _ v => ?_, fun _ => users_fetchSub s.data target⟩
    cases hv : s.mode v with
    | inside rest => exact absurd hv (hout v rest)
    | _ => trivial

theorem Tracked.other {e : Threads.Event (ticketLock ι hthreads) ArenaOp ArenaAct}
    (hcard : Fintype.card ι < 2 ^ 64) (h : Tracked s) (hstep : s.step client e = some s')
    (he : ∀ t, e ≠ .unlocked t .fetchSub) : ∃ b, s'.Settles b ∧ (counts b).UsersExact := by
  rcases h.settles with ⟨a, ha, hexact⟩
  cases e with
  | call t call => exact ⟨a, ha.call hstep, hexact⟩
  | access t => exact ⟨a, ha.access h.coupled hstep, hexact⟩
  | lock e =>
      have hnext := ha.step h.coupled hstep fun _ _ _ hevent => by cases hevent
      cases heffect : Threads.effect ⟨s, .lock e, s'⟩ with
      | none =>
          rw [heffect] at hnext
          exact ⟨a, hnext, hexact⟩
      | some e' =>
          rw [heffect] at hnext
          rcases hnext with ⟨b, hb, hsettles⟩
          rcases Threads.locked_of_effect heffect with ⟨t, call, rfl⟩
          exact ⟨b, hsettles, usersExact_locked hcard hexact hb⟩
  | unlocked t act =>
      rcases Threads.step_unlocked hstep with ⟨l, l', g, hmode, hact, rfl⟩
      cases act with
      | fetchSub => exact absurd rfl (he t)
      | loadCurrent =>
          cases l <;> cases hact
          exact h.beside hmode rfl (.refl _ _)
      | alloc size =>
          cases l <;> cases hact
          exact h.beside hmode rfl (agree_afterAlloc _ _ _)
      | wait =>
          cases l <;> simp only [client, unlocked, reduceCtorEq] at hact
          rcases Option.ite_none_right_eq_some.mp hact with ⟨-, hact⟩
          cases hact
          exact h.beside hmode rfl (.refl _ _)
      | tickAlloc size =>
          rcases l with _ | _ | _ | (_ | arena) | _ <;> cases hact
          exact h.beside hmode rfl (agree_afterAlloc _ _ _)

theorem Tracked.step_iff (h : Tracked s)
    {e : Threads.Event (ticketLock ι hthreads) ArenaOp ArenaAct}
    (hstep : s.step client e = some s') :
    ∃ b, s'.Settles b ∧ ((counts b).UsersExact ↔ Counted ⟨s, e, s'⟩) := by
  by_cases he : ∃ t, e = .unlocked t .fetchSub
  · rcases he with ⟨t, rfl⟩
    rcases Threads.step_unlocked hstep with ⟨l, l', g, hmode, hact, rfl⟩
    cases l <;> cases hact
    rename_i arena target
    rcases h.fetchSub hthreads hmode with ⟨b, hb, hiff⟩
    refine ⟨b, hb, hiff.trans ?_⟩
    change _ ↔ ReturnsWell s (s.mode t)
    rw [hmode]
    rfl
  · have hother : ∀ t, e ≠ .unlocked t .fetchSub := fun t ht => he ⟨t, ht⟩
    rcases h.other hthreads hstep hother with ⟨b, hb, hexact⟩
    refine ⟨b, hb, fun _ => ?_, fun _ => hexact⟩
    rw [Counted]
    split
    · rename_i v hv
      exact absurd hv (hother v)
    · trivial

theorem Tracked.exact_iff (h : Tracked s)
    {e : Threads.Event (ticketLock ι hthreads) ArenaOp ArenaAct}
    (hstep : s.step client e = some s') : Exact s' ↔ Counted ⟨s, e, s'⟩ := by
  rcases h.step_iff hstep with ⟨b, hb, hiff⟩
  rw [← hiff]
  exact ⟨fun hexact => hexact b hb, fun hexact a ha => ha.unique hb ▸ hexact⟩

theorem Tracked.step (h : Tracked s) {e : Threads.Event (ticketLock ι hthreads) ArenaOp ArenaAct}
    (hstep : s.step client e = some s') (hexact : Exact s') : Tracked s' where
  coupled := h.coupled.step hstep
  steady := h.steady.step (fun _ _ _ => steady_locked) (fun _ _ g hnext => hnext.next g) hstep
  settles := by
    rcases h.step_iff hstep with ⟨b, hb, -⟩
    exact ⟨b, hb, hexact b hb⟩

/-! ## Runs -/

def start (hthreads : Fintype.card ι < 2 ^ 64) (game : ι) (start₁ start₂ : ℕ) (ticket : BitVec 64) :
    Threads (ticketLock ι hthreads) TickArenas ArenaPhase ArenaOp :=
  .initial (LockState.initial ι ticket) (initTickArenas start₁ start₂) fun t =>
    if t = game then .ticking none else .idle

theorem tracked_start (game : ι) (start₁ start₂ : ℕ) (ticket : BitVec 64) :
    Tracked (start hthreads game start₁ start₂ ticket) where
  coupled := by
    have hsound : (ticketLock ι hthreads).Sound (LockState.initial ι ticket) :=
      ⟨_, LockState.initial_queued ticket⟩
    exact Threads.coupled_initial hsound (fun _ => rfl) _ _
  steady := fun _ _ hv => by cases hv
  settles := by
    refine ⟨_, Threads.settles_initial _ _ _, fun arena => ?_⟩
    have hnone : ∀ t, (counts (ι := ι) { data := initTickArenas start₁ start₂
                                         loc := fun t => if t = game then .ticking none
                                           else .idle }).held t = none := by
      intro t
      simp only [counts]
      split <;> rfl
    rw [TickState.holders_eq_zero_iff.mpr fun t ht => by rw [hnone t] at ht; cases ht]
    cases arena <;> rfl

/-- The counts are exact in every state of a run if and only if each decrement in the run is
counted. -/
theorem users_exact_iff_counted {game : ι} {start₁ start₂ : ℕ} {ticket : BitVec 64}
    {trace : List (Transition (Threads (ticketLock ι hthreads) TickArenas ArenaPhase ArenaOp)
      (Threads.Event (ticketLock ι hthreads) ArenaOp ArenaAct))}
    (h : Run (Threads.step client) (start hthreads game start₁ start₂ ticket) trace s) :
    (∀ x ∈ trace, Exact x.post) ↔ ∀ x ∈ trace, Counted x :=
  h.forall_congr Tracked (tracked_start game start₁ start₂ ticket)
    (fun _ _ _ hinv hstep hexact => hinv.step hstep hexact)
    fun _ _ _ hinv hstep => hinv.exact_iff hstep

theorem card_three : Fintype.card (Fin 3) < 2 ^ 64 := by simp

def gameLoop : Fin 3 := 0

def first : Fin 3 := 1

def second : Fin 3 := 2

def threeThreads
    (events : List (Threads.Event (ticketLock (Fin 3) card_three) ArenaOp ArenaAct)) :
    List (Transition (Threads (ticketLock (Fin 3) card_three) TickArenas ArenaPhase ArenaOp)
      (Threads.Event (ticketLock (Fin 3) card_three) ArenaOp ArenaAct)) :=
  replay (Threads.step client) (start card_three gameLoop 0x100000000 0x200000000 0) events

/-- The first packet thread returns its arena after the second one has taken the lock. -/
def countedRun : List (Threads.Event (ticketLock (Fin 3) card_three) ArenaOp ArenaAct) :=
  [.call first .get, .lock (.fetchAdd first), .lock (.load first), .access first, .access first,
    .access first, .lock (.leaveLoad first), .lock (.leaveStore first), .call second .get,
    .lock (.fetchAdd second), .lock (.load second), .unlocked first .loadCurrent, .access second,
    .unlocked first .fetchSub, .access second, .access second]

theorem users_exact_counted_run :
    (threeThreads countedRun).length = countedRun.length ∧
      ∀ x ∈ threeThreads countedRun, Exact x.post := by
  rcases run_replay (Threads.step client) (start card_three gameLoop 0x100000000 0x200000000 0)
    countedRun with ⟨u, hrun⟩
  exact ⟨by decide +kernel, (users_exact_iff_counted hrun).mpr (by decide +kernel)⟩

-- without a switch: the decrement of the first thread falls between the load and the store of the
-- second, and two users are counted although only the second thread has the arena
example : ∃ x ∈ (threeThreads
    [.call first .get, .lock (.fetchAdd first), .lock (.load first), .access first, .access first,
      .access first, .lock (.leaveLoad first), .lock (.leaveStore first), .call second .get,
      .lock (.fetchAdd second), .lock (.load second), .access second, .access second,
      .unlocked first .loadCurrent, .unlocked first .fetchSub, .access second,
      .lock (.leaveLoad second), .lock (.leaveStore second)]).getLast?,
    x.post.data.users .arena1 = 2 := by
  decide +kernel

end TickArenas

end CmcServer
