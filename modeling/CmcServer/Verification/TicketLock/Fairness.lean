import CmcServer.Model.TicketLock
import CmcServer.Lib.FairLock
import Mathlib.Data.Fintype.Card

/-! # The ticket lock is fair

The threads with a ticket stand in the queue of a lock that is given in the order of arrival, and
their tickets count up from `now_serving`. Fewer than `2 ^ 64` threads have different tickets, also
when the counters wrap. -/

open Runs

namespace CmcServer

namespace LockState

variable {ι : Type*}

def fetchAdds (trace : List (Transition (LockState ι) (LockEvent ι))) : List ι :=
  trace.filterMap fun x =>
    match x.event with
    | .fetchAdd t => some t
    | _ => none

def acquisitions (trace : List (Transition (LockState ι) (LockEvent ι))) : List ι :=
  trace.filterMap fun x =>
    match x.event with
    | .load t => if x.post.phase t = .inside then some t else none
    | _ => none

/-! ## The queue behind the tickets -/

/-- What a step of a thread is to the queue. A load that reads another ticket is nothing. -/
def request (x : Transition (LockState ι) (LockEvent ι)) : Option (FairLock.Event ι) :=
  match x.event with
  | .fetchAdd t => some (.ask t)
  | .load t => if x.post.phase t = .inside then some (.take t) else none
  | .leaveLoad _ => none
  | .leaveStore t => some (.give t)

theorem asked_requests (trace : List (Transition (LockState ι) (LockEvent ι))) :
    FairLock.asked (trace.filterMap request) = fetchAdds trace := by
  rw [FairLock.asked, fetchAdds, List.filterMap_filterMap]
  congr 1
  funext x
  rcases x with ⟨_, e, _⟩
  cases e <;> simp [request]

theorem taken_requests (trace : List (Transition (LockState ι) (LockEvent ι))) :
    FairLock.taken (trace.filterMap request) = acquisitions trace := by
  rw [FairLock.taken, acquisitions, List.filterMap_filterMap]
  congr 1
  funext x
  rcases x with ⟨_, e, _⟩
  cases e <;> simp [request]
  split <;> rfl

/-- The phase of the thread at place `k` of the queue. -/
def PhaseAt (a : FairLock ι) (nowServing : BitVec 64) (k : ℕ) (phase : LockPhase) : Prop :=
  if k = 0 ∧ a.held = true then phase = .inside ∨ phase = .leaving (nowServing + 1)
  else phase = .entering (nowServing + BitVec.ofNat 64 k)

/-- The threads with a ticket are those in the queue, and their tickets count up. -/
structure Queued (s : LockState ι) (a : FairLock ι) : Prop where
  nodup : a.queue.Nodup
  queue_ne : a.held = true → a.queue ≠ []
  outside : ∀ t, s.phase t = .outside ↔ t ∉ a.queue
  phase : ∀ k t, a.queue[k]? = some t → PhaseAt a s.lock.nowServing k (s.phase t)
  next : s.lock.nextTicket = s.lock.nowServing + BitVec.ofNat 64 a.queue.length

theorem initial_queued (ticket : BitVec 64) : (initial ι ticket).Queued (FairLock.free ι) where
  nodup := List.nodup_nil
  queue_ne := by simp [FairLock.free]
  outside := by simp [initial, FairLock.free]
  phase := by simp [FairLock.free]
  next := by simp [initial, FairLock.free]

variable {s : LockState ι} {a : FairLock ι} {t : ι}

theorem Queued.place (h : s.Queued a) (ht : s.phase t ≠ .outside) :
    ∃ k, a.queue[k]? = some t ∧ PhaseAt a s.lock.nowServing k (s.phase t) := by
  have hmem : t ∈ a.queue := not_not.mp (mt (h.outside t).mpr ht)
  obtain ⟨k, hk⟩ := List.mem_iff_getElem?.mp hmem
  exact ⟨k, hk, h.phase k t hk⟩

/-- Only the first thread of the queue can have the lock. -/
theorem Queued.head_of_hasLock (h : s.Queued a) (ht : (s.phase t).HasLock) :
    a.queue.head? = some t ∧ a.held = true ∧
      (s.phase t = .inside ∨ s.phase t = .leaving (s.lock.nowServing + 1)) := by
  have hne : s.phase t ≠ .outside := by
    intro hout
    rw [hout] at ht
    exact ht
  obtain ⟨k, hk, hphase⟩ := h.place hne
  rw [PhaseAt] at hphase
  split at hphase
  · obtain ⟨rfl, hheld⟩ := ‹_ ∧ _›
    exact ⟨by rw [List.head?_eq_getElem?, hk], hheld, hphase⟩
  · rw [hphase] at ht
    exact ht.elim

/-- The thread whose ticket is served is the first of the queue, and nobody has the lock. -/
theorem Queued.head_of_served [Fintype ι] (hthreads : Fintype.card ι < 2 ^ 64) (h : s.Queued a)
    (ht : s.phase t = .entering s.lock.nowServing) :
    a.queue.head? = some t ∧ a.held = false := by
  obtain ⟨k, hk, hphase⟩ := h.place (t := t) (by simp [ht])
  have hlt : k < 2 ^ 64 := by
    have hplace : k < a.queue.length := (List.getElem?_eq_some_iff.mp hk).1
    have hcard : a.queue.length ≤ Fintype.card ι := h.nodup.length_le_card
    omega
  rw [ht, PhaseAt] at hphase
  split at hphase
  · simp at hphase
  · rename_i hfirst
    have hzero : BitVec.ofNat 64 k = 0 := by
      exact left_eq_add.mp (LockPhase.entering.inj hphase)
    have hk0 : k = 0 := by
      have hmod := congrArg BitVec.toNat hzero
      rw [BitVec.toNat_ofNat, Nat.mod_eq_of_lt hlt] at hmod
      exact hmod
    subst hk0
    exact ⟨by rw [List.head?_eq_getElem?, hk], by simpa using hfirst⟩

/-! ## The steps -/

variable [DecidableEq ι] {u : LockState ι}

theorem Queued.fetchAdd (h : s.Queued a) (hstep : s.step (.fetchAdd t) = some u) :
    ∃ b, a.step (.ask t) = some b ∧ u.Queued b := by
  simp only [step] at hstep
  split at hstep <;> simp only [reduceCtorEq, Option.some.injEq] at hstep
  rename_i hout
  subst hstep
  have hfresh : t ∉ a.queue := (h.outside t).mp hout
  refine ⟨{ a with queue := a.queue ++ [t] }, by simp [FairLock.step, hfresh], ?_⟩
  refine ⟨?_, by simp, ?_, ?_, ?_⟩
  · simpa only [List.concat_eq_append] using h.nodup.concat hfresh
  · intro v
    by_cases hv : v = t
    · subst hv
      simp [setPhase]
    · simp [setPhase, hv, h.outside v]
  · intro k v hk
    rw [List.getElem?_append] at hk
    split at hk
    · have hv : v ≠ t := by
        rintro rfl
        exact hfresh (List.mem_of_getElem? hk)
      simpa [setPhase, hv, PhaseAt] using h.phase k v hk
    · simp only [List.getElem?_singleton, Option.ite_none_right_eq_some] at hk
      obtain ⟨hlast, hv⟩ := hk
      cases hv
      have hk' : k = a.queue.length := by omega
      subst hk'
      have hfree : ¬ (a.queue.length = 0 ∧ a.held = true) :=
        fun hempty => h.queue_ne hempty.2 (List.length_eq_zero_iff.mp hempty.1)
      rw [PhaseAt, if_neg hfree]
      simp [setPhase, h.next]
  · simp [h.next, BitVec.ofNat_add, add_assoc]

/-- A thread of the queue that goes on to another phase is still in the queue. -/
theorem Queued.outside_setPhase (h : s.Queued a) (ht : t ∈ a.queue) {phase : LockPhase}
    (hphase : phase ≠ .outside) (v : ι) :
    (s.setPhase t phase).phase v = .outside ↔ v ∉ a.queue := by
  by_cases hv : v = t
  · subst hv
    simp [setPhase, ht, hphase]
  · simp [setPhase, hv, h.outside v]

/-- A load that reads the ticket of its thread gives the lock to the first of the queue. -/
theorem Queued.load [Fintype ι] (hthreads : Fintype.card ι < 2 ^ 64) (h : s.Queued a)
    (hstep : s.step (.load t) = some u) :
    if u.phase t = .inside then ∃ b, a.step (.take t) = some b ∧ u.Queued b else u.Queued a := by
  simp only [step] at hstep
  split at hstep
  swap
  · cases hstep
  rename_i ticket hphase
  split at hstep <;> simp only [Option.some.injEq] at hstep <;> subst hstep
  · simpa [hphase] using h
  · rename_i hserved
    rw [not_not] at hserved
    subst hserved
    obtain ⟨hhead, hfree⟩ := h.head_of_served hthreads hphase
    rw [if_pos (by simp [setPhase])]
    refine ⟨{ a with held := true }, by simp [FairLock.step, hhead, hfree], ?_⟩
    obtain ⟨rest, hqueue⟩ := List.head?_eq_some_iff.mp hhead
    have hmem : t ∈ a.queue := hqueue ▸ List.mem_cons_self
    refine ⟨h.nodup, by simp [hqueue], h.outside_setPhase hmem (by simp), ?_, h.next⟩
    · intro k v hk
      cases k with
      | zero =>
          have hv : v = t := by simpa [hqueue, eq_comm] using hk
          simp [setPhase, hv, PhaseAt]
      | succ k =>
          have hv : v ≠ t := by
            rintro rfl
            have hnodup := h.nodup
            simp only [hqueue, List.getElem?_cons_succ] at hk hnodup
            exact (List.nodup_cons.mp hnodup).1 (List.mem_of_getElem? hk)
          simpa [setPhase, hv, PhaseAt] using h.phase (k + 1) v hk

/-- Between its load and its store the thread keeps the lock. -/
theorem Queued.leaveLoad (h : s.Queued a) (hstep : s.step (.leaveLoad t) = some u) :
    u.Queued a := by
  simp only [step] at hstep
  split at hstep <;> simp only [reduceCtorEq, Option.some.injEq] at hstep
  rename_i hphase
  subst hstep
  obtain ⟨hhead, hheld, -⟩ := h.head_of_hasLock (t := t) (by rw [hphase]; trivial)
  obtain ⟨rest, hqueue⟩ := List.head?_eq_some_iff.mp hhead
  have hmem : t ∈ a.queue := hqueue ▸ List.mem_cons_self
  refine ⟨h.nodup, h.queue_ne, h.outside_setPhase hmem (by simp), ?_, h.next⟩
  · intro k v hk
    by_cases hv : v = t
    · subst hv
      have hk0 : k = 0 := by
        have hplace : k < a.queue.length := (List.getElem?_eq_some_iff.mp hk).1
        refine (List.getElem?_inj hplace h.nodup).mp ?_
        rw [hk, ← List.head?_eq_getElem?, hhead]
      subst hk0
      simp [setPhase, PhaseAt, hheld]
    · simpa [setPhase, hv] using h.phase k v hk

/-- The store serves the ticket of the next thread in the queue. -/
theorem Queued.leaveStore (h : s.Queued a) (hstep : s.step (.leaveStore t) = some u) :
    ∃ b, a.step (.give t) = some b ∧ u.Queued b := by
  simp only [step] at hstep
  split at hstep <;> simp only [reduceCtorEq, Option.some.injEq] at hstep
  rename_i new hphase
  subst hstep
  obtain ⟨hhead, hheld, hnew⟩ := h.head_of_hasLock (t := t) (by rw [hphase]; trivial)
  rw [hphase] at hnew
  obtain rfl : new = s.lock.nowServing + 1 := by simpa using hnew
  obtain ⟨rest, hqueue⟩ := List.head?_eq_some_iff.mp hhead
  have hnodup := h.nodup
  rw [hqueue, List.nodup_cons] at hnodup
  refine ⟨{ queue := rest, held := false }, by simp [FairLock.step, hheld, hqueue], ?_⟩
  refine ⟨hnodup.2, by simp, ?_, ?_, ?_⟩
  · intro v
    by_cases hv : v = t
    · subst hv
      simpa [setPhase] using hnodup.1
    · simp [setPhase, hv, h.outside v, hqueue]
  · intro k v hk
    have hv : v ≠ t := by
      rintro rfl
      exact hnodup.1 (List.mem_of_getElem? hk)
    have hbefore := h.phase (k + 1) v (by simpa [hqueue] using hk)
    simpa [setPhase, hv, PhaseAt, BitVec.ofNat_add, add_assoc, add_comm, add_left_comm]
      using hbefore
  · simp [h.next, hqueue, BitVec.ofNat_add, add_comm, add_left_comm]

/-- Every run of the threads is a run of the queue. -/
theorem run_queued [Fintype ι] (hthreads : Fintype.card ι < 2 ^ 64) {ticket : BitVec 64}
    {trace : List (Transition (LockState ι) (LockEvent ι))}
    (h : Run step (initial ι ticket) trace s) :
    ∃ trace' a, Run FairLock.step (FairLock.free ι) trace' a ∧ s.Queued a ∧
      trace'.map Transition.event = trace.filterMap request := by
  refine h.refines Queued request (initial_queued ticket) ?_
  intro s e u a hqueued hstep
  cases e with
  | fetchAdd t => exact hqueued.fetchAdd hstep
  | load t =>
      have hload := hqueued.load hthreads hstep
      by_cases hinside : u.phase t = .inside
      · simpa [request, hinside] using hload
      · simpa [request, hinside] using hload
  | leaveLoad t => exact hqueued.leaveLoad hstep
  | leaveStore t => exact hqueued.leaveStore hstep

/-- At most one thread has the lock, and the threads get it in the order of their tickets. -/
theorem ticket_lock_fair [Fintype ι] (hthreads : Fintype.card ι < 2 ^ 64) {ticket : BitVec 64}
    {trace : List (Transition (LockState ι) (LockEvent ι))}
    (h : Run step (initial ι ticket) trace s) :
    (∀ t v, (s.phase t).HasLock → (s.phase v).HasLock → t = v) ∧
      acquisitions trace <+: fetchAdds trace := by
  obtain ⟨trace', a, hrun, hqueued, hevents⟩ := run_queued hthreads h
  constructor
  · intro t v ht hv
    have hhead := (hqueued.head_of_hasLock ht).1
    rw [(hqueued.head_of_hasLock hv).1] at hhead
    exact (Option.some.inj hhead).symm
  · have hprefix := FairLock.taken_prefix hrun
    rwa [hevents, asked_requests, taken_requests] at hprefix

/-- The first thread has the last ticket before the counter wraps. -/
def wrappingRun : List (Transition (LockState (Fin 2)) (LockEvent (Fin 2))) :=
  replay step (initial (Fin 2) (-1))
    [.fetchAdd 1, .fetchAdd 0, .load 0, .load 1, .leaveLoad 1, .load 0, .leaveStore 1, .load 0]

theorem ticket_lock_fair_wraps :
    acquisitions wrappingRun = [1, 0] ∧ acquisitions wrappingRun <+: fetchAdds wrappingRun := by
  obtain ⟨u, hu⟩ := run_replay step (initial (Fin 2) (-1))
    [.fetchAdd 1, .fetchAdd 0, .load 0, .load 1, .leaveLoad 1, .load 0, .leaveStore 1, .load 0]
  exact ⟨by decide, (ticket_lock_fair (by simp) hu).2⟩

end LockState

end CmcServer
