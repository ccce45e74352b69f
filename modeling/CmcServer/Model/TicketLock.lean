import CmcServer.Lib.Runs
import Mathlib.Data.BitVec

/-! # Ticket locks

The atomic steps of `ticket_lock_enter` and `ticket_lock_leave`, taken by threads in any order. -/

namespace CmcServer

/-- `ticket_lock_t`. -/
structure TicketLock where
  nowServing : BitVec 64
  nextTicket : BitVec 64
  deriving DecidableEq, Repr

/-- Where a thread is: outside the two functions, in `ticket_lock_enter` with its ticket, between
the two functions, or in `ticket_lock_leave` between the load and the store. -/
inductive LockPhase where
  | outside
  | entering (ticket : BitVec 64)
  | inside
  | leaving (new : BitVec 64)
  deriving DecidableEq, Repr

/-- The thread is past `ticket_lock_enter` and has not finished `ticket_lock_leave`. -/
def LockPhase.HasLock : LockPhase → Prop
  | .inside | .leaving _ => True
  | .outside | .entering _ => False

/-- A lock and the threads that use it. -/
structure LockState (ι : Type*) where
  lock : TicketLock
  phase : ι → LockPhase

/-- The atomic operations, with the thread that does them. -/
inductive LockEvent (ι : Type*) where
  | fetchAdd (thread : ι)
  | load (thread : ι)
  | leaveLoad (thread : ι)
  | leaveStore (thread : ι)
  deriving DecidableEq

namespace LockState

variable {ι : Type*} [DecidableEq ι]

/-- Nobody uses the lock. The two counters are zero in `m_arena_lock`, they may have advanced. -/
def initial (ι : Type*) (ticket : BitVec 64) : LockState ι where
  lock := { nowServing := ticket, nextTicket := ticket }
  phase := fun _ => .outside

def setPhase (s : LockState ι) (t : ι) (phase : LockPhase) : LockState ι :=
  { s with phase := Function.update s.phase t phase }

def step (s : LockState ι) : LockEvent ι → Option (LockState ι)
  | .fetchAdd t =>
      match s.phase t with
      | .outside =>
          some { s.setPhase t (.entering s.lock.nextTicket) with
            lock := { s.lock with nextTicket := s.lock.nextTicket + 1 } }
      | _ => none
  | .load t =>
      match s.phase t with
      | .entering ticket =>
          if s.lock.nowServing ≠ ticket then some s else some (s.setPhase t .inside)
      | _ => none
  | .leaveLoad t =>
      match s.phase t with
      | .inside => some (s.setPhase t (.leaving (s.lock.nowServing + 1)))
      | _ => none
  | .leaveStore t =>
      match s.phase t with
      | .leaving new =>
          some { s.setPhase t .outside with lock := { s.lock with nowServing := new } }
      | _ => none

end LockState

end CmcServer
