import CmcServer.Lib.Runs
import Mathlib.Logic.Function.Basic

/-! # Spin locks

The atomic steps of `spin_lock_enter` and `spin_lock_leave`, taken by threads in any order. -/

namespace CmcServer

/-- Where a thread is: outside the two functions or before the next `spin_lock_try_lock_weak`, in
the inner loop of `spin_lock_enter`, or past `spin_lock_enter`. -/
inductive SpinPhase where
  | trying
  | spinning
  | inside
  deriving DecidableEq, Repr

/-- A `spin_lock_t`, whose `locked` is only ever 0 or 1, and the threads that use it. -/
structure SpinState (ι : Type) where
  locked : Bool
  phase : ι → SpinPhase

/-- The atomic operations, with the thread that does them. A weak exchange may fail for no
reason. -/
inductive SpinEvent (ι : Type) where
  | compareExchangeWeak (thread : ι) (fails : Bool)
  | load (thread : ι)
  | store (thread : ι)
  deriving DecidableEq

def SpinEvent.thread {ι : Type} : SpinEvent ι → ι
  | .compareExchangeWeak t _ => t
  | .load t => t
  | .store t => t

namespace SpinState

variable {ι : Type} [DecidableEq ι]

/-- Nobody uses the lock. -/
def initial (ι : Type) : SpinState ι where
  locked := false
  phase := fun _ => .trying

def setPhase (s : SpinState ι) (t : ι) (phase : SpinPhase) : SpinState ι :=
  { s with phase := Function.update s.phase t phase }

def step (s : SpinState ι) : SpinEvent ι → Option (SpinState ι)
  | .compareExchangeWeak t fails =>
      match s.phase t with
      | .trying =>
          if s.locked = false ∧ fails = false then
            some { s.setPhase t .inside with locked := true }
          else some (s.setPhase t .spinning)
      | _ => none
  | .load t =>
      match s.phase t with
      | .spinning => if s.locked then some s else some (s.setPhase t .trying)
      | _ => none
  | .store t =>
      match s.phase t with
      | .inside => some { s.setPhase t .trying with locked := false }
      | _ => none

end SpinState

end CmcServer
