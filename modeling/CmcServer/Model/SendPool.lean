import CmcServer.Model.BufferPool
import CmcServer.Model.StbArray

/-! # The pool of send buffers

`buffer_pool_get_protocol_send` and `buffer_pool_return_protocol_send` as any number of threads run
them: the array of free buffers is read and written under `m_protocol_send_lock`, and `mmap` is
called after the lock was left. -/

namespace CmcServer

open CriticalSection

/-- What a thread has: its buffers, and whether it found the pool empty and is about to map a new
one. -/
structure Hands where
  held : List BufId
  mapping : Bool
  deriving DecidableEq

/-- The mappings made, and the buffers that requests in flight carry, so that another thread may
return them. -/
structure Loans where
  mapped : ℕ
  away : List BufId

/-- `m_protocol_send_buffers` and what is not under its lock. -/
abbrev SendPool := StbArray BufId × Loans

/-- The two functions up to `spin_lock_leave`. -/
inductive PoolCall where
  | get
  | giveBack (b : BufId)
  deriving DecidableEq

/-- What threads do without the lock: map a buffer, which may fail, put a buffer in a request or
take it out of a completed one. -/
inductive PoolAct where
  | mmap (fails : Bool)
  | lend (b : BufId)
  | collect (b : BufId)
  deriving DecidableEq

namespace SendPool

def initial : SendPool := (StbArray.null BufId, { mapped := 0, away := [] })

/-- The locked part of `buffer_pool_get_protocol_send`. -/
def getLocked (l : Hands) : Prog (StbArray BufId) Hands := do
  let length ← Prog.load StbArray.arrlen
  if length = 0 then pure { l with mapping := true }
  else do
    let b ← StbArray.arrpop
    pure { l with held := b :: l.held }

/-- The locked part of `buffer_pool_return_protocol_send`, after which the buffer must not be used
any more. -/
def returnLocked (b : BufId) (l : Hands) : Prog (StbArray BufId) Hands := do
  StbArray.arrput b
  pure { l with held := l.held.erase b }

/-- A thread in the middle of `buffer_pool_get_protocol_send` calls nothing else, and only buffers
that a thread has are returned. -/
def locked : PoolCall → Hands → Option (Prog SendPool Hands)
  | .get, l => if l.mapping then none else some (getLocked l).left
  | .giveBack b, l => if l.mapping ∨ b ∉ l.held then none else some (returnLocked b l).left

def loanStep : PoolAct → Hands → Loans → Option (Hands × Loans)
  | .mmap fails, l, loans =>
      if !l.mapping then none
      else if fails then some ({ l with mapping := false }, loans)
      else
        some ({ held := loans.mapped :: l.held, mapping := false },
          { loans with mapped := loans.mapped + 1 })
  | .lend b, l, loans =>
      if l.mapping ∨ b ∉ l.held then none
      else some ({ l with held := l.held.erase b }, { loans with away := b :: loans.away })
  | .collect b, l, loans =>
      if l.mapping ∨ b ∉ loans.away then none
      else some ({ l with held := b :: l.held }, { loans with away := loans.away.erase b })

/-- The threads around the pool. -/
def client : Client SendPool Hands PoolCall PoolAct where
  locked := locked
  unlocked act l pool := (loanStep act l pool.2).map fun (l, loans) => (l, pool.1, loans)

end SendPool

end CmcServer
