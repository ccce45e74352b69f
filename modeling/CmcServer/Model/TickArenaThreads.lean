import CmcServer.Lib.CriticalSection
import CmcServer.Model.TickArena

/-! # Tick arenas under their locks

What threads do to an arena and to the pointers to the arenas between the calls of the lock
functions, one load or store at a time. -/

namespace CmcServer

open CriticalSection

namespace TickArena

/-- `tick_arena_alloc_unlocked`. -/
def allocAccesses (size : ℕ) : Prog TickArena (Option ℕ) := do
  let offset ← Prog.load TickArena.currentOffset
  let maxSize ← Prog.load TickArena.maxSize
  if sizeAdd offset size > maxSize then pure none
  else do
    let start ← Prog.load TickArena.start
    let offset ← Prog.load TickArena.currentOffset
    let ptr := sizeAdd start offset
    let offset ← Prog.load TickArena.currentOffset
    Prog.store fun arena => { arena with currentOffset := sizeAdd offset size }
    pure (some ptr)

/-- The address and the size of a block. -/
abbrev Block := ℕ × ℕ

/-- The locked part of `tick_arena_alloc`, with the blocks of its thread behind it. -/
def allocLocked (size : BitVec 64) (blocks : List Block) : Prog TickArena (List Block) := do
  let ptr ← allocAccesses size.toNat
  match ptr with
  | none => pure blocks
  | some p => pure ((p, size.toNat) :: blocks)

/-- Threads that call `tick_arena_alloc` of the same arena. -/
def allocClient : Client TickArena (List Block) (BitVec 64) Empty where
  locked size blocks := some (allocLocked size blocks)
  unlocked act := act.elim

end TickArena

/-- Where a thread is between its steps: a packet thread has no arena, uses one, or has loaded the
pointer to the arena whose users `return_tick_arena` will decrement. The game loop has the arena of
its tick, or waits in `switch_tick_arenas`. -/
inductive ArenaPhase where
  | idle
  | holding (arena : ArenaId)
  | returning (arena target : ArenaId)
  | ticking (arena : Option ArenaId)
  | waiting
  deriving DecidableEq, Repr

/-- The sections under `m_arena_lock`. -/
inductive ArenaOp where
  | get
  | switch
  deriving DecidableEq, Repr

/-- What threads do without `m_arena_lock`. An allocation, which has a lock of its own, is one
step. -/
inductive ArenaAct where
  | loadCurrent
  | fetchSub
  | alloc (size : ℕ)
  | wait
  | tickAlloc (size : ℕ)
  deriving DecidableEq, Repr

namespace TickArenas

/-- The section of `get_tick_arena`. `users++` is a load and a store. -/
def getAccesses : Prog TickArenas ArenaPhase := do
  let arena ← Prog.load TickArenas.currentTickArena
  let users ← Prog.load fun g => g.users arena
  Prog.store fun g => g.modify arena fun a => { a with users := sizeAdd users 1 }
  pure (.holding arena)

/-- The section of `switch_tick_arenas`, without the advice of `reset_arena`. -/
def switchAccesses : Prog TickArenas ArenaPhase := do
  let next ← Prog.load TickArenas.nextTickArena
  let current ← Prog.load TickArenas.currentTickArena
  Prog.store fun g => { g with nextTickArena := current }
  Prog.store fun g => { g with currentTickArena := next }
  let arena ← Prog.load TickArenas.nextTickArena
  let offset ← Prog.load fun g => (g.arena arena).currentOffset
  Prog.store fun g => g.modify arena fun a => { a with lastOffset := offset }
  Prog.store fun g => g.modify arena fun a => { a with currentOffset := 0 }
  pure .waiting

/-- `atomic_fetch_add_explicit` of -1 to the users of an arena. -/
def fetchSub (g : TickArenas) (target : ArenaId) : TickArenas :=
  g.modify target fun a => { a with users := sizeAdd a.users (toSize (-1)) }

def locked : ArenaOp → ArenaPhase → Option (Prog TickArenas ArenaPhase)
  | .get, .idle => some getAccesses
  | .switch, .ticking _ => some switchAccesses
  | _, _ => none

/-- `return_tick_arena` loads the pointer before it decrements. The loop at the end of
`switch_tick_arenas` may load both at once, as no other thread writes the pointer. -/
def unlocked : ArenaAct → ArenaPhase → TickArenas → Option (ArenaPhase × TickArenas)
  | .loadCurrent, .holding arena, g => some (.returning arena g.currentTickArena, g)
  | .fetchSub, .returning _ target, g => some (.idle, g.fetchSub target)
  | .alloc size, .holding arena, g =>
      some (.holding arena, g.modify arena fun a => a.afterAlloc size)
  | .wait, .waiting, g =>
      if g.users g.currentTickArena = 0 then some (.ticking (some g.currentTickArena), g) else none
  | .tickAlloc size, .ticking (some arena), g =>
      some (.ticking (some arena), g.modify arena fun a => a.afterAlloc size)
  | _, _, _ => none

/-- The threads around the arenas. -/
def client : Client TickArenas ArenaPhase ArenaOp ArenaAct where
  locked := locked
  unlocked := unlocked

end TickArenas

end CmcServer
