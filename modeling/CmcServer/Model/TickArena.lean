import CmcServer.Model.CInt
import CmcServer.Lib.Runs
import Mathlib.Data.Fintype.Card

/-! # Tick arenas

The double-buffered bump allocator shared by the packet threads and the game loop. The ticket
lock makes `get_tick_arena` and the swap-and-reset section of `switch_tick_arenas` atomic. -/

namespace CmcServer

def PAGE_SIZE : ℕ := 4096
def SIZE_2MB : ℕ := 0x00200000
def SIZE_1GB : ℕ := 0x40000000

/-- `ALIGN_UP`: the mask `~(align - 1)` of a power of two is `2 ^ 64 - align`. -/
def alignUp (x align : ℕ) : ℕ := sizeAdd x (align - 1) &&& (2 ^ 64 - align)

def alignDown (x align : ℕ) : ℕ := x - (x &&& (align - 1))

/-- `tick_arena_t`. The spin lock is left out, an allocation under it is one step. -/
structure TickArena where
  start : ℕ
  currentOffset : ℕ
  maxSize : ℕ
  lastOffset : ℕ
  users : ℕ
  deriving DecidableEq, Repr

namespace TickArena

/-- `init_arena`, with the address `mmap` returned. -/
def initArena (start : ℕ) : TickArena :=
  { start, currentOffset := 0, maxSize := SIZE_1GB, lastOffset := 0, users := 0 }

/-- The range `reset_arena` passes to `madvise`, if it calls it. -/
def resetAdvice (arena : TickArena) : Option (ℕ × ℕ) :=
  if arena.currentOffset < arena.lastOffset ∧
      arena.lastOffset - arena.currentOffset > SIZE_2MB then
    some (alignUp (sizeAdd arena.start arena.currentOffset) PAGE_SIZE,
      alignDown (arena.lastOffset - arena.currentOffset) PAGE_SIZE)
  else none

def resetArena (arena : TickArena) : TickArena :=
  { arena with lastOffset := arena.currentOffset, currentOffset := 0 }

/-- `tick_arena_alloc_unlocked`: the fit test wraps like the `size_t` addition it is. -/
def tickArenaAllocUnlocked (arena : TickArena) (size : ℕ) : Option (ℕ × TickArena) :=
  if sizeAdd arena.currentOffset size > arena.maxSize then none
  else
    some (sizeAdd arena.start arena.currentOffset,
      { arena with currentOffset := sizeAdd arena.currentOffset size })

/-- The arena after an allocation that may have failed. -/
def afterAlloc (arena : TickArena) (size : ℕ) : TickArena :=
  match arena.tickArenaAllocUnlocked size with
  | none => arena
  | some (_, arena) => arena

end TickArena

inductive ArenaId where
  | arena1
  | arena2
  deriving DecidableEq, Repr

instance : Fintype ArenaId :=
  ⟨{.arena1, .arena2}, fun a => by cases a <;> decide⟩

/-- The globals of `tick_arena.c`. -/
structure TickArenas where
  arena : ArenaId → TickArena
  currentTickArena : ArenaId
  nextTickArena : ArenaId

namespace TickArenas

def initTickArenas (start₁ start₂ : ℕ) : TickArenas where
  arena
    | .arena1 => TickArena.initArena start₁
    | .arena2 => TickArena.initArena start₂
  currentTickArena := .arena1
  nextTickArena := .arena2

def modify (g : TickArenas) (a : ArenaId) (f : TickArena → TickArena) : TickArenas :=
  { g with arena := Function.update g.arena a (f (g.arena a)) }

def users (g : TickArenas) (a : ArenaId) : ℕ := (g.arena a).users

/-- `get_tick_arena`, its result is the arena that was current. -/
def getTickArena (g : TickArenas) : ArenaId × TickArenas :=
  (g.currentTickArena,
    g.modify g.currentTickArena fun a => { a with users := sizeAdd a.users 1 })

/-- `return_tick_arena` does not look at its argument, it decrements the users of whichever
arena is current when it runs. -/
def returnTickArena (g : TickArenas) (_arena : ArenaId) : TickArenas :=
  g.modify g.currentTickArena fun a => { a with users := sizeAdd a.users (toSize (-1)) }

/-- The pointer swap of `switch_tick_arenas`. -/
def swapPointers (g : TickArenas) : TickArenas :=
  { g with currentTickArena := g.nextTickArena, nextTickArena := g.currentTickArena }

/-- The arena that the locked section of `switch_tick_arenas` passes to `reset_arena`. -/
def resetTarget (g : TickArenas) : ArenaId := g.swapPointers.nextTickArena

/-- The locked section of `switch_tick_arenas`. -/
def switchLocked (g : TickArenas) : TickArenas :=
  g.swapPointers.modify g.resetTarget TickArena.resetArena

end TickArenas

/-! ## The threads around the arenas -/

/-- The game loop is either between two switches, with the arena the last switch returned, or
inside `switch_tick_arenas`, waiting for the users of the current arena. -/
inductive GamePhase where
  | ticking (arena : Option ArenaId)
  | waiting
  deriving DecidableEq, Repr

/-- The arenas, the game loop and the arena each packet thread is using, that is, is between
`get_tick_arena` and its matching `return_tick_arena` of. -/
structure TickState (ι : Type*) where
  arenas : TickArenas
  game : GamePhase
  held : ι → Option ArenaId

inductive TickEvent (ι : Type*) where
  | get (thread : ι)
  | ret (thread : ι)
  | alloc (thread : ι) (size : ℕ)
  | swap
  | wait
  | tickAlloc (size : ℕ)
  deriving DecidableEq

namespace TickState

variable {ι : Type*} [DecidableEq ι]

/-- The state after `init_tick_arenas`. -/
def initial (ι : Type*) (start₁ start₂ : ℕ) : TickState ι :=
  { arenas := TickArenas.initTickArenas start₁ start₂, game := .ticking none,
    held := fun _ => none }

/-- One atomic step of a packet thread or of the game loop. -/
def step (s : TickState ι) : TickEvent ι → Option (TickState ι)
  | .get t =>
      match s.held t with
      | some _ => none
      | none =>
          let (a, arenas) := s.arenas.getTickArena
          some { s with arenas, held := Function.update s.held t (some a) }
  | .ret t =>
      match s.held t with
      | none => none
      | some a =>
          some { s with
            arenas := s.arenas.returnTickArena a, held := Function.update s.held t none }
  | .alloc t size =>
      match s.held t with
      | none => none
      | some a =>
          some { s with arenas := s.arenas.modify a fun arena => arena.afterAlloc size }
  | .swap =>
      match s.game with
      | .waiting => none
      | .ticking _ => some { s with arenas := s.arenas.switchLocked, game := .waiting }
  | .wait =>
      match s.game with
      | .ticking _ => none
      | .waiting =>
          if s.arenas.users s.arenas.currentTickArena = 0 then
            some { s with game := .ticking (some s.arenas.currentTickArena) }
          else none
  | .tickAlloc size =>
      match s.game with
      | .ticking (some a) =>
          some { s with arenas := s.arenas.modify a fun arena => arena.afterAlloc size }
      | _ => none

end TickState

end CmcServer
