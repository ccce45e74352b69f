import CmcServer.Lib.Alignment
import CmcServer.Verification.TickArena.Steps

/-! # What is given back to the kernel

`reset_arena` rounds the start of the range up and its length down, each on its own. The offsets
of every run keep the range inside the mapping. -/

namespace CmcServer

open Runs Alignment

/-! ## Calls -/

/-- A call into the tick arenas. Each arena may be allocated from at any time. -/
inductive ArenaCall where
  | get
  | ret (arena : ArenaId)
  | alloc (arena : ArenaId) (size : ℕ)
  | switch
  deriving DecidableEq

/-- The arenas after a call, whatever it returns. -/
def TickArenas.call (g : TickArenas) : ArenaCall → Option TickArenas
  | .get => some g.getTickArena.2
  | .ret a => some (g.returnTickArena a)
  | .alloc a size => some (g.modify a fun arena => arena.afterAlloc size)
  | .switch => some g.switchLocked

theorem TickState.step_call {ι : Type*} [DecidableEq ι] {s s' : TickState ι} {e : TickEvent ι}
    (h : s.step e = some s') :
    s'.arenas = s.arenas ∨ ∃ c, s.arenas.call c = some s'.arenas := by
  cases e with
  | get t =>
      rcases step_get_iff.mp h with ⟨-, rfl⟩
      exact Or.inr ⟨.get, rfl⟩
  | ret t =>
      rcases step_ret_iff.mp h with ⟨a, -, rfl⟩
      exact Or.inr ⟨.ret a, rfl⟩
  | alloc t size =>
      rcases step_alloc_iff.mp h with ⟨a, -, rfl⟩
      exact Or.inr ⟨.alloc a size, rfl⟩
  | swap =>
      rcases step_swap_iff.mp h with ⟨-, rfl⟩
      exact Or.inr ⟨.switch, rfl⟩
  | wait =>
      rcases step_wait_iff.mp h with ⟨-, -, rfl⟩
      exact Or.inl rfl
  | tickAlloc size =>
      rcases step_tickAlloc_iff.mp h with ⟨a, -, rfl⟩
      exact Or.inr ⟨.alloc a size, rfl⟩

/-! ## Offsets -/

/-- `arena` was initialised at `start`, and its offsets are inside. -/
structure TickArena.InBounds (start : ℕ) (arena : TickArena) : Prop where
  start_eq : arena.start = start
  maxSize_eq : arena.maxSize = SIZE_1GB
  currentOffset_le : arena.currentOffset ≤ SIZE_1GB
  lastOffset_le : arena.lastOffset ≤ SIZE_1GB

namespace TickArena

variable {start : ℕ} {arena : TickArena}

theorem inBounds_initArena (start : ℕ) : (initArena start).InBounds start :=
  ⟨rfl, rfl, Nat.zero_le _, Nat.zero_le _⟩

/-- The sum that passes the fit test is the new offset, also when it wrapped. -/
theorem InBounds.afterAlloc (h : arena.InBounds start) (size : ℕ) :
    (arena.afterAlloc size).InBounds start := by
  have hmax := h.maxSize_eq
  rw [TickArena.afterAlloc, tickArenaAllocUnlocked]
  by_cases hfits : sizeAdd arena.currentOffset size > arena.maxSize
  · rw [if_pos hfits]
    exact h
  · rw [if_neg hfits]
    exact ⟨h.start_eq, hmax, by simp only; omega, h.lastOffset_le⟩

theorem InBounds.resetArena (h : arena.InBounds start) : arena.resetArena.InBounds start :=
  ⟨h.start_eq, h.maxSize_eq, Nat.zero_le _, h.currentOffset_le⟩

theorem InBounds.withUsers (h : arena.InBounds start) (users : ℕ) :
    InBounds start { arena with users } :=
  ⟨h.start_eq, h.maxSize_eq, h.currentOffset_le, h.lastOffset_le⟩

end TickArena

/-- Both arenas, with the addresses `mmap` returned for them. -/
def TickArenas.InBounds (start : ArenaId → ℕ) (g : TickArenas) : Prop :=
  ∀ a, (g.arena a).InBounds (start a)

namespace TickArenas

variable {start : ArenaId → ℕ} {g g' : TickArenas}

theorem inBounds_initTickArenas (start : ArenaId → ℕ) :
    (initTickArenas (start .arena1) (start .arena2)).InBounds start := by
  intro a
  cases a with
  | arena1 => exact TickArena.inBounds_initArena _
  | arena2 => exact TickArena.inBounds_initArena _

theorem InBounds.modify (h : g.InBounds start) (a : ArenaId) {f : TickArena → TickArena}
    (hf : ∀ arena, arena.InBounds (start a) → (f arena).InBounds (start a)) :
    (g.modify a f).InBounds start := by
  intro b
  by_cases hb : b = a
  · subst hb
    simpa [TickArenas.modify] using hf _ (h b)
  · simpa [TickArenas.modify, Function.update_of_ne hb] using h b

theorem InBounds.call (h : g.InBounds start) {c : ArenaCall} (hcall : g.call c = some g') :
    g'.InBounds start := by
  cases c with
  | get =>
      cases hcall
      exact h.modify _ fun arena harena => harena.withUsers _
  | ret a =>
      cases hcall
      exact h.modify _ fun arena harena => harena.withUsers _
  | alloc a size =>
      cases hcall
      exact h.modify a fun arena harena => harena.afterAlloc size
  | switch =>
      cases hcall
      exact InBounds.modify (g := g.swapPointers) h _ fun arena harena => harena.resetArena

end TickArenas

/-! ## The range -/

/-- The addresses that `mmap` returns for `SIZE_1GB` bytes. -/
structure Mapped (start : ℕ) : Prop where
  aligned : PAGE_SIZE ∣ start
  fits : start + SIZE_1GB ≤ 2 ^ 64

/-- `madvise` gets whole pages behind the offset and inside the arena, and the sums and
differences that they are computed from are exact. -/
structure AdviceSound (arena : TickArena) (p n : ℕ) : Prop where
  start_aligned : PAGE_SIZE ∣ p
  length_aligned : PAGE_SIZE ∣ n
  behind : arena.start + arena.currentOffset ≤ p
  inside : p + n ≤ arena.start + arena.maxSize
  sum_exact : arena.start + arena.currentOffset + (PAGE_SIZE - 1) < 2 ^ 64
  difference_exact : arena.currentOffset ≤ arena.lastOffset
  mask_le : (arena.lastOffset - arena.currentOffset) &&& (PAGE_SIZE - 1) ≤
    arena.lastOffset - arena.currentOffset

theorem alignUp_page {x : ℕ} (h : x + (PAGE_SIZE - 1) < 2 ^ 64) :
    alignUp x PAGE_SIZE = roundUp PAGE_SIZE x := by
  rw [alignUp, sizeAdd_of_lt h]
  exact and_high_eq (k := 12) (by decide) h

theorem alignDown_page (x : ℕ) : alignDown x PAGE_SIZE = roundDown PAGE_SIZE x :=
  sub_and_low_eq 12 x

/-- The advice of an arena whose offsets are inside. -/
theorem TickArena.InBounds.advice {start : ℕ} {arena : TickArena} (h : arena.InBounds start)
    (hmapped : Mapped start) {p n : ℕ} (hadvice : arena.resetAdvice = some (p, n)) :
    AdviceSound arena p n := by
  have hfits := hmapped.fits
  have hlast := h.lastOffset_le
  rw [TickArena.resetAdvice] at hadvice
  split at hadvice
  · rename_i hlarge
    rcases hlarge with ⟨hlt, hlarge⟩
    have hoffset : arena.start + arena.currentOffset + (PAGE_SIZE - 1) < 2 ^ 64 := by
      rw [h.start_eq]
      simp only [SIZE_2MB, PAGE_SIZE] at hlarge ⊢
      omega
    have hsum : sizeAdd arena.start arena.currentOffset = arena.start + arena.currentOffset :=
      sizeAdd_of_lt (by omega)
    rw [hsum, alignUp_page hoffset, alignDown_page] at hadvice
    cases hadvice
    have hpage : 0 < PAGE_SIZE := by decide
    have hend : PAGE_SIZE ∣ arena.start + arena.maxSize := by
      rw [h.start_eq, h.maxSize_eq]
      exact Nat.dvd_add hmapped.aligned (by decide)
    have hlength : arena.lastOffset - arena.currentOffset =
        arena.start + arena.lastOffset - (arena.start + arena.currentOffset) := by omega
    exact {
      start_aligned := dvd_roundUp _ _
      length_aligned := dvd_roundDown _ _
      behind := le_roundUp hpage _
      inside := by
        rw [hlength]
        apply roundUp_add_roundDown_le hpage hend
        · omega
        · rw [h.maxSize_eq]
          omega
      sum_exact := hoffset
      difference_exact := hlt.le
      mask_le := Nat.and_le_left }
  · cases hadvice

/-! ## Runs -/

section

variable {start : ArenaId → ℕ} {u : TickArenas} {trace : List (Transition TickArenas ArenaCall)}

theorem TickArenas.inBounds_run
    (h : Run call (initTickArenas (start .arena1) (start .arena2)) trace u) :
    u.InBounds start :=
  h.guarded_invariant (TickArenas.InBounds start)
    (inBounds_initTickArenas start) (fun _ _ _ hinv hcall _ => hinv.call hcall)
    (fun _ _ => trivial)

/-- In every run from `init_tick_arenas`, what a switch gives back to the kernel are whole pages
of the arena that it resets, behind what was allocated there. -/
theorem advice_inside (hmapped : ∀ a, Mapped (start a))
    (h : Run TickArenas.call
      (TickArenas.initTickArenas (start .arena1) (start .arena2)) trace u) :
    ∀ x ∈ trace, x.event = .switch →
      let arena := x.pre.arena x.pre.resetTarget
      arena.start = start x.pre.resetTarget ∧ arena.maxSize = SIZE_1GB ∧
        ∀ p n, arena.resetAdvice = some (p, n) → AdviceSound arena p n := by
  intro x hx _
  rcases h.transition_reached x hx with ⟨-, before, -, -, hpre⟩
  have harena := TickArenas.inBounds_run hpre x.pre.resetTarget
  exact ⟨harena.start_eq, harena.maxSize_eq, fun p n hadvice => harena.advice (hmapped _) hadvice⟩

end

def threeTicks : List (Transition TickArenas ArenaCall) :=
  replay TickArenas.call (TickArenas.initTickArenas 0x7F0000000000 0x7F0040000000)
    [.alloc .arena1 0x300001, .switch, .switch, .alloc .arena1 0x800, .switch]

theorem advice_inside_three_ticks :
    threeTicks.map Transition.event =
        [.alloc .arena1 0x300001, .switch, .switch, .alloc .arena1 0x800, .switch] ∧
      ∀ x ∈ threeTicks, x.event = .switch →
        let arena := x.pre.arena x.pre.resetTarget
        arena.start = (if x.pre.resetTarget = .arena1 then 0x7F0000000000 else 0x7F0040000000) ∧
          arena.maxSize = SIZE_1GB ∧
          ∀ p n, arena.resetAdvice = some (p, n) → AdviceSound arena p n := by
  obtain ⟨u, hu⟩ := run_replay TickArenas.call
    (TickArenas.initTickArenas 0x7F0000000000 0x7F0040000000)
    [.alloc .arena1 0x300001, .switch, .switch, .alloc .arena1 0x800, .switch]
  have hmapped : ∀ a : ArenaId,
      Mapped (if a = .arena1 then 0x7F0000000000 else 0x7F0040000000) := by
    intro a
    cases a with
    | arena1 => exact ⟨by decide, by decide⟩
    | arena2 => exact ⟨by decide, by decide⟩
  exact ⟨by decide, advice_inside hmapped hu⟩

end CmcServer
