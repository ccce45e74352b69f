import CmcServer.Model.TickArena

/-! # The blocks of an arena

A block is put behind the blocks in front of `current_offset`. When the sum in the fit test wraps,
a block that does not fit is returned and the offset goes back. -/

namespace CmcServer.TickArena

open Runs

/-! ## Calls -/

/-- A call of `tick_arena_alloc` or of `tick_arena_alloc_unlocked`, whatever it returns. -/
def call (arena : TickArena) (size : BitVec 64) : Option TickArena :=
  some (arena.afterAlloc size.toNat)

def result (x : Transition TickArena (BitVec 64)) : Option ℕ :=
  (x.pre.tickArenaAllocUnlocked x.event.toNat).map Prod.fst

/-- The addresses of the block that a call returns. -/
def InBlock (x : Transition TickArena (BitVec 64)) (a : ℕ) : Prop :=
  ∃ p ∈ result x, p ≤ a ∧ a < p + x.event.toNat

structure Unused (arena : TickArena) : Prop where
  currentOffset : arena.currentOffset = 0
  mapped : arena.start + arena.maxSize < 2 ^ 64

theorem unused_initArena {start : ℕ} (h : start + SIZE_1GB < 2 ^ 64) : (initArena start).Unused :=
  ⟨rfl, h⟩

/-- Blocks of some calls are inside the arena and apart, the calls that return `NULL` are those
without room for their size, and the offset only grows. -/
structure BlocksSound (arena : TickArena) (trace : List (Transition TickArena (BitVec 64))) :
    Prop where
  inside : ∀ x ∈ trace, ∀ p ∈ result x,
    arena.start ≤ p ∧ p + x.event.toNat ≤ arena.start + arena.maxSize
  disjoint : trace.Pairwise fun x y => ∀ a, InBlock x a → ¬ InBlock y a
  null : ∀ x ∈ trace, result x = none ↔ arena.maxSize < x.pre.currentOffset + x.event.toNat
  forward : ∀ x ∈ trace, x.pre.currentOffset ≤ x.post.currentOffset

/-! ## The fit test -/

/-- The sum of the fit test wraps to an offset inside the arena. -/
def Wraps (arena : TickArena) (size : BitVec 64) : Prop :=
  2 ^ 64 ≤ arena.currentOffset + size.toNat ∧
    arena.currentOffset + size.toNat ≤ 2 ^ 64 + arena.maxSize

instance (arena : TickArena) (size : BitVec 64) : Decidable (arena.Wraps size) := by
  unfold Wraps
  infer_instance

variable {arena : TickArena} {size : BitVec 64}

variable (arena size) in
theorem alloc_of_fits (hmapped : arena.start + arena.maxSize < 2 ^ 64)
    (hfits : arena.currentOffset + size.toNat ≤ arena.maxSize) :
    arena.tickArenaAllocUnlocked size.toNat =
      some (arena.start + arena.currentOffset,
        { arena with currentOffset := arena.currentOffset + size.toNat }) := by
  have hsum : sizeAdd arena.currentOffset size.toNat = arena.currentOffset + size.toNat :=
    sizeAdd_of_lt (by omega)
  have haddress : sizeAdd arena.start arena.currentOffset = arena.start + arena.currentOffset :=
    sizeAdd_of_lt (by omega)
  rw [tickArenaAllocUnlocked, hsum, haddress, if_neg (by omega)]

variable (arena size) in
theorem alloc_of_large (hmapped : arena.start + arena.maxSize < 2 ^ 64)
    (hle : arena.currentOffset ≤ arena.maxSize) (hwraps : ¬ arena.Wraps size)
    (hlarge : arena.maxSize < arena.currentOffset + size.toNat) :
    arena.tickArenaAllocUnlocked size.toNat = none := by
  have hlt := size.isLt
  rw [Wraps] at hwraps
  rw [tickArenaAllocUnlocked, if_pos]
  simp only [sizeAdd]
  omega

/-- A request that wraps gets a block that it does not fit into. -/
theorem alloc_of_wraps (hmax : arena.maxSize < 2 ^ 64) (hwraps : arena.Wraps size) :
    arena.tickArenaAllocUnlocked size.toNat ≠ none := by
  have hlt := size.isLt
  rw [Wraps] at hwraps
  rw [tickArenaAllocUnlocked, if_neg]
  · simp
  · simp only [sizeAdd]
    omega

/-! ## Sequences of calls -/

variable {trace : List (Transition TickArena (BitVec 64))}

theorem BlocksSound.snoc {x : Transition TickArena (BitVec 64)} (h : BlocksSound arena trace)
    (hinside : ∀ p ∈ result x,
      arena.start ≤ p ∧ p + x.event.toNat ≤ arena.start + arena.maxSize)
    (hdisjoint : ∀ y ∈ trace, ∀ a, InBlock y a → ¬ InBlock x a)
    (hnull : result x = none ↔ arena.maxSize < x.pre.currentOffset + x.event.toNat)
    (hforward : x.pre.currentOffset ≤ x.post.currentOffset) :
    BlocksSound arena (trace ++ [x]) where
  inside := List.forall_mem_append.mpr ⟨h.inside, by simpa using hinside⟩
  disjoint := by
    apply List.pairwise_append.mpr
    exact ⟨h.disjoint, List.pairwise_singleton _ _, by simpa using hdisjoint⟩
  null := List.forall_mem_append.mpr ⟨h.null, by simpa using hnull⟩
  forward := List.forall_mem_append.mpr ⟨h.forward, by simpa using hforward⟩

/-- What every call keeps, also one that wraps. -/
structure Placed (arena now : TickArena) : Prop where
  start : now.start = arena.start
  maxSize : now.maxSize = arena.maxSize
  le : now.currentOffset ≤ arena.maxSize

theorem Unused.placed (h : arena.Unused) : Placed arena arena where
  start := rfl
  maxSize := rfl
  le := by
    rw [h.currentOffset]
    exact Nat.zero_le _

theorem Placed.call {now after : TickArena} (h : Placed arena now)
    (hcall : call now size = some after) : Placed arena after := by
  have hafter : now.afterAlloc size.toNat = after := Option.some.inj hcall
  rw [afterAlloc, tickArenaAllocUnlocked] at hafter
  by_cases hlarge : sizeAdd now.currentOffset size.toNat > now.maxSize
  · rw [if_pos hlarge] at hafter
    rw [← hafter]
    exact h
  · rw [if_neg hlarge] at hafter
    rw [← hafter]
    refine ⟨h.start, h.maxSize, ?_⟩
    rw [← h.maxSize]
    exact Nat.not_lt.mp hlarge

/-- The blocks so far lie in front of the offset of `now`. -/
structure Filled (arena : TickArena) (trace : List (Transition TickArena (BitVec 64)))
    (now : TickArena) : Prop where
  placed : Placed arena now
  before : ∀ x ∈ trace, ∀ a, InBlock x a → a < arena.start + now.currentOffset
  sound : BlocksSound arena trace

theorem Unused.filled (h : arena.Unused) : Filled arena [] arena where
  placed := h.placed
  before := by simp
  sound := ⟨by simp, List.Pairwise.nil, by simp, by simp⟩

/-- A call that does not wrap puts its block behind the others. -/
theorem Filled.call {now after : TickArena} (h : Filled arena trace now)
    (hmapped : arena.start + arena.maxSize < 2 ^ 64) (hcall : call now size = some after)
    (hwraps : ¬ now.Wraps size) : Filled arena (trace ++ [⟨now, size, after⟩]) after := by
  have hstart := h.placed.start
  have hmax := h.placed.maxSize
  have hle := h.placed.le
  have hafter : now.afterAlloc size.toNat = after := Option.some.inj hcall
  by_cases hfits : now.currentOffset + size.toNat ≤ arena.maxSize
  · have halloc := alloc_of_fits now size (by omega) (by omega)
    have hresult : result ⟨now, size, after⟩ = some (arena.start + now.currentOffset) := by
      rw [result, halloc, ← hstart]
      rfl
    have hoffset : after.currentOffset = now.currentOffset + size.toNat := by
      rw [← hafter, afterAlloc, halloc]
    have hblock : ∀ a, InBlock ⟨now, size, after⟩ a ↔
        arena.start + now.currentOffset ≤ a ∧ a < arena.start + after.currentOffset := by
      intro a
      simp [InBlock, hresult, hoffset, Nat.add_assoc]
    refine ⟨h.placed.call hcall, ?_, ?_⟩
    · refine List.forall_mem_append.mpr ⟨?_, ?_⟩
      · intro x hx a ha
        have hbefore := h.before x hx a ha
        omega
      · simp only [List.mem_singleton, forall_eq, hblock]
        exact fun a ha => ha.2
    · apply h.sound.snoc
      · simp only [hresult, Option.mem_some_iff, forall_eq']
        omega
      · intro y hy a ha hnew
        have hbefore := h.before y hy a ha
        have hbehind := ((hblock a).mp hnew).1
        omega
      · simp only [hresult, reduceCtorEq, false_iff]
        omega
      · simp only [hoffset]
        omega
  · have halloc := alloc_of_large now size (by omega) (by omega) hwraps (by omega)
    have hresult : result ⟨now, size, after⟩ = none := by
      rw [result, halloc]
      rfl
    have hsame : after = now := by
      rw [← hafter, afterAlloc, halloc]
    refine ⟨h.placed.call hcall, ?_, ?_⟩
    · refine List.forall_mem_append.mpr ⟨?_, ?_⟩
      · rw [hsame]
        exact h.before
      · simp [InBlock, hresult]
    · apply h.sound.snoc
      · simp [hresult]
      · simp [InBlock, hresult]
      · simp only [hresult, true_iff]
        omega
      · rw [hsame]

/-- The blocks of a sequence of calls are sound exactly when no sum wraps into the arena. -/
theorem blocks_sound_iff {u : TickArena} (hunused : arena.Unused) (h : Run call arena trace u) :
    BlocksSound arena trace ↔ ∀ x ∈ trace, ¬ x.pre.Wraps x.event := by
  have hmapped := hunused.mapped
  constructor
  · intro hsound x hx hwraps
    have hplaced : Placed arena x.pre :=
      (h.guarded_transitions (Placed arena) (fun _ => True) hunused.placed
        (fun _ _ _ hinv hstep _ => hinv.call hstep) (fun _ _ => trivial) x hx).2.1
    have hle := hplaced.le
    have hmax := hplaced.maxSize
    have hnone : result x = none := (hsound.null x hx).mpr (by have := hwraps.1; omega)
    exact alloc_of_wraps (by omega) hwraps (Option.map_eq_none_iff.mp hnone)
  · intro hok
    have hanywhere : trace.Pairwise fun _ _ => True := List.pairwise_of_forall fun _ _ => trivial
    have hfilled : Filled arena trace u := by
      refine h.history_invariant (Filled arena) hunused.filled ?_ hok hanywhere
      intro trace t e v hinv hstep hwraps _
      exact hinv.call hmapped hstep hwraps
    exact hfilled.sound

/-- Two blocks, the second request too large. -/
theorem blocks_sound_full : BlocksSound (initArena 0x100000000)
    (replay call (initArena 0x100000000) [0x10, 0x40000000, 0x20]) := by
  obtain ⟨u, hrun⟩ := run_replay call (initArena 0x100000000) [0x10, 0x40000000, 0x20]
  exact (blocks_sound_iff (unused_initArena (by decide)) hrun).mpr (by decide)

/-- An array of -1 elements of 16 bytes moves the offset back to where it was before the last
block. -/
theorem blocks_overlap : ¬ ∀ (arena u : TickArena)
    (trace : List (Transition TickArena (BitVec 64))),
    arena.Unused → Run call arena trace u → BlocksSound arena trace := by
  intro h
  obtain ⟨u, hrun⟩ := run_replay call (initArena 0x100000000)
    [0x10, BitVec.ofInt 64 (-1 * 16), 0x10]
  have hsound := h _ _ _ (unused_initArena (by decide)) hrun
  exact absurd hsound.forward (by decide)

end CmcServer.TickArena
