import CmcServer.Model.TickArenaThreads
import CmcServer.Verification.SpinLock.Exclusion
import CmcServer.Verification.TickArena.Blocks

/-! # Blocks of several threads

Threads that allocate from one arena under its spin lock get blocks that lie in the arena and apart,
whoever got them, as long as no sum in the fit test wraps. -/

namespace CmcServer.TickArena

open Runs CriticalSection

variable {ι : Type} {arena now : TickArena} {size : BitVec 64}

/-! ## Single calls -/

theorem run_allocAccesses (arena : TickArena) (size : ℕ) :
    (allocAccesses size).run arena =
      ((arena.tickArenaAllocUnlocked size).map Prod.fst, arena.afterAlloc size) := by
  rw [allocAccesses, afterAlloc, tickArenaAllocUnlocked]
  by_cases hlarge : sizeAdd arena.currentOffset size > arena.maxSize
  · simp [hlarge]
  · simp [hlarge]

theorem run_allocLocked_none (blocks : List Block)
    (h : arena.tickArenaAllocUnlocked size.toNat = none) :
    (allocLocked size blocks).run arena = (blocks, arena) := by
  simp [allocLocked, run_allocAccesses, afterAlloc, h]

theorem run_allocLocked_some (blocks : List Block) {p : ℕ} {after : TickArena}
    (h : arena.tickArenaAllocUnlocked size.toNat = some (p, after)) :
    (allocLocked size blocks).run arena = ((p, size.toNat) :: blocks, after) := by
  simp [allocLocked, run_allocAccesses, afterAlloc, h]

/-- A call returns `NULL`, a block that fits behind the offset, or one that does not because the sum
in the fit test wraps. -/
theorem Placed.alloc_cases (h : Placed arena now) (hmapped : arena.start + arena.maxSize < 2 ^ 64)
    (size : BitVec 64) :
    (¬ now.Wraps size ∧ now.tickArenaAllocUnlocked size.toNat = none) ∨
      (¬ now.Wraps size ∧ now.currentOffset + size.toNat ≤ arena.maxSize ∧
        now.tickArenaAllocUnlocked size.toNat = some (arena.start + now.currentOffset,
          { now with currentOffset := now.currentOffset + size.toNat })) ∨
      (now.Wraps size ∧ ∃ after,
        now.tickArenaAllocUnlocked size.toNat = some (arena.start + now.currentOffset, after)) := by
  have hstart := h.start
  have hmax := h.maxSize
  have hle := h.le
  by_cases hwraps : now.Wraps size
  · refine .inr (.inr ⟨hwraps, ?_⟩)
    rcases Option.ne_none_iff_exists'.mp (alloc_of_wraps (by omega) hwraps) with ⟨⟨p, after⟩, hsome⟩
    have hp : p = arena.start + now.currentOffset := by
      rw [tickArenaAllocUnlocked] at hsome
      split at hsome
      · cases hsome
      · cases hsome
        rw [hstart]
        exact sizeAdd_of_lt (by omega)
    exact ⟨after, by rw [hsome, hp]⟩
  · by_cases hfits : now.currentOffset + size.toNat ≤ arena.maxSize
    · refine .inr (.inl ⟨hwraps, hfits, ?_⟩)
      rw [alloc_of_fits now size (by omega) (by omega), hstart]
    · exact .inl ⟨hwraps, alloc_of_large now size (by omega) (by omega) hwraps (by omega)⟩

/-! ## Calls of all threads -/

/-- Two blocks have no address in common. -/
def Apart (x y : Block) : Prop := ∀ a, x.1 ≤ a → a < x.1 + x.2 → ¬ (y.1 ≤ a ∧ a < y.1 + y.2)

theorem Apart.symm {x y : Block} (h : Apart x y) : Apart y x :=
  fun a hle hlt ha => h a ha.1 ha.2 ⟨hle, hlt⟩

/-- The blocks that threads have lie in the part of the arena up to an end, apart. -/
structure Carved (arena : TickArena) (last : ℕ) (blocks : ι → List Block) : Prop where
  inside : ∀ t, ∀ x ∈ blocks t, arena.start ≤ x.1 ∧ x.1 + x.2 ≤ last
  own : ∀ t, (blocks t).Pairwise Apart
  others : ∀ t v, t ≠ v → ∀ x ∈ blocks t, ∀ y ∈ blocks v, Apart x y

theorem Carved.mono {last last' : ℕ} {blocks : ι → List Block} (h : Carved arena last blocks)
    (hle : last ≤ last') : Carved arena last' blocks :=
  { h with inside := fun t x hx => ⟨(h.inside t x hx).1, (h.inside t x hx).2.trans hle⟩ }

theorem Carved.cons [DecidableEq ι] {last size : ℕ} {blocks : ι → List Block}
    (h : Carved arena last blocks) (hlast : arena.start ≤ last) (t : ι) :
    Carved arena (last + size) (Function.update blocks t ((last, size) :: blocks t)) := by
  have hnew : ∀ v, ∀ x ∈ blocks v, Apart (last, size) x := by
    intro v x hx a hle hlt ha
    have := (h.inside v x hx).2
    simp only at hle
    omega
  have hmem : ∀ v, ∀ x ∈ Function.update blocks t ((last, size) :: blocks t) v,
      (v = t ∧ x = (last, size)) ∨ x ∈ blocks v := by
    intro v x hx
    by_cases hv : v = t
    · subst hv
      simpa using hx
    · exact .inr (by simpa [hv] using hx)
  refine ⟨fun v x hx => ?_, fun v => ?_, fun v w hvw x hx y hy => ?_⟩
  · rcases hmem v x hx with ⟨-, rfl⟩ | hx
    · exact ⟨hlast, Nat.le_refl _⟩
    · exact ⟨(h.inside v x hx).1, (h.inside v x hx).2.trans (Nat.le_add_right _ _)⟩
  · by_cases hv : v = t
    · subst hv
      rw [Function.update_self]
      exact List.pairwise_cons.mpr ⟨hnew v, h.own v⟩
    · simpa [hv] using h.own v
  · rcases hmem v x hx with ⟨hv, rfl⟩ | hx'
    · rcases hmem w y hy with ⟨hw, -⟩ | hy'
      · exact absurd (hv.trans hw.symm) hvw
      · exact hnew w y hy'
    · rcases hmem w y hy with ⟨-, rfl⟩ | hy'
      · exact (hnew v x hx').symm
      · exact h.others v w hvw x hx' y hy'

def Overrun (arena : TickArena) (blocks : ι → List Block) : Prop :=
  ∃ t, ∃ x ∈ blocks t, arena.start + arena.maxSize < x.1 + x.2

theorem Overrun.cons [DecidableEq ι] {blocks : ι → List Block} (h : Overrun arena blocks) (t : ι)
    (x : Block) : Overrun arena (Function.update blocks t (x :: blocks t)) := by
  rcases h with ⟨v, y, hy, hlt⟩
  refine ⟨v, y, ?_, hlt⟩
  by_cases hv : v = t
  · subst hv
    simp [hy]
  · simpa [hv] using hy

theorem Overrun.not_carved {blocks : ι → List Block} (h : Overrun arena blocks) :
    ¬ Carved arena (arena.start + arena.maxSize) blocks := by
  rcases h with ⟨t, x, hx, hlt⟩
  intro hcarved
  exact absurd (hcarved.inside t x hx).2 (Nat.not_le.mpr hlt)

/-! ## Threads -/

variable [DecidableEq ι] {a b : Sections ι TickArena (List Block)} {t : ι}

def WrapsIn (arena : TickArena) : Sections.Event ι (BitVec 64) Empty → Prop
  | .unlocked _ _ => False
  | .locked _ size => arena.Wraps size

instance (arena : TickArena) (e : Sections.Event ι (BitVec 64) Empty) :
    Decidable (WrapsIn arena e) :=
  match e with
  | .unlocked _ _ => inferInstanceAs (Decidable False)
  | .locked _ size => inferInstanceAs (Decidable (arena.Wraps size))

/-- A call gets the lock, and its sum wraps. -/
def WrapsAt (x : Transition (Threads (spinLock ι) TickArena (List Block) (BitVec 64))
    (Threads.Event (spinLock ι) (BitVec 64) Empty)) : Prop :=
  ∃ e ∈ Threads.effect x, WrapsIn x.pre.data e

instance (x : Transition (Threads (spinLock ι) TickArena (List Block) (BitVec 64))
    (Threads.Event (spinLock ι) (BitVec 64) Empty)) : Decidable (WrapsAt x) :=
  inferInstanceAs (Decidable (∃ e ∈ Threads.effect x, WrapsIn x.pre.data e))

/-- The blocks lie apart as long as no call has wrapped. -/
structure Allotted (arena : TickArena) (wrapped : Prop) (a : Sections ι TickArena (List Block)) :
    Prop where
  placed : Placed arena a.data
  carved : ¬ wrapped → Carved arena (arena.start + a.data.currentOffset) a.loc
  overrun : wrapped → Overrun arena a.loc

theorem Allotted.call {wrapped : Prop} (h : Allotted arena wrapped a)
    (hmapped : arena.start + arena.maxSize < 2 ^ 64)
    (hstep : a.step allocClient (.locked t size) = some b) :
    Allotted arena (wrapped ∨ a.data.Wraps size) b := by
  have hb : b = { data := ((allocLocked size (a.loc t)).run a.data).2
                  loc := Function.update a.loc t ((allocLocked size (a.loc t)).run a.data).1 } :=
    (Option.some.inj hstep).symm
  rcases h.placed.alloc_cases hmapped size with
    ⟨hfit, hnone⟩ | ⟨hfit, hroom, hsome⟩ | ⟨hwraps, after, hsome⟩
  · rw [run_allocLocked_none _ hnone, Function.update_eq_self] at hb
    rw [hb]
    exact ⟨h.placed, fun hno => h.carved (not_or.mp hno).1,
      fun hor => h.overrun (hor.resolve_right hfit)⟩
  · rw [run_allocLocked_some _ hsome] at hb
    rw [hb]
    refine ⟨⟨h.placed.start, h.placed.maxSize, hroom⟩, fun hno => ?_, fun hor => ?_⟩
    · rw [← Nat.add_assoc]
      exact (h.carved (not_or.mp hno).1).cons (Nat.le_add_right _ _) t
    · exact (h.overrun (hor.resolve_right hfit)).cons t _
  · rw [run_allocLocked_some _ hsome] at hb
    have hafter : a.data.afterAlloc size.toNat = after := by rw [afterAlloc, hsome]
    rw [hb]
    refine ⟨h.placed.call (congrArg some hafter), fun hno => absurd (.inr hwraps) hno, fun _ => ?_⟩
    refine ⟨t, (arena.start + a.data.currentOffset, size.toNat), by simp, ?_⟩
    have hover := hwraps.1
    simp only
    omega

/-- The blocks that a thread has when it is through with the call it is in. -/
def blocks (s : Threads (spinLock ι) TickArena (List Block) (BitVec 64)) (t : ι) : List Block :=
  (Threads.settle (s.mode t) s.data).1

theorem run_allotted (hunused : arena.Unused)
    {s : Threads (spinLock ι) TickArena (List Block) (BitVec 64)}
    {trace : List (Transition (Threads (spinLock ι) TickArena (List Block) (BitVec 64))
      (Threads.Event (spinLock ι) (BitVec 64) Empty))}
    (h : Run (Threads.step allocClient)
      (Threads.initial (SpinState.initial ι) arena fun _ => []) trace s) :
    ∃ a, s.Coupled ∧ s.Settles a ∧ Allotted arena (∃ x ∈ trace, WrapsAt x) a := by
  induction h with
  | nil =>
      refine ⟨_, Threads.coupled_initial SpinState.sound_initial (fun _ => rfl) _ _,
        Threads.settles_initial _ _ _, hunused.placed, fun _ => ?_, by simp⟩
      exact ⟨by simp, by simp, by simp⟩
  | @snoc trace s e s' _ hstep ih =>
      rcases ih with ⟨a, hcoupled, hsettles, hallotted⟩
      have hnext := hsettles.step hcoupled hstep fun _ act => act.elim
      have hwrapped : ∀ p : Prop, (WrapsAt ⟨s, e, s'⟩ ↔ p) →
          ((∃ x ∈ trace ++ [⟨s, e, s'⟩], WrapsAt x) ↔ (∃ x ∈ trace, WrapsAt x) ∨ p) := by
        intro p hp
        simp [or_and_right, exists_or, hp]
      cases heffect : Threads.effect ⟨s, e, s'⟩ with
      | none =>
          rw [heffect] at hnext
          have hno : WrapsAt ⟨s, e, s'⟩ ↔ False := by simp [WrapsAt, heffect]
          rw [hwrapped False hno, or_false]
          exact ⟨a, hcoupled.step hstep, hnext, hallotted⟩
      | some e' =>
          rw [heffect] at hnext
          rcases hnext with ⟨b, hb, hsettles'⟩
          cases e' with
          | unlocked t act => exact act.elim
          | locked t size =>
              have hdata := hsettles.data_of_locked hcoupled hstep heffect
              have hwraps : WrapsAt ⟨s, e, s'⟩ ↔ a.data.Wraps size := by
                simp [WrapsAt, heffect, hdata, WrapsIn]
              rw [hwrapped _ hwraps]
              exact ⟨b, hcoupled.step hstep, hsettles', hallotted.call hunused.mapped hb⟩

/-- Threads allocate from an arena. Their blocks lie in the arena and apart exactly if no call gets
the lock with a size for which the sum wraps. -/
theorem shared_blocks_iff (hunused : arena.Unused)
    {s : Threads (spinLock ι) TickArena (List Block) (BitVec 64)}
    {trace : List (Transition (Threads (spinLock ι) TickArena (List Block) (BitVec 64))
      (Threads.Event (spinLock ι) (BitVec 64) Empty))}
    (h : Run (Threads.step allocClient)
      (Threads.initial (SpinState.initial ι) arena fun _ => []) trace s) :
    Carved arena (arena.start + arena.maxSize) (blocks s) ↔ ∀ x ∈ trace, ¬ WrapsAt x := by
  rcases run_allotted hunused h with ⟨a, -, hsettles, hallotted⟩
  have hblocks : blocks s = a.loc := funext fun t => (hsettles.loc t).symm
  rw [hblocks]
  constructor
  · intro hcarved x hx hwraps
    exact (hallotted.overrun ⟨x, hx, hwraps⟩).not_carved hcarved
  · intro hall
    have hno : ¬ ∃ x ∈ trace, WrapsAt x := fun ⟨x, hx, hwraps⟩ => hall x hx hwraps
    exact (hallotted.carved hno).mono (Nat.add_le_add_left hallotted.placed.le _)

/-- Two threads allocate, the second one while the first is in the middle of its call. -/
def twoAllocs : List (Transition (Threads (spinLock ℕ) TickArena (List Block) (BitVec 64))
    (Threads.Event (spinLock ℕ) (BitVec 64) Empty)) :=
  replay (Threads.step allocClient)
    (Threads.initial (SpinState.initial ℕ) (initArena 0x100000000) fun _ => [])
    [.call 0 0x10, .lock (.compareExchangeWeak 0 false), .access 0, .call 1 0x20,
      .lock (.compareExchangeWeak 1 false), .access 0, .access 0, .access 0, .lock (.load 1),
      .access 0, .access 0, .lock (.store 0), .lock (.load 1),
      .lock (.compareExchangeWeak 1 false), .access 1]

theorem shared_blocks_two :
    ∃ s, Run (Threads.step allocClient)
        (Threads.initial (SpinState.initial ℕ) (initArena 0x100000000) fun _ => [])
        twoAllocs s ∧
      blocks s 0 = [(0x100000000, 0x10)] ∧ blocks s 1 = [(0x100000010, 0x20)] ∧
      Carved (initArena 0x100000000) (0x100000000 + SIZE_1GB) (blocks s) := by
  have hruns : ∃ s, Run (Threads.step allocClient)
      (Threads.initial (SpinState.initial ℕ) (initArena 0x100000000) fun _ => [])
      twoAllocs s := run_replay ..
  rcases hruns with ⟨s, hrun⟩
  have hlast : ∃ x ∈ twoAllocs.getLast?, blocks x.post 0 = [(0x100000000, 0x10)] ∧
      blocks x.post 1 = [(0x100000010, 0x20)] := by
    decide +kernel
  rcases hlast with ⟨x, hx, hfirst, hsecond⟩
  rw [← hrun.eq_last hx] at hfirst hsecond
  refine ⟨s, hrun, hfirst, hsecond, ?_⟩
  exact (shared_blocks_iff (unused_initArena (by decide)) hrun).mpr (by decide +kernel)

end CmcServer.TickArena
