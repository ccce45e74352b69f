import CmcServer.Verification.TickArena.Steps

/-! # User counts and the arena of the tick

The counters are exact as long as no switch separates `get_tick_arena` from its
`return_tick_arena`. With exact counters the wait of `switch_tick_arenas` is sound, and the
arena it returns stays exclusive if no packet is dispatched before the next switch. -/

namespace CmcServer

namespace TickState

open Runs

variable {ι : Type*} [DecidableEq ι] [Fintype ι] {s s' u : TickState ι} {start₁ start₂ : ℕ}
  {trace : List (Transition (TickState ι) (TickEvent ι))}

/-! ## Counting the holders -/

omit [DecidableEq ι] in
theorem holders_le_card (s : TickState ι) (a : ArenaId) : s.holders a ≤ Fintype.card ι :=
  (Finset.card_filter_le _ _).trans_eq Finset.card_univ

omit [DecidableEq ι] in
theorem holders_pos {t : ι} {a : ArenaId} (h : s.held t = some a) : 0 < s.holders a :=
  Finset.card_pos.mpr ⟨t, by simp [h]⟩

omit [DecidableEq ι] in
theorem holders_eq_zero_iff {a : ArenaId} : s.holders a = 0 ↔ ∀ t, s.held t ≠ some a := by
  simp [holders, Finset.filter_eq_empty_iff]

omit [DecidableEq ι] in
/-- The holders only depend on which thread uses which arena. -/
theorem holders_congr (h : s'.held = s.held) (a : ArenaId) : s'.holders a = s.holders a := by
  unfold holders
  rw [h]

theorem holders_acquire {t : ι} {b : ArenaId} (hfree : s.held t = none)
    (h : s'.held = Function.update s.held t (some b)) (a : ArenaId) :
    s'.holders a = s.holders a + if a = b then 1 else 0 := by
  by_cases hab : a = b
  · subst hab
    have hset : (Finset.univ.filter fun t' => s'.held t' = some a) =
        insert t (Finset.univ.filter fun t' => s.held t' = some a) := by
      ext t'
      by_cases ht : t' = t <;> simp [h, ht]
    simp [holders, hset, hfree]
  · have hset : (Finset.univ.filter fun t' => s'.held t' = some a) =
        Finset.univ.filter fun t' => s.held t' = some a := by
      ext t'
      by_cases ht : t' = t
      · subst ht
        simp [h, hfree, Ne.symm hab]
      · simp [h, ht]
    simp [holders, hset, hab]

theorem holders_release {t : ι} {b : ArenaId} (hheld : s.held t = some b)
    (h : s'.held = Function.update s.held t none) (a : ArenaId) :
    s.holders a = s'.holders a + if a = b then 1 else 0 := by
  apply holders_acquire (t := t)
  · simp [h]
  · rw [h, Function.update_idem, ← hheld, Function.update_eq_self]

/-! ## Exact counters -/

omit [DecidableEq ι] in
theorem usersExact_initial : UsersExact (initial ι start₁ start₂) := by
  intro a
  cases a <;> simp [holders, initial, TickArenas.users, TickArenas.initTickArenas,
    TickArena.initArena]

omit [DecidableEq ι] in
theorem usersExact_congr (hinv : UsersExact s) (hheld : s'.held = s.held)
    (husers : ∀ a, s'.arenas.users a = s.arenas.users a) : UsersExact s' := by
  intro a
  rw [husers a, hinv a, holders_congr hheld]

theorem usersExact_get {t : ι} (hcard : Fintype.card ι < 2 ^ 64) (hinv : UsersExact s)
    (h : step s (.get t) = some s') : UsersExact s' := by
  obtain ⟨hfree, hs'⟩ := step_get_iff.mp h
  have harenas : s'.arenas = s.arenas.getTickArena.2 := by rw [hs']
  have hheld : s'.held = Function.update s.held t (some s.arenas.currentTickArena) := by rw [hs']
  intro a
  have hholders := holders_acquire hfree hheld a
  have hle := holders_le_card s' a
  have hexact : s.arenas.users a = s.holders a := hinv a
  rw [harenas, TickArenas.users_getTickArena]
  by_cases ha : a = s.arenas.currentTickArena
  · rw [if_pos ha] at hholders
    rw [if_pos ha, hholders, hexact]
    exact sizeAdd_of_lt (by omega)
  · rw [if_neg ha] at hholders
    rw [if_neg ha, hholders, hexact, Nat.add_zero]

theorem sizeAdd_pred {n : ℕ} (hpos : 0 < n) (hlt : n < 2 ^ 64) :
    sizeAdd n (2 ^ 64 - 1) = n - 1 := by
  unfold sizeAdd
  omega

theorem sizeAdd_pred_ne (n : ℕ) : sizeAdd n (2 ^ 64 - 1) ≠ n := by
  unfold sizeAdd
  omega

/-- A return keeps the counters exact exactly when its arena is still the current one. -/
theorem usersExact_ret_iff {t : ι} (hcard : Fintype.card ι < 2 ^ 64) (hinv : UsersExact s)
    (h : step s (.ret t) = some s') :
    UsersExact s' ↔ s.held t = some s.arenas.currentTickArena := by
  obtain ⟨b, hheld, hs'⟩ := step_ret_iff.mp h
  have harenas : s'.arenas = s.arenas.returnTickArena b := by rw [hs']
  have hreleased : s'.held = Function.update s.held t none := by rw [hs']
  have hrel := holders_release hheld hreleased
  have husers := TickArenas.users_returnTickArena s.arenas (b := b)
  have hlt : ∀ a, s.arenas.users a < 2 ^ 64 := by
    intro a
    rw [hinv a]
    exact (holders_le_card s a).trans_lt hcard
  have hcur : s.held t = some s.arenas.currentTickArena ↔ b = s.arenas.currentTickArena := by
    simp [hheld]
  rw [hcur]
  constructor
  · intro hexact
    by_contra hne
    have hsame := hrel s.arenas.currentTickArena
    rw [if_neg (Ne.symm hne), Nat.add_zero] at hsame
    have hafter := hexact s.arenas.currentTickArena
    rw [harenas, husers, if_pos rfl, ← hsame, ← hinv] at hafter
    exact sizeAdd_pred_ne _ hafter
  · rintro hb a
    rw [harenas, husers]
    have ha := hrel a
    by_cases hac : a = s.arenas.currentTickArena
    · rw [if_pos (hac.trans hb.symm)] at ha
      rw [if_pos hac, sizeAdd_pred _ (hlt a)]
      · rw [hinv a, ha, Nat.add_sub_cancel]
      · rw [hinv a, ha]
        exact Nat.succ_pos _
    · rw [if_neg (fun h => hac (h.trans hb))] at ha
      rw [if_neg hac, hinv a, ha, Nat.add_zero]

/-- The other steps move neither a counter nor a holder. -/
theorem usersExact_step {e : TickEvent ι} (hcard : Fintype.card ι < 2 ^ 64)
    (hinv : UsersExact s) (h : step s e = some s')
    (hret : ReturnsCurrent ⟨s, e, s'⟩) : UsersExact s' := by
  cases e with
  | get t => exact usersExact_get hcard hinv h
  | ret t => exact (usersExact_ret_iff hcard hinv h).mpr (hret t rfl)
  | alloc t size =>
      obtain ⟨a, -, rfl⟩ := step_alloc_iff.mp h
      exact usersExact_congr hinv rfl fun b =>
        TickArenas.users_modify_afterAlloc _ _ _ _
  | swap =>
      obtain ⟨-, rfl⟩ := step_swap_iff.mp h
      exact usersExact_congr hinv rfl fun b => TickArenas.users_switchLocked _ _
  | wait =>
      obtain ⟨-, -, rfl⟩ := step_wait_iff.mp h
      exact usersExact_congr hinv rfl fun b => rfl
  | tickAlloc size =>
      obtain ⟨a, -, rfl⟩ := step_tickAlloc_iff.mp h
      exact usersExact_congr hinv rfl fun b =>
        TickArenas.users_modify_afterAlloc _ _ _ _

theorem countsExact_iff {e : TickEvent ι} (hcard : Fintype.card ι < 2 ^ 64)
    (hinv : UsersExact s) (h : step s e = some s') :
    CountsExact ⟨s, e, s'⟩ ↔ ReturnsCurrent ⟨s, e, s'⟩ := by
  constructor
  · rintro ⟨hexact, -⟩ t rfl
    exact (usersExact_ret_iff hcard hinv h).mp hexact
  · intro hret
    refine ⟨usersExact_step hcard hinv h hret, ?_⟩
    rintro t rfl
    have hpos : 0 < s.holders s.arenas.currentTickArena := holders_pos (hret t rfl)
    exact (hinv _).symm ▸ hpos

/-- The counters are exact throughout exactly the runs in which every arena is returned while
it is the current one. -/
theorem users_exact_iff_returns_current (hcard : Fintype.card ι < 2 ^ 64)
    (h : Run step (initial ι start₁ start₂) trace u) :
    (UsersExact (initial ι start₁ start₂) ∧ ∀ x ∈ trace, CountsExact x) ↔
      ∀ x ∈ trace, ReturnsCurrent x := by
  have hiff := h.forall_congr _ usersExact_initial (p := CountsExact) (q := ReturnsCurrent)
    (fun _ _ _ _ _ hcounts => hcounts.1) (fun _ _ _ hinv hstep => countsExact_iff hcard hinv hstep)
  rw [← hiff]
  exact and_iff_right usersExact_initial

/-- Two packets are processed within one tick, the counters are exact throughout. -/
theorem users_exact_overlapping_packets :
    let trace := replay step (initial (Fin 2) 0x100000000 0x200000000)
      [.swap, .get 0, .get 1, .ret 0, .ret 1, .wait]
    ∃ u, Run step (initial (Fin 2) 0x100000000 0x200000000) trace u ∧
      ∀ x ∈ trace, CountsExact x := by
  obtain ⟨u, hrun⟩ := run_replay step (initial (Fin 2) 0x100000000 0x200000000)
    [.swap, .get 0, .get 1, .ret 0, .ret 1, .wait]
  exact ⟨u, hrun, ((users_exact_iff_returns_current (by decide) hrun).mpr (by decide)).2⟩

/-- A switch lands between `get_tick_arena` and `return_tick_arena`: the counter of the second
arena, which nobody used, wraps. -/
theorem users_wrap_across_switch :
    ¬ ∀ (trace : List (Transition (TickState (Fin 1)) (TickEvent (Fin 1)))) u,
      Run step (initial (Fin 1) 0x100000000 0x200000000) trace u →
        ∀ x ∈ trace, CountsExact x := by
  intro h
  obtain ⟨u, hrun⟩ := run_replay step (initial (Fin 1) 0x100000000 0x200000000)
    [.get 0, .swap, .ret 0]
  exact absurd (h _ _ hrun) (by decide)

/-! ## The arena of the tick -/

/-- Between two switches the arena the last one returned is the current one. -/
def TickCurrent (s : TickState ι) : Prop :=
  ∀ a, s.game = .ticking (some a) → a = s.arenas.currentTickArena

omit [Fintype ι] [DecidableEq ι] in
theorem tickCurrent_initial : TickCurrent (initial ι start₁ start₂) := by
  intro a h
  simp [initial] at h

omit [Fintype ι] in
theorem tickCurrent_step {e : TickEvent ι} (hinv : TickCurrent s) (h : step s e = some s') :
    TickCurrent s' := by
  cases e with
  | get t => obtain ⟨-, rfl⟩ := step_get_iff.mp h; exact hinv
  | ret t => obtain ⟨b, -, rfl⟩ := step_ret_iff.mp h; exact hinv
  | alloc t size => obtain ⟨b, -, rfl⟩ := step_alloc_iff.mp h; exact hinv
  | swap =>
      obtain ⟨-, rfl⟩ := step_swap_iff.mp h
      intro a ha
      simp at ha
  | wait =>
      obtain ⟨-, -, rfl⟩ := step_wait_iff.mp h
      intro a ha
      simpa [eq_comm] using ha
  | tickAlloc size => obtain ⟨b, -, rfl⟩ := step_tickAlloc_iff.mp h; exact hinv

/-- With exact counters the wait finds the arena it returns unused. -/
theorem wait_unheld {a : ArenaId} (hinv : UsersExact s) (h : step s .wait = some s')
    (ha : s'.game = .ticking (some a)) : ∀ t, s.held t ≠ some a := by
  obtain ⟨-, hzero, rfl⟩ := step_wait_iff.mp h
  have hcur : s.arenas.currentTickArena = a := by simpa using ha
  subst hcur
  rw [← holders_eq_zero_iff, ← hinv, hzero]

theorem tickExclusive_of_step {e : TickEvent ι} (hexact : UsersExact s)
    (h : step s e = some s') (hget : NoGetDuringTick ⟨s, e, s'⟩) :
    TickExclusive ⟨s, e, s'⟩ := by
  refine ⟨?_, ?_⟩
  · rintro a rfl ha
    exact wait_unheld hexact h ha
  · intro t a he hgame
    exact absurd hgame (hget t a he)

omit [Fintype ι] in
/-- A get during the tick is handed the arena of the tick. -/
theorem noGetDuringTick_of_tickExclusive {e : TickEvent ι} (hcur : TickCurrent s)
    (h : step s e = some s') (hexcl : TickExclusive ⟨s, e, s'⟩) :
    NoGetDuringTick ⟨s, e, s'⟩ := by
  rintro t a rfl hgame
  obtain ⟨-, hs'⟩ := step_get_iff.mp h
  apply hexcl.unshared t a rfl hgame
  rw [hs', hcur a hgame]
  simp

/-- The arena `switch_tick_arenas` returns is exclusive in every run that returns arenas while
they are current and dispatches no packet between the return of a switch and the next swap; a
run that dispatches one there always shares the arena. -/
theorem tick_arena_exclusive (hcard : Fintype.card ι < 2 ^ 64)
    (h : Run step (initial ι start₁ start₂) trace u) :
    ((∀ x ∈ trace, ReturnsCurrent x ∧ NoGetDuringTick x) → ∀ x ∈ trace, TickExclusive x) ∧
      ((∀ x ∈ trace, TickExclusive x) → ∀ x ∈ trace, NoGetDuringTick x) := by
  constructor
  · intro hok x hx
    obtain ⟨hstep, hexact, -⟩ := h.guarded_transitions UsersExact ReturnsCurrent
      usersExact_initial (fun _ _ _ => usersExact_step hcard)
      (fun y hy => (hok y hy).1) x hx
    exact tickExclusive_of_step hexact hstep (hok x hx).2
  · intro hexcl x hx
    obtain ⟨hstep, hcur, -⟩ := h.guarded_transitions TickCurrent (fun _ => True)
      tickCurrent_initial
      (fun _ _ _ hinv hstep _ => tickCurrent_step hinv hstep) (fun _ _ => trivial) x hx
    exact noGetDuringTick_of_tickExclusive hcur hstep (hexcl x hx)

/-- A packet dispatched while the game loop waits leaves the arena of the tick exclusive. -/
theorem tick_arena_exclusive_packet_during_wait :
    let trace := replay step (initial (Fin 1) 0x100000000 0x200000000)
      [.swap, .get 0, .ret 0, .wait, .swap]
    ∃ u, Run step (initial (Fin 1) 0x100000000 0x200000000) trace u ∧
      ∀ x ∈ trace, TickExclusive x := by
  obtain ⟨u, hrun⟩ := run_replay step (initial (Fin 1) 0x100000000 0x200000000)
    [.swap, .get 0, .ret 0, .wait, .swap]
  exact ⟨u, hrun, (tick_arena_exclusive (by decide) hrun).1 (by decide)⟩

/-- A packet dispatched during the first tick is handed the arena of the tick. -/
theorem tick_arena_shared :
    ¬ ∀ (trace : List (Transition (TickState (Fin 1)) (TickEvent (Fin 1)))) u,
      Run step (initial (Fin 1) 0x100000000 0x200000000) trace u →
        ∀ x ∈ trace, TickExclusive x := by
  intro h
  obtain ⟨u, hrun⟩ := run_replay step (initial (Fin 1) 0x100000000 0x200000000)
    [.swap, .wait, .get 0]
  have hexcl := (tick_arena_exclusive (by decide) hrun).2 (h _ _ hrun)
  exact absurd hexcl (by decide)

end TickState

end CmcServer
