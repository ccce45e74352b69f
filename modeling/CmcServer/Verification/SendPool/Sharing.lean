import CmcServer.Lib.Conservation
import CmcServer.Model.SendPool
import CmcServer.Verification.SendPool.Arrays
import CmcServer.Verification.SpinLock.Exclusion

/-! # Send buffers shared by threads

Any number of threads get, return and hand over send buffers. Under the spin lock getting and
returning are single steps on the list of free buffers, and each of these leaves every buffer in
one place. -/

namespace CmcServer

open Runs Conservation CriticalSection

/-- Where a buffer can be. -/
inductive BufferPlace (ι : Type) where
  | pool
  | away
  | hand (thread : ι)
  deriving DecidableEq

namespace SendPool

variable {ι : Type}

def contents (pool : SendPool) (held : ι → List BufId) : BufferPlace ι → List BufId
  | .pool => pool.1.contents
  | .away => pool.2.away
  | .hand t => held t

/-- The array is intact and every buffer ever mapped is in one place. -/
structure Accounted (pool : SendPool) (held : ι → List BufId) : Prop where
  valid : pool.1.Valid
  stored : Stored pool.2.mapped (contents pool held)

theorem accounted_initial : Accounted initial fun _ : ι => [] where
  valid := StbArray.valid_null
  stored := by
    have hempty : contents initial (fun _ : ι => []) = fun _ => [] := by
      funext place
      cases place <;> rfl
    rw [hempty]
    exact .empty

/-! ## Sections -/

theorem run_getLocked {array : StbArray BufId} (h : array.Valid) (l : Hands) :
    (getLocked l).run array =
      if array.length = 0 then ({ l with mapping := true }, array)
      else
        ({ l with held := (StbArray.arrpop.run array).1 :: l.held },
          (StbArray.arrpop.run array).2) := by
  simp only [getLocked, Prog.run_bind, Prog.run_load, Prog.run_ite, Prog.run_pure, h.arrlen_eq]

theorem run_returnLocked (array : StbArray BufId) (b : BufId) (l : Hands) :
    (returnLocked b l).run array =
      ({ l with held := l.held.erase b }, ((StbArray.arrput b).run array).2) := by
  simp only [returnLocked, Prog.run_bind, Prog.run_pure]

/-! ## Steps -/

variable [DecidableEq ι] {a b : Sections ι SendPool Hands} {t : ι}

def heldBy (a : Sections ι SendPool Hands) (t : ι) : List BufId := (a.loc t).held

theorem heldBy_update (pool : SendPool) (loc : ι → Hands) (l : Hands) {v : ι} (hv : v ≠ t) :
    heldBy { data := pool, loc := Function.update loc t l } v = (loc v).held := by
  simp [heldBy, hv]

theorem Accounted.same {pool : SendPool} {l : Hands} (h : Accounted pool (heldBy a))
    (hl : l.held = (a.loc t).held) :
    Accounted pool (heldBy { data := pool, loc := Function.update a.loc t l }) := by
  have hheld : heldBy { data := pool, loc := Function.update a.loc t l } = heldBy a := by
    funext v
    by_cases hv : v = t
    · subst hv
      simpa [heldBy] using hl
    · exact heldBy_update pool a.loc l hv
  rwa [hheld]

omit [DecidableEq ι] in
/-- A buffer moves between a thread and another place. -/
theorem Accounted.move {pool pool' : SendPool} {held held' : ι → List BufId} (t : ι)
    (place : BufferPlace ι) (x : BufId) (h : Accounted pool held) (hvalid : pool'.1.Valid)
    (hmapped : pool'.2.mapped = pool.2.mapped) (hplace : ∀ v, place ≠ .hand v)
    (hheld : ∀ v, v ≠ t → held' v = held v)
    (hpool : place ≠ .pool → pool'.1.contents = pool.1.contents)
    (haway : place ≠ .away → pool'.2.away = pool.2.away)
    (hmoved : ((held t).Perm (x :: held' t) ∧
        (contents pool' held' place).Perm (x :: contents pool held place)) ∨
      ((contents pool held place).Perm (x :: contents pool' held' place) ∧
        (held' t).Perm (x :: held t))) : Accounted pool' held' where
  valid := hvalid
  stored := by
    have hrest : ∀ p, p ≠ place → p ≠ .hand t → contents pool' held' p = contents pool held p := by
      intro p hp ht
      cases p with
      | hand v => exact hheld v fun hv => ht (by rw [hv])
      | pool => exact hpool hp.symm
      | away => exact haway hp.symm
    rw [hmapped]
    rcases hmoved with ⟨hfrom, hto⟩ | ⟨hfrom, hto⟩
    · exact h.stored.move (hplace t).symm hfrom hto fun p ht hp => hrest p hp ht
    · exact h.stored.move (hplace t) hfrom hto hrest

theorem Accounted.locked {call : PoolCall} (h : Accounted a.data (heldBy a))
    (hstep : a.step client (.locked t call) = some b) : Accounted b.data (heldBy b) := by
  rcases Option.map_eq_some_iff.mp hstep with ⟨body, hbody, rfl⟩
  have hvalid := h.valid
  cases call with
  | get =>
      rcases Option.ite_none_left_eq_some.mp hbody with ⟨-, hbody⟩
      cases hbody
      simp only [Prog.run_left, run_getLocked hvalid]
      split
      case isTrue =>
        exact h.same rfl
      case isFalse hne =>
        have hpop := hvalid.arrpop hne
        refine h.move t .pool (StbArray.arrpop.run a.data.1).1 hpop.1 rfl (by simp)
          (fun v hv => heldBy_update _ _ _ hv) (fun hp => absurd rfl hp) (fun _ => rfl)
          (.inr ⟨?_, ?_⟩)
        · rw [contents, hpop.2]
          exact List.perm_append_singleton _ _
        · simp [heldBy]
  | giveBack x =>
      rcases Option.ite_none_left_eq_some.mp hbody with ⟨hhas, hbody⟩
      rw [not_or, not_not] at hhas
      cases hbody
      simp only [Prog.run_left, run_returnLocked]
      have hput := hvalid.arrput x
      refine h.move t .pool x hput.1 rfl (by simp) (fun v hv => heldBy_update _ _ _ hv)
        (fun hp => absurd rfl hp) (fun _ => rfl) (.inl ⟨?_, ?_⟩)
      · simpa [heldBy] using List.perm_cons_erase hhas.2
      · rw [contents, hput.2]
        exact List.perm_append_singleton _ _

theorem Accounted.unlocked {act : PoolAct} (h : Accounted a.data (heldBy a))
    (hstep : a.step client (.unlocked t act) = some b) : Accounted b.data (heldBy b) := by
  rcases Option.map_eq_some_iff.mp hstep with ⟨⟨l, pool⟩, hact, rfl⟩
  rcases Option.map_eq_some_iff.mp hact with ⟨⟨l', loans⟩, hloan, hsame⟩
  cases hsame
  cases act with
  | mmap fails =>
      rcases Option.ite_none_left_eq_some.mp hloan with ⟨-, hloan⟩
      split at hloan
      case isTrue =>
        cases hloan
        exact h.same rfl
      case isFalse =>
        cases hloan
        refine ⟨h.valid, h.stored.make (p := .hand t) ?_ fun p hp => ?_⟩
        · simp [contents, heldBy]
        · cases p with
          | pool => rfl
          | away => rfl
          | hand v => exact heldBy_update _ _ _ fun hv => hp (by rw [hv])
  | lend x =>
      rcases Option.ite_none_left_eq_some.mp hloan with ⟨hhas, hloan⟩
      rw [not_or, not_not] at hhas
      cases hloan
      refine h.move t .away x h.valid rfl (by simp) (fun v hv => heldBy_update _ _ _ hv)
        (fun _ => rfl) (fun hp => absurd rfl hp) (.inl ⟨?_, List.Perm.refl _⟩)
      simpa [heldBy] using List.perm_cons_erase hhas.2
  | collect x =>
      rcases Option.ite_none_left_eq_some.mp hloan with ⟨hhas, hloan⟩
      rw [not_or, not_not] at hhas
      cases hloan
      refine h.move t .away x h.valid rfl (by simp) (fun v hv => heldBy_update _ _ _ hv)
        (fun _ => rfl) (fun hp => absurd rfl hp) (.inr ⟨List.perm_cons_erase hhas.2, ?_⟩)
      simp [heldBy]

theorem run_accounted {trace : List (Transition (Sections ι SendPool Hands)
      (Sections.Event ι PoolCall PoolAct))}
    (h : Run (Sections.step client) { data := initial, loc := fun _ => ⟨[], false⟩ } trace a) :
    Accounted a.data (heldBy a) := by
  refine h.invariant (fun a => Accounted a.data (heldBy a)) accounted_initial ?_
  intro a e b hinv hstep
  cases e with
  | unlocked t act => exact hinv.unlocked hstep
  | locked t call => exact hinv.locked hstep

/-! ## The pool of the server -/

/-- The send buffers of `BufferPools`. -/
structure Represents (pool : SendPool) (pools : BufferPools) : Prop where
  valid : pool.1.Valid
  free : pools.free .protocolSend = pool.1.contents.reverse
  mapped : pools.mapped = pool.2.mapped

/-- A `buffer_pool_get_protocol_send` that nobody gets in between of. -/
def getAlone (a : Sections ι SendPool Hands) (t : ι) : Option (Sections ι SendPool Hands) :=
  (a.step client (.locked t .get)).bind fun a =>
    if (a.loc t).mapping then a.step client (.unlocked t (.mmap false)) else some a

theorem Represents.get {pools : BufferPools} (h : Represents a.data pools)
    (hidle : (a.loc t).mapping = false) (config : ServerConfig) :
    ∃ b, getAlone a t = some b ∧
      (b.loc t).held = (pools.bufferPoolGetProtocolSend config).1 :: (a.loc t).held ∧
      Represents b.data (pools.bufferPoolGetProtocolSend config).2 := by
  have hlocked : a.step client (.locked t .get) =
      some { data := (((getLocked (a.loc t)).run a.data.1).2, a.data.2)
             loc := Function.update a.loc t ((getLocked (a.loc t)).run a.data.1).1 } := by
    simp [Sections.step, client, locked, hidle]
  by_cases hempty : a.data.1.length = 0
  · have hfree : pools.free .protocolSend = [] := by
      rw [h.free, List.reverse_eq_nil_iff, ← List.length_eq_zero_iff, h.valid.length_contents]
      exact hempty
    have halone : getAlone a t = some
        { data := (a.data.1, { a.data.2 with mapped := a.data.2.mapped + 1 })
          loc := Function.update a.loc t
            { held := a.data.2.mapped :: (a.loc t).held, mapping := false } } := by
      rw [getAlone, hlocked, run_getLocked h.valid, if_pos hempty]
      simp [Sections.step, client, loanStep]
    refine ⟨_, halone, ?_, ?_⟩
    · simp [BufferPools.bufferPoolGetProtocolSend, BufferPools.get, hfree, h.mapped]
    · rw [BufferPools.bufferPoolGetProtocolSend, BufferPools.get, hfree]
      exact ⟨h.valid, h.free, congrArg (· + 1) h.mapped⟩
  · have hpop := h.valid.arrpop hempty
    have hfree : pools.free .protocolSend = (StbArray.arrpop.run a.data.1).1 ::
        (StbArray.arrpop.run a.data.1).2.contents.reverse := by
      rw [h.free, hpop.2, List.reverse_append, List.reverse_singleton, List.singleton_append]
    have halone : getAlone a t = some
        { data := ((StbArray.arrpop.run a.data.1).2, a.data.2)
          loc := Function.update a.loc t { a.loc t with
            held := (StbArray.arrpop.run a.data.1).1 :: (a.loc t).held } } := by
      simp [getAlone, hlocked, run_getLocked h.valid, hempty, hidle]
    refine ⟨_, halone, ?_, hpop.1, ?_, ?_⟩
    · simp [BufferPools.bufferPoolGetProtocolSend, BufferPools.get, hfree]
    · simp [BufferPools.bufferPoolGetProtocolSend, BufferPools.get, hfree]
    · simpa [BufferPools.bufferPoolGetProtocolSend, BufferPools.get, hfree] using h.mapped

theorem Represents.giveBack {pools : BufferPools} (h : Represents a.data pools) {x : BufId}
    (hidle : (a.loc t).mapping = false) (hhas : x ∈ (a.loc t).held) :
    ∃ b, a.step client (.locked t (.giveBack x)) = some b ∧
      (b.loc t).held = (a.loc t).held.erase x ∧
      Represents b.data (pools.bufferPoolReturnProtocolSend x) := by
  have hput := h.valid.arrput x
  have hstep : a.step client (.locked t (.giveBack x)) = some
      { data := (((StbArray.arrput x).run a.data.1).2, a.data.2)
        loc := Function.update a.loc t { a.loc t with held := (a.loc t).held.erase x } } := by
    simp [Sections.step, client, locked, hidle, hhas, run_returnLocked]
  refine ⟨_, hstep, by simp, hput.1, ?_, h.mapped⟩
  simp [hput.2, BufferPools.bufferPoolReturnProtocolSend, BufferPools.giveBack, h.free]

/-! ## Threads -/

theorem locked_left {call : PoolCall} {l : Hands} {body : Prog SendPool Hands}
    (h : client.locked call l = some body) :
    ∃ p : Prog (StbArray BufId) Hands, body = p.left := by
  cases call with
  | get =>
      rcases Option.ite_none_left_eq_some.mp h with ⟨-, h⟩
      exact ⟨_, (Option.some.inj h).symm⟩
  | giveBack x =>
      rcases Option.ite_none_left_eq_some.mp h with ⟨-, h⟩
      exact ⟨_, (Option.some.inj h).symm⟩

theorem disciplined : Threads.Disciplined client := by
  intro call l body hbody act l'
  rcases locked_left hbody with ⟨p, rfl⟩
  exact p.unaffected_left

/-- The buffers of a thread that is not in the middle of a section. -/
def hands (s : Threads (spinLock ι) SendPool Hands PoolCall) (t : ι) : List BufId :=
  match s.mode t with
  | .idle l => l.held
  | .waiting l _ => l.held
  | .inside _ => []

/-- No buffer is in two hands, or in a hand and in a request in flight. While the lock is free, the
array is intact and each buffer that was ever mapped is in one place. -/
structure Shared (s : Threads (spinLock ι) SendPool Hands PoolCall) : Prop where
  nodup : ∀ t, (hands s t).Nodup
  apart : ∀ t v, ∀ b ∈ hands s t, b ∈ hands s v → t = v
  away : ∀ t, ∀ b ∈ hands s t, b ∉ s.data.2.away
  free : s.lock.locked = false → Accounted s.data (hands s)

theorem send_pool_shared {s : Threads (spinLock ι) SendPool Hands PoolCall}
    {trace : List (Transition (Threads (spinLock ι) SendPool Hands PoolCall)
      (Threads.Event (spinLock ι) PoolCall PoolAct))}
    (h : Run (Threads.step client)
      (Threads.initial (SpinState.initial ι) initial fun _ => ⟨[], false⟩) trace s) :
    Shared s := by
  rcases Threads.run_settles_of_disciplined disciplined (SpinState.sound_initial)
    (fun _ => rfl) h with ⟨trace', a, hrun, ⟨hcoupled, hsettles⟩, -⟩
  have haccounted := run_accounted hrun
  have hhands : ∀ t, (∀ rest, s.mode t ≠ .inside rest) → hands s t = heldBy a t := by
    intro t hout
    rw [hands, heldBy, hsettles.loc t]
    cases hmode : s.mode t with
    | idle l => rfl
    | waiting l call => rfl
    | inside rest => exact absurd hmode (hout rest)
  have hmem : ∀ t, ∀ b ∈ hands s t, b ∈ heldBy a t := by
    intro t b hb
    rw [← hhands t]
    · exact hb
    · intro rest hmode
      rw [hands, hmode] at hb
      cases hb
  have hloans : a.data.2 = s.data.2 := by
    by_cases hin : ∃ t rest, s.mode t = .inside rest
    · rcases hin with ⟨t, rest, hmode⟩
      have hleft := Threads.run_rests (p := fun rest => ∃ p : Prog (StbArray BufId) Hands,
        rest = p.left) (fun _ _ _ => locked_left) (fun _ _ d hstep => Prog.left_next hstep d) h
      rcases hleft t rest hmode with ⟨p, rfl⟩
      rw [hsettles.inside t _ hmode, Prog.run_left]
    · rw [hsettles.free fun t rest hmode => hin ⟨t, rest, hmode⟩]
  have hstored := haccounted.stored
  refine ⟨fun t => ?_, fun t v b ht hv => ?_, fun t b ht haway => ?_, fun hunlocked => ?_⟩
  · by_cases hin : ∃ rest, s.mode t = .inside rest
    · rcases hin with ⟨rest, hmode⟩
      rw [hands, hmode]
      exact List.nodup_nil
    · rw [hhands t fun rest hmode => hin ⟨rest, hmode⟩]
      exact hstored.nodup (.hand t)
  · have hsame := hstored.unique (.hand t) (.hand v) b (hmem t b ht) (hmem v b hv)
    exact BufferPlace.hand.inj hsame
  · have hsame := hstored.unique (.hand t) .away b (hmem t b ht)
      (show b ∈ a.data.2.away by rwa [hloans])
    cases hsame
  · have hout : ∀ t rest, s.mode t ≠ .inside rest := by
      intro t rest hmode
      have hholds := of_decide_eq_true ((hcoupled.holds t).mpr ⟨rest, hmode⟩)
      have hlocked := SpinState.Sound.locked hcoupled.sound t hholds
      rw [hunlocked] at hlocked
      cases hlocked
    rw [← hsettles.free hout, show hands s = heldBy a from funext fun t => hhands t (hout t)]
    exact haccounted

/-- Two threads find the pool empty and map buffers, the second one before the first. The first
returns its buffer while the second puts its own in a request. -/
def twoThreads : List (Transition (Threads (spinLock ℕ) SendPool Hands PoolCall)
    (Threads.Event (spinLock ℕ) PoolCall PoolAct)) :=
  replay (Threads.step client)
    (Threads.initial (SpinState.initial ℕ) initial fun _ => ⟨[], false⟩)
    [.call 0 .get, .lock (.compareExchangeWeak 0 true), .lock (.load 0),
      .lock (.compareExchangeWeak 0 false), .call 1 .get, .lock (.compareExchangeWeak 1 false),
      .access 0, .lock (.load 1), .lock (.store 0), .lock (.load 1),
      .lock (.compareExchangeWeak 1 false), .access 1, .lock (.store 1), .unlocked 1 (.mmap false),
      .unlocked 0 (.mmap false), .call 0 (.giveBack 1), .lock (.compareExchangeWeak 0 false),
      .access 0, .access 0, .unlocked 1 (.lend 0), .access 0, .access 0, .access 0,
      .lock (.store 0)]

theorem send_pool_shared_two :
    ∃ s, Run (Threads.step client)
        (Threads.initial (SpinState.initial ℕ) initial fun _ => ⟨[], false⟩) twoThreads s ∧
      s.data.1.contents = [1] ∧ s.data.2.away = [0] ∧ Accounted s.data (hands s) := by
  have hruns : ∃ s, Run (Threads.step client)
      (Threads.initial (SpinState.initial ℕ) initial fun _ => ⟨[], false⟩) twoThreads s :=
    run_replay ..
  rcases hruns with ⟨s, hrun⟩
  have hlast : ∃ x ∈ twoThreads.getLast?, x.post.lock.locked = false ∧
      x.post.data.1.contents = [1] ∧ x.post.data.2.away = [0] := by
    decide +kernel
  rcases hlast with ⟨x, hx, hunlocked, hpool, haway⟩
  rw [← hrun.eq_last hx] at hunlocked hpool haway
  exact ⟨s, hrun, hpool, haway, (send_pool_shared hrun).free hunlocked⟩

end SendPool

end CmcServer
