import CmcServer.Verification.ProtoDef.Writers
import Mathlib.Data.Int.ModEq

/-! # What writers spend

The writer of a sender may be given any size, since the configuration is not checked. Sizes wrap
around, but as long as the bytes of a layout fit an `int`, a writer fails or returns their number,
and it does not write behind them. -/

namespace CmcServer

/-! ## Sizes wrap around -/

theorem toInt32_modEq (x : ℤ) : toInt32 x ≡ x [ZMOD 2 ^ 32] := by
  rw [toInt32, Int.ModEq]
  exact Int.bmod_emod

theorem toInt32_of_modEq {x y : ℤ} (h : x ≡ y [ZMOD 2 ^ 32]) (hlo : 0 ≤ y) (hhi : y < 2 ^ 31) :
    toInt32 x = y := by
  have hbounds := toInt32_bounds x
  have hsame : toInt32 x ≡ y [ZMOD 2 ^ 32] := (toInt32_modEq x).trans h
  rw [Int.ModEq] at hsame
  generalize toInt32 x = z at hbounds hsame
  omega

theorem sizeSub_modEq (x : ℕ) {y : ℕ} (hy : y < 2 ^ 64) :
    (sizeSub x y : ℤ) ≡ x - y [ZMOD 2 ^ 32] := by
  have hsum : ((x + (2 ^ 64 - y) : ℕ) : ℤ) = x - y + 2 ^ 64 := by
    rw [Nat.cast_add, Nat.cast_sub hy.le]
    push_cast
    ring
  have hwrap : ((x + (2 ^ 64 - y) : ℕ) : ℤ) % (2 ^ 64 : ℕ) ≡ x - y + 2 ^ 64 [ZMOD 2 ^ 64] := by
    rw [hsum]
    exact Int.mod_modEq _ _
  rw [sizeSub, Nat.mod_eq_of_lt hy, Int.natCast_mod]
  have hsmall := hwrap.of_dvd (show (2 : ℤ) ^ 32 ∣ 2 ^ 64 from pow_dvd_pow 2 (by decide))
  exact hsmall.trans (Int.modEq_iff_dvd.mpr ⟨-2 ^ 32, by ring⟩)

namespace ProtoDef

open Bytes EarlyReturn

section

variable (limit : ℕ) (m : Loc → ℤ) (sizeof : Ty → ℕ)

/-- Of the size `start`, modulo `2 ^ 32`, `used` bytes are spent, and nothing behind them is
accessed. -/
structure Spent (start : ℤ) (used : ℕ) (s : Core) : Prop where
  mem_eq : s.mem = m
  size_eq : s.size ≡ start - used [ZMOD 2 ^ 32]
  data_le : s.data ≤ used
  touched_le : s.touched ≤ used

/-- A statement that returns or spends `n` bytes, unless the limit is in the way. -/
def Spends (c : Cmd) (env : Env) (n : ℕ) : Prop :=
  ∀ start used, used + n ≤ limit →
    Triple (Spent m start used) (exec sizeof c env) (Spent m start (used + n)) (·.touched ≤ limit)

end

variable {limit : ℕ} {m : Loc → ℤ} {sizeof : Ty → ℕ} {env : Env} {c d : Cmd} {start : ℤ}
  {used n k : ℕ} {s : Core}

theorem Spent.le (h : Spent m start used s) (hle : used + n ≤ limit) : s.touched ≤ limit := by
  have htouched := h.touched_le
  omega

theorem Spent.size (h : Spent m start used s) {room : ℤ} (hroom : room = n) :
    toInt32 (s.size - room) ≡ start - (used + n : ℕ) [ZMOD 2 ^ 32] := by
  rw [hroom, Nat.cast_add, ← sub_sub]
  exact (toInt32_modEq _).trans (h.size_eq.sub_right _)

theorem Spent.write {bytes : List UInt8} {s' : Core} (h : Spent m start used s)
    (hwrote : Wrote bytes s { s' with size := s.size })
    (hsize : s'.size ≡ start - (used + bytes.length : ℕ) [ZMOD 2 ^ 32]) :
    Spent m start (used + bytes.length) s' := by
  have hdata := hwrote.data
  have htouched := hwrote.touched
  have hle := s.touch_le bytes.length
  have hbefore := h.touched_le
  have hat := h.data_le
  dsimp only at hdata htouched
  exact ⟨hwrote.mem.trans h.mem_eq, hsize, by omega, by omega⟩

theorem spends_skip : Spends limit m sizeof .skip env 0 := fun _ _ _ _ hs => hs

theorem Spends.seq (hc : Spends limit m sizeof c env n) (hd : Spends limit m sizeof d env k) :
    Spends limit m sizeof (.seq c d) env (n + k) := by
  intro start used hle
  rw [← Nat.add_assoc] at hle ⊢
  exact (hc start used (by omega)).seq (hd start (used + n) hle)

theorem Spends.ite {test : Test} {b : Bool} (htest : ∀ s, s.mem = m → test.holds env s = b)
    (hc : b = true → Spends limit m sizeof c env n)
    (hd : b = false → Spends limit m sizeof d env n) :
    Spends limit m sizeof (.ite test c d) env n := by
  intro start used hle s hs
  rw [exec, htest s hs.mem_eq]
  cases b with
  | true => exact hc rfl start used hle s hs
  | false => exact hd rfl start used hle s hs

theorem spends_checked {room : ℤ} {bytes : List UInt8} (hlen : (bytes.length : ℤ) = room)
    (hcode : ∀ s, s.mem = m → ∃ s', exec sizeof c env s = .next s' ∧ Charged room bytes s s') :
    Spends limit m sizeof (.seq (.checkSize room) c) env bytes.length := by
  intro start used hle s hs
  simp only [exec]
  split
  · exact hs.le hle
  · rcases hcode s hs.mem_eq with ⟨s', hs', hcharged⟩
    rw [Outcome.next_bind, hs']
    refine hs.write hcharged.wrote ?_
    rw [hcharged.size]
    exact hs.size hlen.symm

theorem spends_reserved {room : ℤ} (hroom : 0 ≤ room) :
    Spends limit m sizeof (.seq (.checkSize room) (.subSize room)) env room.toNat := by
  intro start used hle s hs
  simp only [exec]
  split
  · exact hs.le hle
  · have hdata := hs.data_le
    have htouched := hs.touched_le
    exact ⟨hs.mem_eq, hs.size (Int.toNat_of_nonneg hroom).symm, by dsimp only; omega,
      by dsimp only; omega⟩

theorem spends_varint {native : Native} {place : LVal} (hnative : native ≠ .nbt)
    (hlo : 0 ≤ m (place.loc env)) (hhi : m (place.loc env) < 2 ^ 63) :
    Spends limit m sizeof (.variable .write native place) env
      (Base128.encode (m (place.loc env)).toNat).length := by
  intro start used _ s hs
  have hmem := hs.mem_eq
  subst hmem
  rw [exec, writeVariable_varint hnative hlo hhi]
  exact hs.write ⟨rfl, rfl, rfl, rfl, rfl⟩ (hs.size rfl)

theorem spends_nbt {place : LVal} : Spends limit m sizeof (.variable .write .nbt place) env n := by
  intro start used hle s hs
  rw [exec, writeVariable, if_pos rfl]
  exact hs.le hle

theorem Spent.returned {s' : Core} (h : Spent m start used s) (h' : Spent m start (used + n) s')
    (hn : n < 2 ^ 31) : toInt32 (s.size - s'.size) = n := by
  refine toInt32_of_modEq ?_ (Int.natCast_nonneg _) (by exact_mod_cast hn)
  have hdiff := h.size_eq.sub h'.size_eq
  rwa [Nat.cast_add, sub_sub_sub_cancel_left, add_sub_cancel_left] at hdiff

theorem spends_call (hlimit : limit < 2 ^ 31) {body : Cmd} {place : LVal}
    (hbody : Spends limit m sizeof body ⟨place.loc env, fun _ => 0⟩ n) :
    Spends limit m sizeof (.call body place) env n := by
  intro start used hle s hs
  have hends := hbody start used hle s hs
  rw [exec]
  revert hends
  cases exec sizeof body ⟨place.loc env, fun _ => 0⟩ s with
  | next s' =>
      intro hs'
      have hdata := hs.data_le
      rw [finish, hs.returned hs' (by omega), resume, if_neg (by omega)]
      exact ⟨hs'.mem_eq, hs.size rfl, by dsimp only; omega, hs'.touched_le⟩
  | ret s' =>
      intro htouched
      rw [finish, resume, if_pos (by decide)]
      exact htouched
  | diverge => exact id

theorem spends_counted (hlimit : limit < 2 ^ 31) {length : Len} {size room : ℤ}
    {bytes : List UInt8} (hproduct : ∀ s, s.mem = m → length.product env s size = room)
    (hlen : bytes.length < 2 ^ 31 → room = bytes.length)
    (hcode : ∀ s, s.mem = m → ∃ s', exec sizeof c env s = .next s' ∧ Wrote bytes s s') :
    Spends limit m sizeof
      (.seq (.seq (.checkCount length size) (.subCount length size)) c) env bytes.length := by
  intro start used hle s hs
  simp only [exec]
  split
  · exact hs.le hle
  · rcases hcode { s with
      size := toInt32 (s.size - room)
      counts := (length.value env s, size) :: s.counts } hs.mem_eq with ⟨s', hs', hwrote⟩
    simp only [Outcome.next_bind]
    rw [hproduct { s with counts := (length.value env s, size) :: s.counts } hs.mem_eq, hs']
    refine hs.write ⟨hwrote.data, rfl, hwrote.mem, hwrote.buffer, hwrote.touched⟩ ?_
    rw [hwrote.size]
    exact hs.size (hlen (by omega))

theorem spends_loop {i : ℕ} {length : Len} {pieces : ℕ → List Piece}
    (hmore : ∀ (j : ℕ) s, s.mem = m →
      (decide ((j : ℤ) < length.value (env.bind i j) s) = true ↔ j < n))
    (hn : n < 2 ^ 63)
    (hc : ∀ j < n, Spends limit m sizeof c (env.bind i j) (usedBy (pieces j))) :
    Spends limit m sizeof (.loop i length c) env (usedBy ((List.range n).flatMap pieces)) := by
  intro start used hle
  have hfuel := lt_loopFuel
  set spent := fun j => usedBy ((List.range j).flatMap pieces) with hspent
  have hstep : ∀ j, spent (j + 1) = spent j + usedBy (pieces j) := by
    intro j
    simp only [hspent, List.range_succ, List.flatMap_append, List.flatMap_singleton,
      usedBy_append]
  have hmono : Monotone spent := monotone_nat_of_le_succ fun j => by
    rw [hstep]
    exact Nat.le_add_right _ _
  have hbody : ∀ j, Triple
      (fun s => (j ≤ n ∧ Spent m start (used + spent j) s) ∧
        decide ((j : ℤ) < length.value (env.bind i j) s) = true)
      (exec sizeof c (env.bind i j))
      (fun s => j + 1 ≤ n ∧ Spent m start (used + spent (j + 1)) s) (·.touched ≤ limit) := by
    rintro j s ⟨⟨-, hs⟩, hgo⟩
    have hj := (hmore j s hs.mem_eq).mp hgo
    have hbelow : spent (j + 1) ≤ spent n := hmono hj
    have hlast : used + spent n ≤ limit := hle
    rw [hstep] at hbelow
    refine (hc j hj start (used + spent j) (by omega) s hs).mono fun s' hs' => ⟨hj, ?_⟩
    rwa [hstep, ← Nat.add_assoc]
  have hloop := Triple.loop (fun j s hs hgo => (hmore j s hs.2.mem_eq).mp hgo) hbody
    (show n < loopFuel + 0 by omega) (Nat.zero_le n)
  rw [exec_loop]
  refine hloop.mono (fun s hs => ⟨Nat.zero_le n, hs⟩) ?_
  rintro s ⟨j, ⟨hj, hs⟩, hdone⟩
  have hlast : ¬ j < n := by
    rw [← hmore j s hs.mem_eq, hdone]
    exact Bool.false_ne_true
  have hjn : j = n := by omega
  rwa [hjn] at hs

variable (m sizeof) in
/-- A writer spends the bytes of its layout, as long as they fit an `int`. -/
theorem spends_rules (hlimit : limit < 2 ^ 31) :
    WriterRules m sizeof fun c env pieces => Spends limit m sizeof c env (usedBy pieces) where
  congr h hd := by
    intro start used hle s hs
    rw [h]
    exact hd start used hle s hs
  skip _ := spends_skip
  seq hc hd := by
    rw [usedBy_append]
    exact hc.seq hd
  ite := Spends.ite
  checked := spends_checked
  reserved _ hn := spends_reserved hn
  dropped _ _ := spends_skip
  varint hn hlo hhi := spends_varint hn hlo hhi
  nbt _ _ _ := spends_nbt
  call _ hbody := by
    rw [usedBy_append]
    exact spends_call hlimit hbody
  counted := spends_counted hlimit
  loop := spends_loop

/-- A call of a writer returns what it spent, or -1. -/
theorem Spends.callFunction (hlimit : limit < 2 ^ 31) {packet : Loc}
    (hc : Spends limit m sizeof c ⟨packet, fun _ => 0⟩ n) (hs : Spent m start used s)
    (hle : used + n ≤ limit) :
    ∃ ret s', callFunction sizeof c packet s = some (ret, s') ∧ s'.touched ≤ limit ∧
      (ret = -1 ∨ ret = n) := by
  have hends := hc start used hle s hs
  rw [ProtoDef.callFunction]
  revert hends
  cases exec sizeof c ⟨packet, fun _ => 0⟩ s with
  | next s' =>
      intro hs'
      exact ⟨_, s', rfl, hs'.touched_le.trans hle, Or.inr (hs.returned hs' (by omega))⟩
  | ret s' => exact fun htouched => ⟨-1, s', rfl, htouched, Or.inl rfl⟩
  | diverge => exact fun hfalse => hfalse.elim

theorem generateWrite_spends (hlimit : limit < 2 ^ 31) (rnd : String → ℕ → ℕ)
    (nbt : Loc → List UInt8) (name : String) {t : Ty} (hbuilt : t.Built)
    (hvar : t.isVariable = true) (hfresh : t.Fresh rnd name [] 0) {packet : Loc}
    (hvalue : t.IsValue m ⟨packet, []⟩) :
    Spends limit m sizeof (generateWrite rnd name t) ⟨packet, fun _ => 0⟩
      (usedBy (t.layout nbt m ⟨packet, []⟩)) := by
  have hspends := t.writes (spends_rules m sizeof hlimit) rnd nbt hbuilt hvar hfresh
    (uses_sourceOf t []) (shaped_sourceOf t) ⟨packet, fun _ => 0⟩ (by rwa [spot_sourceOf])
  rwa [spot_sourceOf] at hspends

/-! ## Packet ids -/

theorem spent_sender (size : ℕ) (buffer : ℕ → UInt8) (pid : List UInt8)
    (hpid : pid.length < 2 ^ 64) :
    Spent m size pid.length
      { buffer := store buffer 0 pid
        data := pid.length
        size := toInt32 (sizeSub size pid.length)
        arena := TickArena.initArena 0
        mem := m
        touched := pid.length
        counts := [] } := by
  have hsize := (toInt32_modEq (sizeSub size pid.length)).trans (sizeSub_modEq size hpid)
  constructor
  · rfl
  · dsimp only
    exact hsize
  · dsimp only
    exact le_refl _
  · dsimp only
    exact le_refl _

end ProtoDef

end CmcServer
