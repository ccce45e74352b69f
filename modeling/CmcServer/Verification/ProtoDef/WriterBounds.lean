import CmcServer.Model.Sender
import CmcServer.Verification.ProtoDef.Scopes
import CmcServer.Verification.ProtoDef.Spending
import CmcServer.Verification.ProtoDef.Walks

/-! # Generated writers and the end of the buffer

When a generated writer stays inside its buffer and returns the length of the encoding. -/

namespace CmcServer.ProtoDef

open Bytes EarlyReturn

section

variable {size : ℕ} {m : Loc → ℤ}

/-! ## The end of the buffer -/

/-- What the call of a writer in a buffer of `size` bytes has to do for an encoding of `len`
bytes. -/
def WriterSafe (size len : ℕ) (buffer : ℕ → UInt8) (result : Option (ℤ × Core)) : Prop :=
  ∃ ret s, result = some (ret, s) ∧ s.touched ≤ size ∧ (∀ i, size ≤ i → s.buffer i = buffer i) ∧
    (ret = -1 ↔ size < len) ∧ (ret ≠ -1 → ret = len)

/-- No piece before the first check that fails overruns the buffer. Without such a check the
pieces account for `len` bytes that fit, and a check fails only if `len` bytes do not fit. -/
def WriterFits (size len : ℕ) (buffer : ℕ → UInt8) (pieces : List Piece) : Prop :=
  match walk size pieces ⟨0, 0, buffer⟩ with
  | .done w => w.used = len ∧ len ≤ size
  | .fails => size < len
  | .overruns => False

theorem sync_start (m : Loc → ℤ) (size : ℕ) (buffer : ℕ → UInt8) (arena : TickArena) :
    Sync size m ⟨0, 0, buffer⟩ (Core.start buffer size arena m) where
  size_eq := by simp [Core.start]
  data_eq := rfl
  buffer_eq := store_nil _ _
  mem_eq := rfl
  touched_le := Nat.zero_le _
  room := Or.inl rfl
  data_le := le_refl _
  used_le := Nat.zero_le _

theorem writerSafe_iff (hsize : size < 2 ^ 31) {len : ℕ} {pieces : List Piece}
    {buffer : ℕ → UInt8} {result : Option (ℤ × Core)}
    (hreturns : Returns size m pieces result (walk size pieces ⟨0, 0, buffer⟩))
    (hkept : ∀ ret s, result = some (ret, s) → ∀ i, s.touched ≤ i → s.buffer i = buffer i) :
    WriterSafe size len buffer result ↔ WriterFits size len buffer pieces := by
  rw [WriterFits]
  cases hwalk : walk size pieces ⟨0, 0, buffer⟩ with
  | done w =>
      rw [hwalk] at hreturns
      rcases hreturns with ⟨s, hresult, hsync⟩
      have hused : w.used = 0 + usedBy pieces := (walk_done hwalk).1
      have hle := hsync.used_le
      have hbefore := hsync.touched_le
      have hr := toInt32_of_nonneg (x := usedBy pieces) (by omega) (by omega)
      generalize toInt32 (usedBy pieces) = r at hresult hr
      subst hresult
      have hcases : (r = -1 ↔ size < len) ∧ (r ≠ -1 → r = len) ↔ w.used = len ∧ len ≤ size := by
        omega
      constructor
      · rintro ⟨ret, s', heq, -, -, hret⟩
        cases heq
        exact hcases.mp hret
      · intro hfit
        exact ⟨r, s, rfl, hbefore, fun i hi => hkept _ _ rfl i (hbefore.trans hi),
          hcases.mpr hfit⟩
  | fails =>
      rw [hwalk] at hreturns
      rcases hreturns with ⟨s, rfl, htouched⟩
      constructor
      · rintro ⟨ret, s', heq, -, -, hfails, -⟩
        cases heq
        exact hfails.mp rfl
      · intro hlong
        refine ⟨-1, s, rfl, htouched, fun i hi => hkept _ _ rfl i (htouched.trans hi), ?_, ?_⟩
        · exact ⟨fun _ => hlong, fun _ => rfl⟩
        · intro hne
          exact absurd rfl hne
  | overruns =>
      rw [hwalk] at hreturns
      constructor
      · rintro ⟨ret, s, heq, htouched, -⟩
        have hover := hreturns ret s heq
        omega
      · exact False.elim

/-! ## Senders -/

/-- What a `send` function has to do with a pool buffer of `capacity` bytes: it fails, or it has
a packet that fits, and it does not write past the end. -/
def SenderSafe (capacity : ℕ) (result : Option Serialized) : Prop :=
  ∃ r, result = some r ∧ r.touched ≤ capacity ∧
    (r.err = .protocol ∨ r.err = .noError ∧ 0 ≤ r.length ∧ r.length ≤ capacity)

/-- The packet id fits, no piece before the first check that fails overruns the buffer, and
without such a check all pieces fit. -/
def SenderFits (capacity : ℕ) (buffer : ℕ → UInt8) (pid : List UInt8) (pieces : List Piece) :
    Prop :=
  pid.length ≤ capacity ∧
    match walk capacity (pieces ++ [returnedBy pieces])
      ⟨pid.length, pid.length, store buffer 0 pid⟩ with
    | .done w => w.used ≤ capacity
    | .fails => True
    | .overruns => False

theorem senderSafe_iff (hsize : size < 2 ^ 31) {pieces : List Piece} {buffer : ℕ → UInt8}
    {pid : List UInt8} {result : Option (ℤ × Core)} (hpid : pid.length ≤ size)
    (hreturns : Returns size m pieces result
      (walk size pieces ⟨pid.length, pid.length, store buffer 0 pid⟩)) :
    SenderSafe size (result.map (checkPacketLen pid.length)) ↔
      SenderFits size buffer pid pieces := by
  rw [SenderFits, walk_append]
  cases hwalk : walk size pieces ⟨pid.length, pid.length, store buffer 0 pid⟩ with
  | done w =>
      rw [hwalk] at hreturns
      rcases hreturns with ⟨s, hresult, hsync⟩
      have hused : w.used = pid.length + usedBy pieces := (walk_done hwalk).1
      have hle := hsync.used_le
      have hbefore := hsync.touched_le
      have hr := toInt32_of_nonneg (x := usedBy pieces) (by omega) (by omega)
      generalize toInt32 (usedBy pieces) = r at hresult hr
      subst hresult
      simp only [checkPacketLen, Option.map_some, Verdict.bind]
      rcases hr with ⟨hint, hr⟩ | ⟨hint, hr⟩
      · have hlength := toInt32_of_nonneg (x := pid.length + r) (by omega) (by omega)
        generalize toInt32 (pid.length + r) = total at hlength ⊢
        have hpass : ¬ (returnedBy pieces).Fails size w := by
          rw [returnedBy_fails]
          omega
        have hfits : (returnedBy pieces).Fits size w := trivial
        have hstep : ((returnedBy pieces).step w).used = w.used := rfl
        rw [walk_step hpass hfits, walk]
        simp only [hstep]
        rw [if_neg (by omega)]
        constructor
        · rintro ⟨r', heq, -, hend⟩
          cases heq
          rcases hend with hend | ⟨-, hlo, hhi⟩
          · cases hend
          · simp only at hlo hhi
            refine ⟨hpid, ?_⟩
            omega
        · rintro ⟨-, hfit⟩
          refine ⟨_, rfl, hbefore, Or.inr ⟨rfl, ?_⟩⟩
          simp only
          omega
      · have hfails : (returnedBy pieces).Fails size w := by
          rw [returnedBy_fails]
          omega
        have hneg : r < 0 := by omega
        rw [walk_fails hfails]
        exact ⟨fun _ => ⟨hpid, trivial⟩, fun _ => ⟨_, rfl, hbefore, Or.inl (if_pos hneg)⟩⟩
  | fails =>
      rw [hwalk] at hreturns
      rcases hreturns with ⟨s, rfl, htouched⟩
      exact ⟨fun _ => ⟨hpid, trivial⟩, fun _ => ⟨_, rfl, htouched, Or.inl rfl⟩⟩
  | overruns =>
      rw [hwalk] at hreturns
      constructor
      · rintro ⟨r, heq, htouched, -⟩
        cases result with
        | none => cases heq
        | some result =>
            have hover := hreturns result.1 result.2 rfl
            cases heq
            exact absurd htouched (Nat.not_le.mpr hover)
      · rintro ⟨-, hfalse⟩
        exact hfalse.elim

theorem sync_sender (hsize : size < 2 ^ 31) (buffer : ℕ → UInt8) (pid : List UInt8)
    (hpid : pid.length ≤ size) :
    Sync size m ⟨pid.length, pid.length, store buffer 0 pid⟩
      { buffer := store buffer 0 pid
        data := pid.length
        size := toInt32 (sizeSub size pid.length)
        arena := TickArena.initArena 0
        mem := m
        touched := pid.length
        counts := [] } where
  size_eq := by
    have hleft : sizeSub size pid.length = size - pid.length := sizeSub_of_le hpid (by omega)
    have hint : toInt32 (size - pid.length : ℕ) = (size - pid.length : ℕ) :=
      toInt32_of_range (by omega) (by omega)
    rw [hleft, hint]
    dsimp only
    omega
  data_eq := rfl
  buffer_eq := store_nil _ _
  mem_eq := rfl
  touched_le := hpid
  room := Or.inl rfl
  data_le := le_refl _
  used_le := by
    dsimp only
    omega

end

theorem sender_safe_large {capacity : ℕ} (hcapacity : 2 ^ 31 ≤ capacity) {buffer : ℕ → UInt8}
    {pid : List UInt8} {n : ℕ} {sizeof : Ty → ℕ} {c : Cmd} {packet : Loc}
    (hspends : Spends (2 ^ 31 - 1) m sizeof c ⟨packet, fun _ => 0⟩ n)
    (hfits : pid.length + n < 2 ^ 31) :
    SenderSafe capacity ((callFunction sizeof c packet
      { buffer := store buffer 0 pid
        data := pid.length
        size := toInt32 (sizeSub capacity pid.length)
        arena := TickArena.initArena 0
        mem := m
        touched := pid.length
        counts := [] }).map (checkPacketLen pid.length)) := by
  have hstart := spent_sender (m := m) capacity buffer pid (by omega)
  rcases hspends.callFunction (by decide) hstart (by omega) with ⟨ret, s, hcall, htouched, hret⟩
  refine ⟨_, congrArg (Option.map (checkPacketLen pid.length)) hcall, ?_, ?_⟩
  · rw [checkPacketLen]
    dsimp only
    omega
  · rw [checkPacketLen]
    dsimp only
    rcases hret with rfl | rfl
    · exact Or.inl (if_pos (by decide))
    · have hlength : toInt32 ((pid.length : ℤ) + n) = (pid.length + n : ℕ) :=
        toInt32_of_range (by omega) (by omega)
      rw [hlength]
      exact Or.inr ⟨if_neg (by omega), by omega, by omega⟩

section

theorem built_compress : Packets.loginCompress.Built := by
  simp [Packets.loginCompress, Packets.container, Packets.varint, Ty.Built, Fields.Built]

theorem fresh_compress :
    Packets.loginCompress.Fresh (fun _ k => k) "login_packet_compress" [] 0 := by
  simp [Packets.loginCompress, Packets.container, Packets.varint, Ty.Fresh, Fields.Fresh]

theorem valueAt_compress : Packets.loginCompress.ValueAt (fun _ => 5) [] [] := by
  simp [Packets.loginCompress, Packets.container, Packets.varint, Ty.ValueAt, Fields.ValueAt,
    Native.InRange]

theorem isValue_compress : Packets.loginCompress.IsValue (fun _ => 5) ⟨[], []⟩ := by
  have hsiblings : Packets.loginCompress.ComparesSiblings [] ⟨[], []⟩ := by
    simp [Packets.loginCompress, Packets.container, Packets.varint, Ty.ComparesSiblings,
      Fields.ComparesSiblings]
  exact (Ty.isValue_iff _ hsiblings).mpr valueAt_compress

theorem encoding_compress (nbt : Loc → List UInt8) :
    Packets.loginCompress.encoding nbt (fun _ => 5) [] [] = [5] := by
  simp [Packets.loginCompress, Packets.container, Packets.varint, Ty.encoding, Fields.encoding,
    Native.bytes, Base128.encode_of_lt (show 5 < 128 by decide)]

theorem layout_compress (nbt : Loc → List UInt8) :
    Packets.loginCompress.layout nbt (fun _ => 5) ⟨[], []⟩ = [.varint [5]] := by
  simp [Packets.loginCompress, Packets.container, Packets.varint, Ty.layout, Fields.layout,
    Ty.isVariable, Ty.getSize, Native.size, isVariableSize, Native.bytes,
    Base128.encode_of_lt (show 5 < 128 by decide)]

end

end CmcServer.ProtoDef
