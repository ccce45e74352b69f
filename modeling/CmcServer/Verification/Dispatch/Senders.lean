import CmcServer.Model.Dispatch
import CmcServer.Verification.ProtoDef.Spending

/-! # What the senders return

Whatever size is configured, a sender fails or queues all bytes that it wrote. -/

namespace CmcServer

namespace ProtoDef

open EarlyReturn

/-! ## Packets -/

section

variable {limit : ℕ} (hlimit : limit < 2 ^ 31) {m : Loc → ℤ} {sizeof : Ty → ℕ} {env : Env}
  {rnd : String → ℕ → ℕ}

theorem spends_statusPong (name : String) :
    Spends limit m sizeof (generateWrite rnd name Packets.statusPong) env 8 := by
  have hlen := length_encode_native .i64 (m ((accessField ⟨.packet, []⟩ "time").loc env))
  have hcode : ∀ s : Core, s.mem = m → ∃ s', exec sizeof (.seq
      (genCode .write rnd name (.native .i64) (accessField ⟨.packet, []⟩ "time") 0) (.subSize 8))
      env s = .next s' ∧
      Charged 8 (Native.i64.encode (m ((accessField ⟨.packet, []⟩ "time").loc env))) s s' := by
    rintro s rfl
    rcases exec_fixed_write sizeof rnd (fun _ => []) (.native .i64) name (by decide)
      (accessField ⟨.packet, []⟩ "time") 0 env s with ⟨s', hs', hwrote⟩
    rw [Ty.encode, native_bytes_fixed _ _ (by decide), LVal.loc_spot] at hwrote
    exact ⟨_, by rw [exec, hs', Outcome.next_bind, exec], hwrote.charged⟩
  have hall : Spends limit m sizeof _ env _ := spends_checked (by rw [hlen]; rfl) hcode
  rw [hlen] at hall
  exact hall

include hlimit

theorem spends_byteArray {fn : String} {place : LVal} {k : ℕ} {count : ℕ} (hcount : count < 128)
    (huses : place.Uses []) (hlength : m ((place.spot env).sub "length").loc = count) :
    Spends limit m sizeof
      (genCode .write rnd fn (.array Packets.varint (.native .i8)) place k) env (count + 1) := by
  have hrange : CountInRange false (m ((place.spot env).sub "length").loc) := by
    rw [hlength]
    exact ⟨by omega, by simp only [Bool.false_eq_true, if_false]; omega⟩
  have hvarint : Spends limit m sizeof
      (genCode .write rnd fn Packets.varint (accessField place "length") k) env 1 := by
    have h : Spends limit m sizeof (.variable .write .varint (accessField place "length")) env
        (Base128.encode (m ((accessField place "length").loc env)).toNat).length :=
      spends_varint (by decide) (by rw [loc_member, hlength]; omega)
        (by rw [loc_member, hlength]; omega)
    rwa [loc_member, hlength, Int.toNat_natCast, Base128.encode_of_lt hcount] at h
  have hfixed : (Ty.native .i8).isVariable = false := by decide
  have hbytes : (elementsBytes (fun _ => []) m (.native .i8) (place.spot env)).length = count := by
    have hlen := length_elementsBytes (fun _ => []) m hfixed (place.spot env)
    rw [countAt, hlength, Int.toNat_natCast] at hlen
    have hone : (Ty.native .i8).getSize = 1 := rfl
    rw [hone, mul_one] at hlen
    exact_mod_cast hlen
  have hrules := spends_rules m sizeof hlimit
  have helements := hrules.seq_skip_seq (hrules.elements rnd (fun _ => []) hfixed fn huses
    List.not_mem_nil (k + 0 + 1) hrange (i := rnd fn (k + 0)))
  rw [usedBy_cons, usedBy_nil, Piece.used, hbytes] at helements
  have hall := spends_skip.seq (hvarint.seq helements)
  have hsum : 0 + (1 + (count + 0)) = count + 1 := by omega
  rw [hsum] at hall
  exact hall

/-- A string of which the length fits a varint of one byte. -/
theorem spends_string {fn : String} {place : LVal} {k : ℕ} {count : ℕ} (hcount : count < 128)
    (hlength : m (.field "length" :: place.loc env) = count) :
    Spends limit m sizeof (genCode .write rnd fn Packets.string place k) env (count + 1) := by
  have hbody : Spends limit m sizeof
      (genCode .write rnd "string" (.array Packets.varint (.native .i8))
        (sourceOf (.array Packets.varint (.native .i8))) 0) ⟨place.loc env, fun _ => 0⟩
      (count + 1) :=
    spends_byteArray hlimit hcount (uses_sourceOf _ []) (by rw [spot_sourceOf]; exact hlength)
  rw [Packets.string, genCode, if_pos (Ty.isVariable_array _ _)]
  exact spends_call hlimit hbody

theorem spends_statusServerInfo {name : String} {count : ℕ} (hcount : count < 128)
    (hlength : m (.field "length" :: .field "response" :: env.packet) = count) :
    Spends limit m sizeof (generateWrite rnd name Packets.statusServerInfo) env (count + 1) := by
  have hresponse : Spends limit m sizeof (genCode .write rnd name Packets.string
      (accessField ⟨.packet, []⟩ "response") 0) env (count + 1) :=
    spends_string hlimit hcount hlength
  have hall := spends_skip.seq (hresponse.seq spends_skip)
  rwa [Nat.zero_add, Nat.add_zero] at hall

end

end ProtoDef

open ProtoDef

/-! ## Requests -/

namespace Net

/-- Neither memory nor the submission queue runs out. -/
structure Ample (net : Net) : Prop where
  calloc : net.calloc = true
  entries : net.entries = none

variable {net : Net}

theorem Ample.getRequest (h : net.Ample) :
    ∃ request net', net.getRequest = (some request, net') ∧ net'.Ample := by
  rw [Net.getRequest]
  cases net.requestsPool with
  | nil =>
      simp only [h.calloc, if_true]
      exact ⟨_, _, rfl, ⟨rfl, h.entries⟩⟩
  | cons request rest => exact ⟨request, _, rfl, ⟨h.calloc, h.entries⟩⟩

theorem Ample.fill (h : net.Ample) (request : RequestId) (content : Request) :
    (net.fill request content).Ample := ⟨h.calloc, h.entries⟩

theorem Ample.submit (h : net.Ample) (request : RequestId) (op : Op) :
    ∃ net', net.submit request op = (.noError, net') ∧ net'.Ample := by
  have hroom : net.isFull = false := by
    rw [isFull, h.entries]
  rw [Net.submit, hroom]
  exact ⟨_, rfl, ⟨h.calloc, h.entries⟩⟩

theorem Ample.serverSendPacket (h : net.Ample) (client : ClientId) (socket : ℤ) (buffer : BufId)
    (size : ℤ) (hlo : 0 ≤ size) (hhi : size < 2 ^ 63) :
    ∃ net', net.serverSendPacket false client socket buffer size = some (.noError, net') ∧
      net'.Ample := by
  have hsize : (size.toNat : ℤ) = size := Int.toNat_of_nonneg hlo
  have hwrite : protocolWriteVarint size = some (Base128.encode size.toNat) := by
    have hnat := protocolWriteVarint_nat (n := size.toNat) (by omega)
    rwa [hsize] at hnat
  have hpos := Base128.encode_length_pos size.toNat
  rcases h.getRequest with ⟨request, net₁, hget, h₁⟩
  rcases (h₁.fill request (.send client (Base128.encode size.toNat) buffer size)).submit request
    (.writev socket (Base128.encode size.toNat) buffer size) with ⟨net₂, hsubmit, h₂⟩
  refine ⟨net₂, ?_, h₂⟩
  simp only [Net.serverSendPacket, hget, hwrite, Bool.false_eq_true, if_false, Option.map_some]
  rw [if_neg (by omega), hsubmit]

end Net

/-! ## Senders -/

section

variable (build : Build) (config : ServerConfig) {w : World App}

theorem serializePacket_result (packetId : ℕ) {name : String} {t : Ty} {m : Loc → ℤ} {n : ℕ}
    (hid : packetId < 128) (hn : n < 2 ^ 31 - 1)
    (hspends : Spends (2 ^ 31 - 1) m build.sizeof (generateWrite build.rnd name t)
      ⟨[], fun _ => 0⟩ n)
    (buffer : ℕ → UInt8) :
    ∃ packed, serializePacket build.sizeof build.rnd config packetId name t [] m buffer =
        some packed ∧
      (packed.err = .protocol ∨ packed.err = .noError ∧ packed.length = n + 1) := by
  have hwrite : protocolWriteVarint packetId = some [UInt8.ofNat packetId] := by
    rw [protocolWriteVarint_nat (by omega), Base128.encode_of_lt hid]
  have hstart := spent_sender (m := m) config.maxSendPacketSize buffer [UInt8.ofNat packetId]
    (by rw [List.length_singleton]; decide)
  rcases hspends.callFunction (by decide) hstart (by rw [List.length_singleton]; omega) with
    ⟨ret, s', hcall, -, hret⟩
  refine ⟨checkPacketLen 1 (ret, s'), ?_, ?_⟩
  · rw [serializePacket, hwrite]
    exact congrArg (Option.map (checkPacketLen 1)) hcall
  · rcases hret with rfl | rfl
    · exact Or.inl rfl
    · have hnonneg : ¬ (n : ℤ) < 0 := by omega
      refine Or.inr ⟨by rw [checkPacketLen, if_neg hnonneg], ?_⟩
      rw [checkPacketLen]
      dsimp only
      rw [toInt32_of_range (by omega) (by omega)]
      omega

/-- A sender ends, and its packet is queued or refused. -/
theorem sendPacket_result (packetId : ℕ) {name : String} {t : Ty} {m : Loc → ℤ} {n : ℕ}
    (hid : packetId < 128) (hn : n < 2 ^ 31 - 1)
    (hspends : Spends (2 ^ 31 - 1) m build.sizeof (generateWrite build.rnd name t)
      ⟨[], fun _ => 0⟩ n)
    (hw : w.app.net.Ample) :
    ∃ err w', sendPacket build config false packetId name t m w = some (err, w') ∧
      (err = .noError ∨ err = .protocol) ∧ w'.app.net.Ample ∧ w'.app.state = w.app.state := by
  rcases hget : w.pools.bufferPoolGetProtocolSend config with ⟨buffer, pools⟩
  rcases serializePacket_result build config packetId hid hn hspends (pools.memory buffer) with
    ⟨packed, hpacked, herr | ⟨herr, hlength⟩⟩
  · rw [sendPacket, hget]
    simp only [hpacked, herr]
    exact ⟨.protocol, _, rfl, Or.inr rfl, hw, rfl⟩
  · rcases hw.serverSendPacket w.app.client w.app.socket buffer packed.length
      (by omega) (by omega) with ⟨net', hsend, hnet'⟩
    rw [sendPacket, hget]
    simp only [hpacked, herr, hsend]
    exact ⟨.noError, _, rfl, Or.inl rfl, hnet', rfl⟩

theorem sendStatusPacketPong_result (time : ℤ) (hw : w.app.net.Ample) :
    ∃ err w', sendStatusPacketPong build config false time w = some (err, w') ∧
      (err = .noError ∨ err = .protocol) ∧ w'.app.net.Ample ∧ w'.app.state = w.app.state :=
  sendPacket_result build config 1 (by decide) (by decide) (spends_statusPong _) hw

/-- The length of the string counts its NUL. -/
theorem sendStatusPacketServerInfo_result {response : List Char} (hlength : response.length < 127)
    (hw : w.app.net.Ample) :
    ∃ err w', sendStatusPacketServerInfo build config false response w = some (err, w') ∧
      (err = .noError ∨ err = .protocol) ∧ w'.app.net.Ample ∧ w'.app.state = w.app.state := by
  refine sendPacket_result build config 0 (n := response.length + 1 + 1) (by decide) (by omega)
    (spends_statusServerInfo (by decide) (by omega) ?_) hw
  simp [stringAt]

end

end CmcServer
