import CmcServer.Verification.Dispatch.Calls
import CmcServer.Verification.Dispatch.Requests

/-! # What dispatching a packet leaves

A call of `dispatch_packet` sends at most one packet. It leaves the other buffers and requests
alone. -/

namespace CmcServer

open ProtoDef

section

variable (config : ServerConfig)

/-- The buffer that the next packet goes to. -/
def sendBuffer (w : World App) : BufId := (w.pools.bufferPoolGetProtocolSend config).1

/-- The pools once `bytes` are in that buffer. -/
def written (bytes : ℕ → UInt8) (w : World App) : BufferPools :=
  let pools := (w.pools.bufferPoolGetProtocolSend config).2
  { pools with memory := Function.update pools.memory (sendBuffer config w) bytes }

/-- The pools after a result of `server_send_packet`. -/
def released (err : Err) (bytes : ℕ → UInt8) (w : World App) : BufferPools :=
  if err ≠ .noError then
    (written config bytes w).bufferPoolReturnProtocolSend (sendBuffer config w)
  else written config bytes w

/-- What a call of `dispatch_packet` does to the pools and the requests. -/
inductive Work (w : World App) (err : Err) (w' : World App) : Prop where
  | kept : w'.pools = w.pools → w'.app.net = w.app.net → w'.app.asked = w.app.asked → Work w err w'
  | unwritten (bytes : ℕ → UInt8) : err ≠ .noError → w'.pools = released config err bytes w →
      w'.app.net = w.app.net → w'.app.asked = w.app.asked → Work w err w'
  | issued (bytes : ℕ → UInt8) (varintTemp : List UInt8) (size : ℤ) :
      (err = .noError → protocolWriteVarint size = some varintTemp) →
      Net.Issue (.send w.app.client varintTemp (sendBuffer config w) size)
        (.writev w.app.socket varintTemp (sendBuffer config w) size) w.app.net err w'.app.net →
      w'.pools = released config err bytes w →
      w'.app.asked = w.app.asked ++ [⟨w.app.client, (List.range size.toNat).map bytes⟩] →
      Work w err w'

/-- What a call of `dispatch_packet` leaves, for the same client. -/
structure Effect (w : World App) (err : Err) (w' : World App) : Prop where
  client : w'.app.client = w.app.client
  socket : w'.app.socket = w.app.socket
  work : Work config w err w'

end

section

variable {build : Build} {config : ServerConfig} {w w' : World App} {err : Err}

theorem effect_refl : Effect config w err w := ⟨rfl, rfl, .kept rfl rfl rfl⟩

/-- A handler with an effect that is one. -/
def Effective (config : ServerConfig)
    (process : (Loc → ℤ) → World App → Option (Err × World App)) : Prop :=
  ∀ packet w err w', process packet w = some (err, w') → Effect config w err w'

theorem sendPacket_effect {packetId : ℤ} {name : String} {t : Ty} {packet : Loc → ℤ}
    (h : sendPacket build config false packetId name t packet w = some (err, w')) :
    Effect config w err w' := by
  simp only [sendPacket] at h
  split at h
  · cases h
  · rename_i packed _
    rcases Option.map_eq_some_iff.mp h with ⟨⟨err', net⟩, hsent, heq⟩
    cases heq
    refine ⟨rfl, rfl, ?_⟩
    split at hsent
    · rename_i hfailed
      cases hsent
      refine .unwritten packed.buffer hfailed rfl rfl ?_
      simp [hfailed]
    · rename_i hpacked
      rcases Net.serverSendPacket_issue hsent with ⟨varintTemp, hvarint, hissue⟩
      refine .issued packed.buffer varintTemp packed.length hvarint hissue rfl ?_
      simp [hpacked]

theorem effective_ping : Effective config (processStatusPacketPing build config false) := by
  intro packet w err w' h
  rw [processStatusPacketPing, sendStatusPacketPong] at h
  exact sendPacket_effect h

theorem effective_pingStart :
    Effective config (processStatusPacketPingStart build config false) := by
  intro packet w err w' h
  rw [processStatusPacketPingStart, sendStatusPacketServerInfo] at h
  exact sendPacket_effect h

theorem effective_of_kept {process : (Loc → ℤ) → World App → Err × World App}
    (h : ∀ packet w, (process packet w).2.pools = w.pools ∧
      ∃ state, (process packet w).2.app = { w.app with state }) :
    Effective config fun packet w => some (process packet w) := by
  intro packet w err w' hresult
  rcases h packet w with ⟨hpools, state, happ⟩
  rw [Option.some.inj hresult] at hpools happ
  exact ⟨by rw [happ], by rw [happ], .kept hpools (by rw [happ]) (by rw [happ])⟩

theorem dispatchTyped_effect {name : String} {t : Ty}
    {process : (Loc → ℤ) → World App → Option (Err × World App)}
    (hprocess : Effective config process) {data : List UInt8} {size : ℤ}
    (h : dispatchTyped build name t process data size w = some (err, w')) :
    Effect config w err w' := by
  rw [dispatchTyped_eq] at h
  split at h
  · cases h
  · rename_i readSize s _
    rcases Option.map_eq_some_iff.mp h with ⟨⟨err', w''⟩, hresult, heq⟩
    cases heq
    split at hresult
    · cases hresult
      exact ⟨rfl, rfl, .kept rfl rfl rfl⟩
    · have heffect := hprocess s.mem (handlerWorld s w) _ _ hresult
      refine ⟨heffect.client, heffect.socket, ?_⟩
      cases heffect.work with
      | kept hpools hnet hasked => exact .kept hpools hnet hasked
      | unwritten bytes herr hpools hnet hasked => exact .unwritten bytes herr hpools hnet hasked
      | issued bytes varintTemp size hvarint hissue hpools hasked =>
          exact .issued bytes varintTemp size hvarint hissue hpools hasked

theorem processHandshakingPacketSetProtocol_kept (packet : Loc → ℤ) (w : World App) :
    (processHandshakingPacketSetProtocol packet w).2.pools = w.pools ∧
      ∃ state, (processHandshakingPacketSetProtocol packet w).2.app = { w.app with state } := by
  rw [processHandshakingPacketSetProtocol]
  split
  · exact ⟨rfl, _, rfl⟩
  · split
    · split
      · exact ⟨rfl, w.app.state, rfl⟩
      · exact ⟨rfl, _, rfl⟩
    · exact ⟨rfl, w.app.state, rfl⟩

theorem dispatchPacket_effect {data : List UInt8} {size : ℤ}
    (h : dispatchPacket build config false data size w = some (err, w')) :
    Effect config w err w' := by
  have hkept : ∀ process : (Loc → ℤ) → World App → Err × World App,
      (∀ packet w, (process packet w).2 = w) →
      Effective config fun packet w => some (process packet w) := by
    intro process hsame
    apply effective_of_kept
    intro packet w
    rw [hsame]
    exact ⟨rfl, w.app.state, rfl⟩
  have hrefused : ∀ {e : Err}, some (e, w) = some (err, w') → Effect config w err w' := by
    intro e heq
    cases heq
    exact effect_refl
  rw [dispatchPacket] at h
  split at h
  · exact hrefused h
  · split at h
    · split at h
      · exact dispatchTyped_effect (effective_of_kept processHandshakingPacketSetProtocol_kept) h
      · exact hrefused h
    · split at h
      · split at h
        · exact dispatchTyped_effect effective_pingStart h
        · split at h
          · exact dispatchTyped_effect effective_ping h
          · exact hrefused h
      · split at h
        · split at h
          · exact dispatchTyped_effect (hkept _ fun _ _ => rfl) h
          · split at h
            · exact dispatchTyped_effect (hkept _ fun _ _ => rfl) h
            · split at h
              · exact dispatchTyped_effect (hkept _ fun _ _ => rfl) h
              · exact hrefused h
        · exact hrefused h

/-- What the receiver sees of a call. -/
theorem dispatcher_effect (build : Build) (config : ServerConfig) (data : List UInt8) (size : ℤ)
    (w : World App) :
    Effect config w (dispatcher build config false data size w).1
      (dispatcher build config false data size w).2 := by
  rw [dispatcher]
  cases hresult : dispatchPacket build config false data size w with
  | none => exact effect_refl
  | some result => exact dispatchPacket_effect hresult

end

/-! ## Outside of the status phase -/

section

variable {build : Build} {config : ServerConfig} {app : App}

/-- A function of the buffer pools that leaves them alone, and asks for nothing. -/
def Quiet (app : App) (f : BufferPools → Option (Err × World App)) : Prop :=
  ∃ result : Option (Err × App),
    (∀ pools, f pools = result.map fun result => (result.1, ⟨pools, result.2⟩)) ∧
      ∀ err app', result = some (err, app') → app'.net = app.net ∧ app'.asked = app.asked

theorem Quiet.of_some {f : BufferPools → Option (Err × World App)} (err : Err) (app' : App)
    (h : ∀ pools, f pools = some (err, ⟨pools, app'⟩))
    (hkept : app'.net = app.net ∧ app'.asked = app.asked) : Quiet app f := by
  refine ⟨some (err, app'), h, ?_⟩
  intro err' app'' heq
  cases heq
  exact hkept

theorem quiet_processHandshakingPacketSetProtocol (packet : Loc → ℤ) (app : App) :
    Quiet app fun pools => some (processHandshakingPacketSetProtocol packet ⟨pools, app⟩) := by
  simp only [processHandshakingPacketSetProtocol]
  by_cases hstatus : packet [.field "next_state"] = PROTOCOL_STATUS
  · simp only [if_pos hstatus]
    exact .of_some .noError _ (fun _ => rfl) ⟨rfl, rfl⟩
  · simp only [if_neg hstatus]
    by_cases hlogin : packet [.field "next_state"] = PROTOCOL_LOGIN
    · simp only [if_pos hlogin]
      by_cases hversion : packet [.field "protocol_version"] ≠ PROTOCOL_VERSION
      · simp only [if_pos hversion]
        exact .of_some .protocol _ (fun _ => rfl) ⟨rfl, rfl⟩
      · simp only [if_neg hversion]
        exact .of_some .noError _ (fun _ => rfl) ⟨rfl, rfl⟩
    · simp only [if_neg hlogin]
      exact .of_some .protocol _ (fun _ => rfl) ⟨rfl, rfl⟩

variable (build) in
theorem quiet_dispatchTyped (name : String) (t : Ty)
    {process : (Loc → ℤ) → World App → Option (Err × World App)}
    (hprocess : ∀ packet app, Quiet app fun pools => process packet ⟨pools, app⟩)
    (data : List UInt8) (size : ℤ) :
    Quiet app fun pools => dispatchTyped build name t process data size ⟨pools, app⟩ := by
  let w : World App := ⟨BufferPools.initial, app⟩
  have heq : ∀ pools, dispatchTyped build name t process data size ⟨pools, app⟩ =
      (readPacket build name t data size w).bind fun read =>
        (if read.1 ≠ size then some (.protocol, ⟨pools, (handlerWorld read.2 w).app⟩)
          else process read.2.mem ⟨pools, (handlerWorld read.2 w).app⟩).map fun result =>
            (result.1, ⟨result.2.pools, (releaseArena w result.2).app⟩) := by
    intro pools
    have hread : readPacket build name t data size ⟨pools, app⟩ =
        readPacket build name t data size w := rfl
    rw [dispatchTyped_eq, hread]
    cases readPacket build name t data size w <;> rfl
  simp only [heq]
  cases hread : readPacket build name t data size w with
  | none => exact ⟨none, fun _ => rfl, fun _ _ h => by cases h⟩
  | some read =>
      rcases read with ⟨readSize, s⟩
      simp only [Option.bind_some]
      by_cases hsize : readSize ≠ size
      · simp only [if_pos hsize]
        exact .of_some .protocol (releaseArena w (handlerWorld s w)).app (fun _ => rfl) ⟨rfl, rfl⟩
      · simp only [if_neg hsize]
        rcases hprocess s.mem (handlerWorld s w).app with ⟨result, hresult, hkept⟩
        simp only [hresult, Option.map_map]
        cases result with
        | none => exact ⟨none, fun _ => rfl, fun _ _ h => by cases h⟩
        | some result =>
            have hsame := hkept result.1 result.2 rfl
            exact .of_some result.1 (releaseArena w ⟨BufferPools.initial, result.2⟩).app
              (fun _ => rfl) hsame

variable (build config) in
/-- Outside of the status phase a packet does not touch the buffer pools and asks for nothing. -/
theorem dispatchPacket_quiet (hstate : app.state ≠ PROTOCOL_STATUS) (data : List UInt8)
    (size : ℤ) :
    Quiet app fun pools => dispatchPacket build config false data size ⟨pools, app⟩ := by
  have hconst : ∀ (err : Err) (app : App),
      Quiet app fun pools => some (err, (⟨pools, app⟩ : World App)) :=
    fun err _ => .of_some err _ (fun _ => rfl) ⟨rfl, rfl⟩
  simp only [dispatchPacket, if_neg hstate]
  set read := protocolReadVarint (Bytes.ofList data (app.surroundings 0).beyond) size 0
  by_cases hret : ¬ read.ret ≥ 0
  · simp only [if_pos hret]
    exact hconst _ _
  simp only [if_neg hret]
  by_cases hhandshaking : app.state = PROTOCOL_HANDSHAKING
  · simp only [if_pos hhandshaking]
    by_cases hid : read.value = 0x00
    · simp only [if_pos hid]
      exact quiet_dispatchTyped build _ _ quiet_processHandshakingPacketSetProtocol _ _
    · simp only [if_neg hid]
      exact hconst _ _
  simp only [if_neg hhandshaking]
  by_cases hlogin : app.state = PROTOCOL_LOGIN
  · simp only [if_pos hlogin]
    by_cases hstart : read.value = 0x00
    · simp only [if_pos hstart]
      exact quiet_dispatchTyped build _ _ (fun _ => hconst .noError) _ _
    simp only [if_neg hstart]
    by_cases hresponse : read.value = 0x01
    · simp only [if_pos hresponse]
      exact quiet_dispatchTyped build _ _ (fun _ => hconst .protocol) _ _
    simp only [if_neg hresponse]
    by_cases hplugin : read.value = 0x02
    · simp only [if_pos hplugin]
      exact quiet_dispatchTyped build _ _ (fun _ => hconst .protocol) _ _
    · simp only [if_neg hplugin]
      exact hconst _ _
  · simp only [if_neg hlogin]
    exact hconst _ _

variable (build config) in
/-- What a packet outside of the status phase leaves does not depend on the buffer pools. -/
theorem dispatcher_quiet (hstate : app.state ≠ PROTOCOL_STATUS) (data : List UInt8)
    (size : ℤ) :
    ∃ err app', (∀ pools, dispatcher build config false data size ⟨pools, app⟩ =
        (err, ⟨pools, app'⟩)) ∧ app'.net = app.net ∧ app'.asked = app.asked := by
  rcases dispatchPacket_quiet build config hstate data size with ⟨result, hresult, hkept⟩
  dsimp only at hresult
  cases result with
  | none =>
      refine ⟨.checkFailed, app, fun pools => ?_, rfl, rfl⟩
      rw [dispatcher, hresult]
      rfl
  | some result =>
      refine ⟨result.1, result.2, fun pools => ?_, hkept _ _ rfl⟩
      rw [dispatcher, hresult]
      rfl

end

end CmcServer
