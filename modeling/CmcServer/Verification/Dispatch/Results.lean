import CmcServer.Verification.Dispatch.Calls
import CmcServer.Verification.Dispatch.Senders
import CmcServer.Verification.ProtoDef.Bounds
import CmcServer.Verification.Receiver.Resume

/-! # What a client can make the receiver return

With memory and submission queue entries to spare, `dispatch_packet` either handles a packet or
refuses it with `ERROR_PROTOCOL`, whatever the packet. The receiver itself has one more answer. -/

namespace CmcServer

open ProtoDef ReceiverState

/-! ## Reading packets -/

/-- The reader of a packet ends. -/
structure Readable (rnd : String → ℕ → ℕ) (name : String) (t : Ty) : Prop where
  isVariable : t.isVariable = true
  built : t.Built
  fresh : t.Fresh rnd name [] 0

theorem readable_toServer (rnd : String → ℕ → ℕ) (packetId : ℤ) {name : String} {t : Ty}
    (h : (packetId, name, t) ∈
      Packets.handshakingToServer ++ Packets.statusToServer ++ Packets.loginToServer) :
    Readable rnd name t := by
  simp only [Packets.handshakingToServer, Packets.statusToServer, Packets.loginToServer,
    List.cons_append, List.nil_append, List.mem_cons, Prod.mk.injEq, List.not_mem_nil,
    or_false] at h
  rcases h with ⟨-, rfl, rfl⟩ | ⟨-, rfl, rfl⟩ | ⟨-, rfl, rfl⟩ | ⟨-, rfl, rfl⟩ | ⟨-, rfl, rfl⟩ |
      ⟨-, rfl, rfl⟩ <;>
    constructor <;>
    simp [Packets.handshakingSetProtocol, Packets.statusPingStart, Packets.statusPing,
      Packets.loginStart, Packets.loginEncryptionResponse, Packets.loginPluginResponse,
      Packets.container, Packets.varint, Packets.string, Packets.buffer, Packets.restBuffer,
      Ty.Built, Fields.Built, Ty.Fresh, Fields.Fresh]

section

variable (build : Build)

/-- The array counts in a packet that the room checks of its reader let pass. -/
def packetCounts (t : Ty) (data : List UInt8) (size : ℤ) (w : World App) : List (ℤ × ℤ) :=
  let start := readerStart data size w
  t.passedCounts build.sizeof [] start.buffer size start.arena start.mem

theorem readPacket_some {name : String} {t : Ty} (ht : Readable build.rnd name t)
    {data : List UInt8} {size : ℤ} (hlo : 0 ≤ size) (hhi : size < 2 ^ 31) {w : World App}
    (hcounts : CountsOk (packetCounts build t data size w)) :
    ∃ readSize s, readPacket build name t data size w = some (readSize, s) := by
  have hroom : Room size.toNat 0 (readerStart data size w) := by
    intro _
    simp only [readerStart]
    omega
  rcases call_room (by omega) build.sizeof build.rnd ht.built ht.isVariable ht.fresh [] hroom with
    ⟨readSize, s, hcall, hsafe⟩
  have htouched : s.touched ≤ size.toNat := by
    apply hsafe
    have hpassed := callFunction_counts ht.fresh hcall
    rwa [hpassed]
  exact ⟨readSize, s, readPacket_of_touched build hcall (by omega)⟩

end

/-! ## Dispatching packets -/

/-- The client is in a phase of the protocol, and resources do not run out. -/
structure Serving (w : World App) : Prop where
  ample : w.app.net.Ample
  state : w.app.state = PROTOCOL_HANDSHAKING ∨ w.app.state = PROTOCOL_STATUS ∨
    w.app.state = PROTOCOL_LOGIN

/-- The results that let the server go on. -/
def Answer (err : Err) : Prop := err = .noError ∨ err = .protocol

/-- A run that ends in an answer. -/
def Answered (result : Option (Err × World App)) : Prop :=
  ∃ err w, result = some (err, w) ∧ Answer err ∧ Serving w

section

variable (build : Build) (config : ServerConfig) {w : World App}

theorem answered_refused (hw : Serving w) : Answered (some (.protocol, w)) :=
  ⟨_, _, rfl, Or.inr rfl, hw⟩

/-- A run that ends in an answer, or that was ended by a wrong room check. -/
def AnsweredIf (careful : Prop) (result : Option (Err × World App)) : Prop :=
  Answered result ∨ result = none ∧ ¬ careful

theorem dispatchTyped_answered {name : String} {t : Ty}
    {process : (Loc → ℤ) → World App → Option (Err × World App)} {data : List UInt8} {size : ℤ}
    (ht : Readable build.rnd name t)
    (hprocess : ∀ packet w, Serving w → Answered (process packet w))
    (hlo : 0 ≤ size) (hhi : size < 2 ^ 31) (hw : Serving w) :
    AnsweredIf (CountsOk (packetCounts build t data size w))
      (dispatchTyped build name t process data size w) := by
  rw [dispatchTyped_eq]
  cases hread : readPacket build name t data size w with
  | none =>
      refine Or.inr ⟨rfl, fun hcounts => ?_⟩
      rcases readPacket_some build ht hlo hhi hcounts with ⟨readSize, s, hsome⟩
      rw [hsome] at hread
      cases hread
  | some result =>
      left
      dsimp only
      split
      · exact ⟨_, _, rfl, Or.inr rfl, hw.ample, hw.state⟩
      · rcases hprocess result.2.mem (handlerWorld result.2 w) ⟨hw.ample, hw.state⟩ with
          ⟨err, w', hresult, herr, hw'⟩
        rw [hresult]
        exact ⟨err, _, rfl, herr, hw'.ample, hw'.state⟩

theorem processHandshakingPacketSetProtocol_answered (packet : Loc → ℤ) (hw : Serving w) :
    Answered (some (processHandshakingPacketSetProtocol packet w)) := by
  rw [processHandshakingPacketSetProtocol]
  by_cases hstatus : packet [.field "next_state"] = PROTOCOL_STATUS
  · rw [if_pos hstatus]
    exact ⟨_, _, rfl, Or.inl rfl, hw.ample, Or.inr (Or.inl hstatus)⟩
  · by_cases hlogin : packet [.field "next_state"] = PROTOCOL_LOGIN
    · rw [if_neg hstatus, if_pos hlogin]
      split
      · exact answered_refused hw
      · exact ⟨_, _, rfl, Or.inl rfl, hw.ample, Or.inr (Or.inr hlogin)⟩
    · rw [if_neg hstatus, if_neg hlogin]
      exact answered_refused hw

theorem processStatusPacketPing_answered (packet : Loc → ℤ) (hw : Serving w) :
    Answered (processStatusPacketPing build config false packet w) := by
  rcases sendStatusPacketPong_result build config (packet [.field "time"]) hw.ample with
    ⟨err, w', hsend, herr, hample, hstate⟩
  exact ⟨err, w', hsend, herr, hample, by rw [hstate]; exact hw.state⟩

theorem processStatusPacketPingStart_answered (packet : Loc → ℤ) (hw : Serving w) :
    Answered (processStatusPacketPingStart build config false packet w) := by
  have hlength : mServerInfo.length < 127 := by decide
  rcases sendStatusPacketServerInfo_result build config hlength hw.ample with
    ⟨err, w', hsend, herr, hample, hstate⟩
  exact ⟨err, w', hsend, herr, hample, by rw [hstate]; exact hw.state⟩

/-- What a packet id leaves of its packet. -/
theorem packetId_left {buffer : ℕ → UInt8} {n : ℕ} (hn : n < 2 ^ 31)
    (hret : (protocolReadVarint buffer n 0).ret ≥ 0) :
    0 ≤ toInt32 (n - (protocolReadVarint buffer n 0).ret) ∧
      toInt32 (n - (protocolReadVarint buffer n 0).ret) < 2 ^ 31 := by
  have hread : (protocolReadVarint buffer n 0).ret ≤ n := by
    rcases readLoop_inspected orGroup 32 buffer (n : ℤ).toNat 0 0 0 with ⟨hcases, hle⟩
    rw [protocolReadVarint] at hret ⊢
    omega
  generalize (protocolReadVarint buffer n 0).ret = ret at hret hread
  rw [toInt32_of_range (by omega) (by omega)]
  omega

/-- The packets that are dispatched in a state. -/
def packetsToServer (state : ℤ) : PacketTable :=
  if state = PROTOCOL_HANDSHAKING then Packets.handshakingToServer
  else if state = PROTOCOL_STATUS then Packets.statusToServer
  else if state = PROTOCOL_LOGIN then Packets.loginToServer
  else []

theorem mem_packetsToServer {state : ℤ} {packet : ℤ × String × Ty}
    (h : packet ∈ packetsToServer state) :
    packet ∈ Packets.handshakingToServer ++ Packets.statusToServer ++ Packets.loginToServer := by
  rw [List.append_assoc, List.mem_append, List.mem_append]
  unfold packetsToServer at h
  split at h
  · exact Or.inl h
  · split at h
    · exact Or.inr (Or.inl h)
    · split at h
      · exact Or.inr (Or.inr h)
      · cases h

/-- No room check goes wrong in the packet that the bytes are in the given world: the array counts
that it lets pass are non-negative and their elements take less than 2 GB. -/
def CarefulPacket (data : List UInt8) (size : ℤ) (w : World App) : Prop :=
  let read := readPacketId data size w
  ∀ name t, (read.value, name, t) ∈ packetsToServer w.app.state →
    CountsOk (packetCounts build t (data.drop read.ret.toNat) (toInt32 (size - read.ret)) w)

theorem dispatchPacket_answered (data : List UInt8) {n : ℕ} (hn : n < 2 ^ 31) (hw : Serving w) :
    AnsweredIf (CarefulPacket build data n w) (dispatchPacket build config false data n w) := by
  have hrefused : AnsweredIf (CarefulPacket build data n w) (some (.protocol, w)) :=
    Or.inl (answered_refused hw)
  rw [dispatchPacket]
  split
  · exact hrefused
  · rename_i hread
    rcases packetId_left hn (not_not.mp hread) with ⟨hlo, hhi⟩
    have htyped : ∀ {name : String} {t : Ty}
        {process : (Loc → ℤ) → World App → Option (Err × World App)},
        ((readPacketId data n w).value, name, t) ∈ packetsToServer w.app.state →
        (∀ packet w, Serving w → Answered (process packet w)) →
        AnsweredIf (CarefulPacket build data n w)
          (dispatchTyped build name t process (data.drop (readPacketId data n w).ret.toNat)
            (toInt32 (n - (readPacketId data n w).ret)) w) := fun hmem hprocess =>
      (dispatchTyped_answered build (readable_toServer build.rnd _ (mem_packetsToServer hmem))
        hprocess hlo hhi hw).imp_right fun h => ⟨h.1, fun hcareful => h.2 (hcareful _ _ hmem)⟩
    have hvalue : ∀ {id : ℤ} {name : String} {t : Ty},
        (protocolReadVarint (Bytes.ofList data (w.app.surroundings 0).beyond) n 0).value = id →
        (id, name, t) ∈ packetsToServer w.app.state →
        ((readPacketId data n w).value, name, t) ∈ packetsToServer w.app.state := by
      rintro id name t rfl hmem
      exact hmem
    split
    · rename_i hstate
      split
      · rename_i hid
        exact htyped (hvalue hid (by simp [packetsToServer, hstate, Packets.handshakingToServer]))
          fun packet w hw => processHandshakingPacketSetProtocol_answered packet hw
      · exact hrefused
    · rename_i hhandshaking
      split
      · rename_i hstate
        have hpackets : packetsToServer w.app.state = Packets.statusToServer := by
          rw [packetsToServer, if_neg hhandshaking, if_pos hstate]
        split
        · rename_i hid
          exact htyped (hvalue hid (by simp [hpackets, Packets.statusToServer]))
            fun packet w hw => processStatusPacketPingStart_answered build config packet hw
        · split
          · rename_i hid
            exact htyped (hvalue hid (by simp [hpackets, Packets.statusToServer]))
              fun packet w hw => processStatusPacketPing_answered build config packet hw
          · exact hrefused
      · rename_i hstatus
        split
        · rename_i hstate
          have hpackets : packetsToServer w.app.state = Packets.loginToServer := by
            rw [packetsToServer, if_neg hhandshaking, if_neg hstatus, if_pos hstate]
          split
          · rename_i hid
            exact htyped (hvalue hid (by simp [hpackets, Packets.loginToServer]))
              fun packet w hw => ⟨_, _, rfl, Or.inl rfl, hw⟩
          · split
            · rename_i hid
              exact htyped (hvalue hid (by simp [hpackets, Packets.loginToServer]))
                fun packet w hw => answered_refused hw
            · split
              · rename_i hid
                exact htyped (hvalue hid (by simp [hpackets, Packets.loginToServer]))
                  fun packet w hw => answered_refused hw
              · exact hrefused
        · rename_i hlogin
          rcases hw.state with hstate | hstate | hstate
          · exact absurd hstate hhandshaking
          · exact absurd hstate hstatus
          · exact absurd hstate hlogin

/-- What `dispatch_packet` promises the receiver. -/
theorem dispatcher_serving (data : List UInt8) {n : ℕ} (hn : n < 2 ^ 31) (hw : Serving w) :
    Serving (dispatcher build config false data n w).2 ∧
      (CarefulPacket build data n w → Answer (dispatcher build config false data n w).1) := by
  rw [dispatcher]
  rcases dispatchPacket_answered build config data hn hw with
    ⟨err, w', hresult, herr, hw'⟩ | ⟨hnone, hcareless⟩
  · rw [hresult]
    exact ⟨hw', fun _ => herr⟩
  · rw [hnone]
    exact ⟨hw, fun hcareful => absurd hcareful hcareless⟩

theorem servingLaw : DispatchLaw (dispatcher build config false) Serving fun _ => True where
  pools := fun w _ hw => ⟨hw.ample, hw.state⟩
  dispatch := fun bytes n w hw hn =>
    ⟨trivial, (dispatcher_serving build config bytes (by omega) hw).1⟩

end

/-! ## Clients -/

section

variable (build : Build) (config : ServerConfig)

/-- The receiver state and the phase of a client that `server_start` keeps. The rest of the world
changes between the chunks as it likes, but its resources do not run out. -/
inductive ClientReached : ReceiverState → ℤ → Prop where
  | accepted : ClientReached ReceiverState.initial PROTOCOL_HANDSHAKING
  | received {rs rs' state w w' data} : ClientReached rs state → w.app.net.Ample →
      w.app.state = state → data ≠ [] → data.length ≤ config.recvBufferSize →
      consume build config rs w data = (.noError, rs', w') → ClientReached rs' w'.app.state

/-- No room check goes wrong in a packet that is dispatched from the chunk. -/
def CarefulChunk (rs : ReceiverState) (w : World App) (data : List UInt8) : Prop :=
  ∀ call ∈ (consumeObserved build config [] rs w data).2.2.app.2,
    CarefulPacket build call.data call.size call.before

/-- What the receiver needs of its dispatcher, with a record of the calls. -/
theorem answerLaw : BufferLaw config (observed (dispatcher build config false))
    (fun _ w => Serving w.forget) fun _ err w =>
      ((∀ call ∈ w.app.2, CarefulPacket build call.data call.size call.before) →
        Answer err ∨ err = .checkFailed ∧ config.maxRecvPacketSize < 127) ∧ Serving w.forget where
  take := fun w hw => ⟨hw.ample, hw.state⟩
  copy := fun _ _ _ _ hw => ⟨hw.ample, hw.state⟩
  large := fun hlarge _ hw => ⟨fun _ => Or.inr ⟨rfl, hlarge⟩, hw⟩
  dispatched := by
    intro _ bytes n w hw hn
    rcases dispatcher_serving build config bytes (n := n) (by omega) hw with ⟨hserving, hanswer⟩
    rw [observed_eq]
    refine ⟨fun _ => hserving, fun _ => ⟨fun hcareful => Or.inl (hanswer ?_), hserving⟩⟩
    exact hcareful _ (List.mem_append_right _ List.mem_cons_self)
  give := fun _ w hw => ⟨hw.ample, hw.state⟩
  giveFailed := fun _ _ w hw => ⟨hw.1, hw.2.ample, hw.2.state⟩

variable {config} in
theorem consume_answer {rs : ReceiverState} {w : World App} (hrs : Resumable config rs)
    (hw : Serving w) (data : List UInt8) :
    let result := consume build config rs w data
    (CarefulChunk build config rs w data →
        Answer result.1 ∨ result.1 = .checkFailed ∧ config.maxRecvPacketSize < 127) ∧
      Resumable config result.2.1 ∧ Serving result.2.2 := by
  have hobserved : consumeObserved build config [] rs w data =
      receiverConsumeData config (observed (dispatcher build config false)) rs
        ⟨w.pools, w.app, []⟩ data := by
    rw [consumeObserved, hrs.plain.compression]
  have hw' : Serving (⟨w.pools, w.app, []⟩ : World (App × List DispatchCall)).forget :=
    ⟨hw.ample, hw.state⟩
  have hcall := (answerLaw build config).receiverConsumeData hrs hw' data
  rw [← hobserved] at hcall
  simp only [consume_eq build config [] rs w data]
  rw [CarefulChunk]
  by_cases hok : (consumeObserved build config [] rs w data).1 = .noError
  · exact ⟨fun _ => Or.inl (Or.inl hok), (hcall.1 hok).1, (hcall.1 hok).2⟩
  · exact ⟨(hcall.2 hok).2.1, Or.inl (hcall.2 hok).1, (hcall.2 hok).2.2⟩

/-- Whatever a client has sent, the receiver is resumable and the client is in a phase. -/
theorem ClientReached.resumable {rs : ReceiverState} {state : ℤ}
    (h : ClientReached build config rs state) :
    Resumable config rs ∧ ∀ w : World App, w.app.net.Ample → w.app.state = state → Serving w := by
  induction h with
  | accepted => exact ⟨Or.inl Idle.initial, fun w hw hstate => ⟨hw, Or.inl hstate⟩⟩
  | @received rs rs' state w w' data _ hw hstate _ _ hresult ih =>
      have h := consume_answer build ih.1 (ih.2 w hw hstate) data
      rw [hresult] at h
      refine ⟨h.2.1, fun w'' hw'' hstate'' => ⟨hw'', ?_⟩⟩
      rw [hstate'']
      exact h.2.2.state

def restingWorld : World App where
  pools := BufferPools.initial
  app :=
    { client := 0
      socket := 4
      state := PROTOCOL_HANDSHAKING
      arenas := TickArenas.initTickArenas 0x100000000 0x200000000
      net := Net.initial none
      surroundings := fun _ => ⟨id, fun _ => 0, fun _ => 0, 0⟩
      asked := [] }

/-- A frame that is too large fails a check before anything is dispatched. -/
theorem consume_large_frame (h : config.maxRecvPacketSize < 127) (w : World App) :
    (consume build config ReceiverState.initial w [127]).1 = .checkFailed ∧
      CarefulChunk build config ReceiverState.initial w [127] := by
  have hresult :
      let result := receiverConsumeData config (observed (dispatcher build config false))
        ReceiverState.initial ⟨w.pools, w.app, []⟩ [127]
      result.1 = .checkFailed ∧ result.2.2 = ⟨w.pools, w.app, []⟩ :=
    receiverConsumeData_large Idle.initial (by decide) h
  rcases hresult with ⟨herr, hw⟩
  constructor
  · rw [consume_eq build config []]
    exact herr
  · intro call hcall
    rw [consumeObserved, show ReceiverState.initial.compression = false from rfl, hw] at hcall
    cases hcall

/-- A client whose packets have no count that makes a room check wrong cannot make the receiver
return anything but `NO_ERROR` and `ERROR_PROTOCOL`, exactly when every frame that the receiver can
announce fits `max_recv_packet_size`. -/
theorem client_answers_iff :
    (∀ rs state w data, ClientReached build config rs state → w.app.net.Ample →
      w.app.state = state → data ≠ [] → data.length ≤ config.recvBufferSize →
      CarefulChunk build config rs w data → Answer (consume build config rs w data).1) ↔
      config.recvBufferSize = 0 ∨ 127 ≤ config.maxRecvPacketSize := by
  constructor
  · intro h
    by_contra hconfig
    rw [not_or, Nat.not_le] at hconfig
    rcases consume_large_frame build config hconfig.2 restingWorld with ⟨hlarge, hcareful⟩
    have hanswer := h ReceiverState.initial PROTOCOL_HANDSHAKING restingWorld [127] .accepted
      ⟨rfl, rfl⟩ rfl (by decide) (Nat.pos_of_ne_zero hconfig.1) hcareful
    rw [hlarge] at hanswer
    rcases hanswer with hok | hprotocol
    · cases hok
    · cases hprotocol
  · intro hconfig rs state w data hreached hample hstate hdata hlength hcareful
    have hpos : data.length ≠ 0 := mt List.length_eq_zero_iff.mp hdata
    rcases hreached.resumable with ⟨hrs, hserving⟩
    rcases (consume_answer build hrs (hserving w hample hstate) data).1 hcareful with
      hanswer | hlarge
    · exact hanswer
    · omega

/-- A server that takes packets of at most 100 bytes, and a client that announces 127. -/
theorem client_stops_server :
    ¬ ∀ build config rs state w data, ClientReached build config rs state → w.app.net.Ample →
      w.app.state = state → data ≠ [] → data.length ≤ config.recvBufferSize →
        Answer (consume build config rs w data).1 := by
  intro h
  have hanswer := h ⟨fun _ k => k, fun _ => 1⟩ { defaultConfig with maxRecvPacketSize := 100 }
    ReceiverState.initial PROTOCOL_HANDSHAKING restingWorld [127] .accepted ⟨rfl, rfl⟩ rfl
    (by decide) (by decide)
  rw [(consume_large_frame _ _ (by decide) _).1] at hanswer
  rcases hanswer with hok | hprotocol
  · cases hok
  · cases hprotocol

end

end CmcServer
