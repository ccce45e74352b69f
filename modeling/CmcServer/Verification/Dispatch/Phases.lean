import CmcServer.Verification.Dispatch.Calls
import CmcServer.Verification.Dispatch.Results

/-! # The phases of a client

`client->state` selects the packets that are dispatched, and one of these packets carries the next
state. -/

namespace CmcServer

open ProtoDef ReceiverState

def ValidPhase (state : ℤ) : Prop :=
  state = PROTOCOL_HANDSHAKING ∨ state = PROTOCOL_STATUS ∨ state = PROTOCOL_LOGIN

/-- A call on a set_protocol frame that the reader consumes completely. The state after the call
is the one in the frame, and login takes the right version. -/
def AdvancesBySetProtocol (build : Build) (call : DispatchCall) : Prop :=
  let read := readPacketId call.data call.size call.before
  let left := toInt32 (call.size - read.ret)
  read.ret ≥ 0 ∧ read.value = 0 ∧ ∃ s,
    readPacket build "handshaking_packet_set_protocol" Packets.handshakingSetProtocol
      (call.data.drop read.ret.toNat) left call.before = some (left, s) ∧
    call.after.app.state = s.mem [.field "next_state"] ∧
    (call.after.app.state = PROTOCOL_STATUS ∨ call.after.app.state = PROTOCOL_LOGIN) ∧
    (call.after.app.state = PROTOCOL_LOGIN →
      s.mem [.field "protocol_version"] = PROTOCOL_VERSION)

/-- What a call does to the state of its client. -/
structure PhaseCall (build : Build) (call : DispatchCall) : Prop where
  before : ValidPhase call.before.app.state
  after : ValidPhase call.after.app.state
  refused : call.err = .protocol → call.after.app.state = call.before.app.state
  changed : call.after.app.state ≠ call.before.app.state →
    call.before.app.state = PROTOCOL_HANDSHAKING ∧ AdvancesBySetProtocol build call

/-! ## Handlers that leave the state alone -/

section

variable {build : Build} {config : ServerConfig} {compression : Bool}

def KeepsState (process : (Loc → ℤ) → World App → Option (Err × World App)) : Prop :=
  ∀ packet w err w', process packet w = some (err, w') → w'.app.state = w.app.state

theorem sendPacket_state {packetId : ℤ} {name : String} {t : Ty} {packet : Loc → ℤ}
    {w w' : World App} {err : Err}
    (h : sendPacket build config compression packetId name t packet w = some (err, w')) :
    w'.app.state = w.app.state := by
  simp only [sendPacket] at h
  split at h
  · cases h
  · rcases Option.map_eq_some_iff.mp h with ⟨sent, -, heq⟩
    cases heq
    rfl

theorem keepsState_ping : KeepsState (processStatusPacketPing build config compression) := by
  intro packet w err w' h
  rw [processStatusPacketPing, sendStatusPacketPong] at h
  exact sendPacket_state h

theorem keepsState_pingStart :
    KeepsState (processStatusPacketPingStart build config compression) := by
  intro packet w err w' h
  rw [processStatusPacketPingStart, sendStatusPacketServerInfo] at h
  exact sendPacket_state h

theorem dispatchTyped_state {name : String} {t : Ty}
    {process : (Loc → ℤ) → World App → Option (Err × World App)} (hprocess : KeepsState process)
    {data : List UInt8} {size : ℤ} {w w' : World App} {err : Err}
    (h : dispatchTyped build name t process data size w = some (err, w')) :
    w'.app.state = w.app.state := by
  rw [dispatchTyped_eq] at h
  split at h
  · cases h
  · rename_i readSize s _
    rcases Option.map_eq_some_iff.mp h with ⟨⟨err', w''⟩, hresult, heq⟩
    cases heq
    rw [releaseArena_state]
    split at hresult
    · cases hresult
      rfl
    · have hstate := hprocess s.mem (handlerWorld s w) _ _ hresult
      rwa [handlerWorld_state] at hstate

/-- The handler of set_protocol takes the state from its packet, or leaves it alone. -/
theorem processHandshakingPacketSetProtocol_state {packet : Loc → ℤ} {w w' : World App} {err : Err}
    (h : processHandshakingPacketSetProtocol packet w = (err, w')) :
    w'.app.state = w.app.state ∨
      err = .noError ∧ w'.app.state = packet [.field "next_state"] ∧
        (w'.app.state = PROTOCOL_STATUS ∨ w'.app.state = PROTOCOL_LOGIN) ∧
        (w'.app.state = PROTOCOL_LOGIN →
          packet [.field "protocol_version"] = PROTOCOL_VERSION) := by
  rw [processHandshakingPacketSetProtocol] at h
  split at h
  · rename_i hstatus
    cases h
    refine Or.inr ⟨rfl, rfl, Or.inl hstatus, ?_⟩
    intro hlogin
    exact absurd (hstatus.symm.trans hlogin) (by decide)
  · split at h
    · rename_i hlogin
      split at h
      · cases h
        exact Or.inl rfl
      · rename_i hversion
        cases h
        exact Or.inr ⟨rfl, rfl, Or.inr hlogin, fun _ => not_not.mp hversion⟩
    · cases h
      exact Or.inl rfl

/-! ## One call -/

theorem dispatchHandshaking_state {data : List UInt8} {size : ℤ} {w w' : World App} {err : Err}
    (h : dispatchHandshakingPacketSetProtocol build data size w = some (err, w')) :
    w'.app.state = w.app.state ∨ err = .noError ∧
      ∃ s, readPacket build "handshaking_packet_set_protocol" Packets.handshakingSetProtocol data
          size w = some (size, s) ∧
        w'.app.state = s.mem [.field "next_state"] ∧
        (w'.app.state = PROTOCOL_STATUS ∨ w'.app.state = PROTOCOL_LOGIN) ∧
        (w'.app.state = PROTOCOL_LOGIN →
          s.mem [.field "protocol_version"] = PROTOCOL_VERSION) := by
  rw [dispatchHandshakingPacketSetProtocol, dispatchTyped_eq] at h
  split at h
  · cases h
  · rename_i readSize s hread
    rcases Option.map_eq_some_iff.mp h with ⟨⟨err', w''⟩, hresult, heq⟩
    cases heq
    simp only [releaseArena_state]
    split at hresult
    · cases hresult
      exact Or.inl rfl
    · rename_i hsize
      rw [not_not.mp hsize] at hread
      have hstate := processHandshakingPacketSetProtocol_state (Option.some.inj hresult)
      rw [handlerWorld_state] at hstate
      rcases hstate with hsame | ⟨hok, hadvance⟩
      · exact Or.inl hsame
      · exact Or.inr ⟨hok, s, hread, hadvance⟩

theorem dispatchPacket_state {data : List UInt8} {size : ℤ} {w w' : World App} {err : Err}
    (h : dispatchPacket build config compression data size w = some (err, w')) :
    w'.app.state = w.app.state ∨ err = .noError ∧ w.app.state = PROTOCOL_HANDSHAKING ∧
      AdvancesBySetProtocol build ⟨data, size, w, err, w'⟩ := by
  have hkept : ∀ process : (Loc → ℤ) → World App → Err × World App,
      (∀ packet w, (process packet w).2 = w) →
      KeepsState fun packet w => some (process packet w) := by
    intro process hsame packet w err w' hresult
    rw [← hsame packet w, Option.some.inj hresult]
  rw [dispatchPacket] at h
  split at h
  · cases h
    exact Or.inl rfl
  · rename_i hret
    split at h
    · rename_i hphase
      split at h
      · rename_i hid
        rcases dispatchHandshaking_state h with hsame | ⟨hok, s, hread, hadvance⟩
        · exact Or.inl hsame
        · exact Or.inr ⟨hok, hphase, not_not.mp hret, hid, s, hread, hadvance⟩
      · cases h
        exact Or.inl rfl
    · refine Or.inl ?_
      split at h
      · split at h
        · exact dispatchTyped_state keepsState_pingStart h
        · split at h
          · exact dispatchTyped_state keepsState_ping h
          · cases h
            rfl
      · split at h
        · split at h
          · exact dispatchTyped_state (hkept _ fun _ _ => rfl) h
          · split at h
            · exact dispatchTyped_state (hkept _ fun _ _ => rfl) h
            · split at h
              · exact dispatchTyped_state (hkept _ fun _ _ => rfl) h
              · cases h
                rfl
        · cases h
          rfl

theorem phaseCall_dispatcher {data : List UInt8} {size : ℤ} {w w' : World App} {err : Err}
    (hvalid : ValidPhase w.app.state)
    (h : dispatcher build config compression data size w = (err, w')) :
    PhaseCall build ⟨data, size, w, err, w'⟩ := by
  rw [dispatcher] at h
  cases hresult : dispatchPacket build config compression data size w with
  | none =>
      rw [hresult] at h
      cases h
      exact ⟨hvalid, hvalid, fun _ => rfl, fun hne => absurd rfl hne⟩
  | some result =>
      rw [hresult] at h
      cases h
      rcases dispatchPacket_state hresult with hsame | ⟨hok, hphase, hadvance⟩
      · exact ⟨hvalid, by rw [ValidPhase, hsame]; exact hvalid, fun _ => hsame,
          fun hne => absurd hsame hne⟩
      · rcases hadvance with ⟨hret, hid, s, hread, hstate, hnext, hversion⟩
        refine ⟨hvalid, Or.inr hnext, ?_, fun _ => ⟨hphase, hret, hid, s, hread, hstate, hnext,
          hversion⟩⟩
        intro hprotocol
        cases hok.symm.trans hprotocol

end

/-! ## Runs -/

/-- The states around the calls of a record fit together, from `state` on. -/
def Chained (state : ℤ) : List DispatchCall → ℤ → Prop
  | [], last => last = state
  | call :: calls, last =>
      call.before.app.state = state ∧ Chained call.after.app.state calls last

theorem chained_append {state last : ℤ} {calls : List DispatchCall} {call : DispatchCall}
    (h : Chained state calls last) (hcall : call.before.app.state = last) :
    Chained state (calls ++ [call]) call.after.app.state := by
  induction calls generalizing state with
  | nil => exact ⟨hcall.trans h, rfl⟩
  | cons first calls ih => exact ⟨h.1, ih h.2⟩

def changes (calls : List DispatchCall) : List DispatchCall :=
  calls.filter fun call => call.after.app.state ≠ call.before.app.state

/-- A client's calls of `dispatch_packet` from its accept to its state now. -/
structure PhaseLog (build : Build) (calls : List DispatchCall) (state : ℤ) : Prop where
  valid : ValidPhase state
  law : ∀ call ∈ calls, PhaseCall build call
  chained : Chained PROTOCOL_HANDSHAKING calls state
  once : (changes calls).length ≤ 1
  unchanged : state = PROTOCOL_HANDSHAKING → changes calls = []

section

variable {build : Build}

theorem PhaseLog.initial : PhaseLog build [] PROTOCOL_HANDSHAKING where
  valid := Or.inl rfl
  law := by simp
  chained := rfl
  once := by simp [changes]
  unchanged := fun _ => rfl

theorem PhaseLog.snoc {calls : List DispatchCall} {state : ℤ} {call : DispatchCall}
    (h : PhaseLog build calls state) (hbefore : call.before.app.state = state)
    (hcall : PhaseCall build call) : PhaseLog build (calls ++ [call]) call.after.app.state := by
  have hlaw : ∀ c ∈ calls ++ [call], PhaseCall build c := by
    intro c hc
    rcases List.mem_append.mp hc with hc | hc
    · exact h.law c hc
    · rw [List.mem_singleton.mp hc]
      exact hcall
  have hsplit : changes (calls ++ [call]) = changes calls ++ changes [call] :=
    List.filter_append _ _
  by_cases hsame : call.after.app.state = call.before.app.state
  · have hnone : changes [call] = [] := by simp [changes, hsame]
    rw [hnone, List.append_nil] at hsplit
    refine ⟨hcall.after, hlaw, chained_append h.chained hbefore, ?_, ?_⟩
    · rw [hsplit]
      exact h.once
    · intro hstate
      rw [hsplit]
      exact h.unchanged (hbefore.symm.trans (hsame.symm.trans hstate))
  · rcases hcall.changed hsame with ⟨hphase, -, -, -, -, -, hnext, -⟩
    have hearlier : changes calls = [] := h.unchanged (hbefore.symm.trans hphase)
    refine ⟨hcall.after, hlaw, chained_append h.chained hbefore, ?_, ?_⟩
    · rw [hsplit, hearlier]
      simp [changes, hsame]
    · intro hstate
      rw [hstate] at hnext
      exact absurd hnext (by decide)

end

section

variable (build : Build) (config : ServerConfig)

/-- The receiver state, the phase and the calls of a client that any chunks were received from,
whatever else happened between them. -/
inductive ClientRun : ReceiverState → ℤ → List DispatchCall → Prop where
  | accepted : ClientRun ReceiverState.initial PROTOCOL_HANDSHAKING []
  | received {rs state calls} (w : World App) (data : List UInt8) : ClientRun rs state calls →
      w.app.state = state → ClientRun (consumeObserved build config calls rs w data).2.1
        (consumeObserved build config calls rs w data).2.2.app.1.state
        (consumeObserved build config calls rs w data).2.2.app.2

theorem phaseLaw (compression : Bool) :
    DispatchLaw (observed (dispatcher build config compression))
      (fun w => PhaseLog build w.app.2 w.app.1.state) fun _ => True where
  pools := fun _ _ hw => hw
  dispatch := by
    intro bytes n w hw _
    rw [observed_eq]
    exact ⟨trivial, hw.snoc rfl (phaseCall_dispatcher hw.valid rfl)⟩

variable {build config}

theorem ClientRun.resumable_phases {rs : ReceiverState} {state : ℤ} {calls : List DispatchCall}
    (h : ClientRun build config rs state calls) :
    Resumable config rs ∧ PhaseLog build calls state := by
  induction h with
  | accepted => exact ⟨Or.inl Idle.initial, PhaseLog.initial⟩
  | @received rs state calls w data _ hstate ih =>
      subst hstate
      rcases (phaseLaw build config rs.compression).receiverConsumeData
        (w := ⟨w.pools, w.app, calls⟩) ih.1 ih.2 data with ⟨-, hresumable, hlog⟩
      exact ⟨hresumable, hlog⟩

/-- The state of a client is always a known phase. It changes at most once, in the handshake, by a
complete set_protocol frame, to login only with the right version, and a refused frame leaves it
alone. -/
theorem client_phases {rs : ReceiverState} {state : ℤ} {calls : List DispatchCall}
    (h : ClientRun build config rs state calls) : PhaseLog build calls state :=
  h.resumable_phases.2

/-- A handshake to status, cut in two. -/
theorem client_phases_handshake :
    let build : Build := ⟨fun _ k => k, fun _ => 1⟩
    let first := consumeObserved build defaultConfig [] .initial restingWorld [7, 0, 0xF5, 0x05]
    let w : World App := ⟨first.2.2.pools, first.2.2.app.1⟩
    let second := consumeObserved build defaultConfig first.2.2.app.2 first.2.1 w [0, 0, 0, 1]
    PhaseLog build second.2.2.app.2 second.2.2.app.1.state ∧
      second.2.2.app.1.state = PROTOCOL_STATUS := by
  intro build first w second
  refine ⟨client_phases (.received w _ (.received restingWorld _ .accepted rfl) rfl), ?_⟩
  decide +kernel

end

end CmcServer
