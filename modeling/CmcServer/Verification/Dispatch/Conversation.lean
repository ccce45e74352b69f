import CmcServer.Verification.Dispatch.Effects
import CmcServer.Verification.Dispatch.Phases
import CmcServer.Verification.Dispatch.Status
import CmcServer.Verification.Receiver.Framing

/-! # Status conversations

A client that has shaken hands for status, from its first byte to the first packet that is
refused. -/

namespace CmcServer

open Deframer ReceiverState

/-! ## Conversations -/

/-- What may happen between two chunks of a client. Resources do not run out, and the state of the
client and the packet it is receiving are left alone. -/
structure Meanwhile (rs : ReceiverState) (w v : World App) : Prop where
  client : v.app.client = w.app.client
  state : v.app.state = w.app.state
  packet : ∀ b, rs.held = some b → v.pools.memory b = w.pools.memory b
  ample : v.app.net.Ample

section

variable (build : Build) (config : ServerConfig)

/-- The bytes of a client, the last result, its calls of `dispatch_packet` and those of
`server_send_packet`. The bytes come in any chunks, until there is an error. -/
inductive Conversation : List UInt8 → Err → ReceiverState → World App → List DispatchCall →
    List SendCall → Prop where
  | connected {w} : w.app.state = PROTOCOL_HANDSHAKING → w.app.net.Ample →
      Conversation [] .noError ReceiverState.initial w [] []
  | received {bytes rs w calls sent v data err rs' w' asked} :
      Conversation bytes .noError rs w calls sent → Meanwhile rs w v →
      consumeObserved build config calls rs v data = (err, rs', w') →
      w'.app.1.asked = v.app.asked ++ asked →
      Conversation (bytes ++ data) err rs' ⟨w'.pools, w'.app.1⟩ w'.app.2 (sent ++ asked)

end

def upToRefused : List (List UInt8) → List (List UInt8)
  | [] => []
  | payload :: payloads =>
      if (statusReply payload).isSome then payload :: upToRefused payloads else [payload]

theorem upToRefused_of_all {payloads : List (List UInt8)}
    (h : ∀ payload ∈ payloads, (statusReply payload).isSome) : upToRefused payloads = payloads := by
  induction payloads with
  | nil => rfl
  | cons payload payloads ih =>
      rw [upToRefused, if_pos (h payload List.mem_cons_self),
        ih fun p hp => h p (List.mem_cons_of_mem _ hp)]

theorem upToRefused_of_last {before payloads : List (List UInt8)} {last : List UInt8}
    (h : ∀ payload ∈ before, (statusReply payload).isSome) (hlast : statusReply last = none)
    (hpre : before ++ [last] <+: payloads) : upToRefused payloads = before ++ [last] := by
  induction before generalizing payloads with
  | nil =>
      rcases hpre with ⟨rest, rfl⟩
      simp [upToRefused, hlast]
  | cons payload before ih =>
      rcases hpre with ⟨rest, rfl⟩
      rw [List.cons_append, List.cons_append, upToRefused, if_pos (h payload List.mem_cons_self),
        ih (fun p hp => h p (List.mem_cons_of_mem _ hp)) ⟨rest, by simp⟩]

/-! ## The receiver and the packets in its stream -/

def accept (_payload : List UInt8) (_length : ℤ) (state : Unit) : Err × Unit := (.noError, state)

def AllReply (calls : List DispatchCall) : Prop :=
  ∀ call ∈ calls, Replies call.before call.data call.err call.after

/-- The calls behind one that went to status, and what they sent. The call that goes to status
sends nothing. -/
structure Answering (calls : List DispatchCall) (state : ℤ) (sent : List SendCall) : Prop where
  fresh : calls = [] → state = PROTOCOL_HANDSHAKING ∧ sent = []
  status : ∀ first rest, calls = first :: rest → first.err = .noError →
    first.after.app.state = PROTOCOL_STATUS → state = PROTOCOL_STATUS ∧ AllReply rest ∧
      sent.map SendCall.packet = rest.filterMap fun call => statusReply call.data

def SentSince (start sent : List SendCall) (app : App × List DispatchCall) : Prop :=
  ∃ asked, app.1.asked = start ++ asked ∧ Answering app.2 app.1.state (sent ++ asked)

/-- The calls of a client that has delivered the packets of a session. -/
structure Conversing (start sent : List SendCall) (app : App × List DispatchCall)
    (c : Session Unit) : Prop where
  active : c.err = .noError
  data : app.2.map DispatchCall.data = c.log.map Delivery.payload
  serving : ∀ pools, Serving ⟨pools, app.1⟩
  accepted : ∀ call ∈ app.2, call.err = .noError
  sending : SentSince start sent app

/-- The calls of a client of which the last one failed. -/
structure Broken (start sent : List SendCall) (err : Err) (app : App × List DispatchCall)
    (c : Session Unit) : Prop where
  data : app.2.map DispatchCall.data = c.log.map Delivery.payload
  last : err ≠ .noError ∧ ∃ before last, app.2 = before ++ [last] ∧ last.err = err ∧
    ∀ call ∈ before, call.err = .noError
  sending : SentSince start sent app

section

variable {build : Build} {config : ServerConfig}

theorem dispatcher_handshaking {data : List UInt8} {size : ℤ} {w : World App}
    (hstate : w.app.state = PROTOCOL_HANDSHAKING) :
    (dispatcher build config false data size w).2.app.asked = w.app.asked := by
  have hphase : w.app.state ≠ PROTOCOL_STATUS := by
    rw [hstate]
    decide
  rcases dispatcher_quiet build config hphase data size with ⟨err, app', hresult, -, hasked⟩
  rw [hresult w.pools]
  exact hasked

theorem Answering.snoc {calls : List DispatchCall} (call : DispatchCall) {sent : List SendCall}
    (h : Answering calls call.before.app.state sent)
    (haccepted : ∀ c ∈ calls, c.err = .noError)
    (hhandshake : call.before.app.state = PROTOCOL_HANDSHAKING →
      call.after.app.asked = call.before.app.asked)
    (hstatus : call.before.app.state = PROTOCOL_STATUS →
      Replies call.before call.data call.err call.after)
    {asked : List SendCall} (hasked : call.after.app.asked = call.before.app.asked ++ asked) :
    Answering (calls ++ [call]) call.after.app.state (sent ++ asked) where
  fresh := fun hnil => absurd hnil (by simp)
  status := by
    intro first rest hcalls hok hstate
    cases calls with
    | nil =>
        rw [List.nil_append, List.cons.injEq] at hcalls
        rcases hcalls with ⟨rfl, rfl⟩
        rcases h.fresh rfl with ⟨hbefore, rfl⟩
        have hnone : asked = [] := by
          rw [hhandshake hbefore] at hasked
          exact List.self_eq_append_right.mp hasked
        rw [hnone]
        exact ⟨hstate, by simp [AllReply], rfl⟩
    | cons first' rest' =>
        rw [List.cons_append, List.cons.injEq] at hcalls
        rcases hcalls with ⟨rfl, rfl⟩
        rcases h.status _ _ rfl hok hstate with ⟨hbefore, hreplies, hsent⟩
        have hreply := hstatus hbefore
        refine ⟨hreply.state.trans hbefore, ?_, ?_⟩
        · intro c hc
          rcases List.mem_append.mp hc with hc | hc
          · exact hreplies c hc
          · rw [List.mem_singleton.mp hc]
            exact hreply
        · rw [List.map_append, List.filterMap_append, hsent]
          congr 1
          cases hanswer : statusReply call.data with
          | none =>
              rw [(hreply.refused hanswer).2.1] at hasked
              rw [List.self_eq_append_right.mp hasked]
              simp [hanswer]
          | some reply =>
              rw [(hreply.answered reply hanswer).2] at hasked
              rw [← List.append_cancel_left hasked]
              simp [hanswer]

theorem Conversing.call (hconfig : SendsStatus config) {start sent : List SendCall}
    {w w' : World (App × List DispatchCall)} {c : Session Unit} {payload : List UInt8} {err : Err}
    (h : Conversing start sent w.app c) (hlength : payload.length < 128)
    (hcall : observed (dispatcher build config false) payload payload.length w = (err, w')) :
    ∃ call, w'.app.2 = w.app.2 ++ [call] ∧ call.data = payload ∧ call.err = err ∧
      (∀ pools, Serving ⟨pools, w'.app.1⟩) ∧ SentSince start sent w'.app := by
  have hserving := h.serving w.pools
  rcases (servingLaw build config).dispatch payload payload.length ⟨w.pools, w.app.1⟩ hserving
    hlength with ⟨-, hafter⟩
  have hreply : w.app.1.state = PROTOCOL_STATUS → Replies ⟨w.pools, w.app.1⟩ payload
      (dispatcher build config false payload payload.length ⟨w.pools, w.app.1⟩).1
      (dispatcher build config false payload payload.length ⟨w.pools, w.app.1⟩).2 :=
    fun hstate => dispatcher_replies build config hconfig hserving.ample hstate (by omega)
  have hmore : ∃ asked,
      (dispatcher build config false payload payload.length ⟨w.pools, w.app.1⟩).2.app.asked =
        w.app.1.asked ++ asked := by
    cases (dispatcher_effect build config payload payload.length ⟨w.pools, w.app.1⟩).work with
    | kept _ _ hasked => exact ⟨[], hasked.trans (List.append_nil _).symm⟩
    | unwritten _ _ _ _ hasked => exact ⟨[], hasked.trans (List.append_nil _).symm⟩
    | issued _ _ _ _ _ _ hasked => exact ⟨_, hasked⟩
  rcases hmore with ⟨asked', hasked'⟩
  rcases h.sending with ⟨asked, hasked, hanswering⟩
  rw [observed_eq] at hcall
  cases hcall
  refine ⟨_, rfl, rfl, rfl, fun pools => (servingLaw build config).pools _ pools hafter,
    asked ++ asked', ?_, ?_⟩
  · dsimp only
    rw [hasked', hasked, List.append_assoc]
  · rw [← List.append_assoc]
    exact Answering.snoc ⟨payload, payload.length, ⟨w.pools, w.app.1⟩, _, _⟩ hanswering h.accepted
      dispatcher_handshaking hreply hasked'

theorem map_payload_deliver (c : Session Unit) (payload : List UInt8) :
    (c.deliver accept payload).log.map Delivery.payload =
      c.log.map Delivery.payload ++ [payload] := by
  simp [Session.deliver]

variable (build) in
theorem observed_consumes (hconfig : SendsStatus config) (start sent : List SendCall) :
    Consumes (observed (dispatcher build config false)) (Session.deliver accept) Session.Halted
      (Conversing start sent) (Broken start sent) where
  active := fun h hhalt => hhalt h.active
  accepted := by
    intro payload w w' c h hlength hcall
    rcases h.call hconfig hlength hcall with ⟨call, hcalls, hdata, herr, hserving, hsending⟩
    refine ⟨rfl, ?_, hserving, ?_, hsending⟩
    · rw [hcalls, map_payload_deliver, List.map_append, h.data, List.map_singleton, hdata]
    · intro c' hc'
      rw [hcalls] at hc'
      rcases List.mem_append.mp hc' with hc' | hc'
      · exact h.accepted c' hc'
      · rw [List.mem_singleton.mp hc']
        exact herr
  refused := by
    intro payload w w' c err h hlength hcall hfailed
    rcases h.call hconfig hlength hcall with ⟨call, hcalls, hdata, herr, -, hsending⟩
    refine ⟨?_, ⟨hfailed, w.app.2, call, hcalls, herr, h.accepted⟩, hsending⟩
    rw [hcalls, map_payload_deliver, List.map_append, h.data, List.map_singleton, hdata]

/-! ## Conversations and the packets in their streams -/

theorem atPhase_meanwhile {rs : ReceiverState} {w v : World App} {done : List ℕ}
    {s : State UInt8 (Session Unit)} (hphase : AtPhase rs w.pools done s)
    (h : Meanwhile rs w v) : AtPhase rs v.pools done s := by
  rw [AtPhase] at hphase ⊢
  split at hphase
  · exact hphase
  · rcases hphase with ⟨hfilling, hsizes⟩
    rcases hfilling.buffer with ⟨b, hpacket, hcontents⟩
    have hheld : rs.held = some b := by
      rw [ReceiverState.held, hfilling.shouldReturn, hpacket]
    refine ⟨{ hfilling with buffer := ⟨b, hpacket, ?_⟩ }, hsizes⟩
    rw [BufferPools.contents, h.packet b hheld]
    exact hcontents

theorem Conversing.meanwhile {rs : ReceiverState} {start sent : List SendCall}
    {w v : World App} {calls : List DispatchCall} {c : Session Unit}
    (hconversing : Conversing start sent (w.app, calls) c)
    {asked : List SendCall} (hasked : w.app.asked = start ++ asked) (h : Meanwhile rs w v) :
    Conversing v.app.asked (sent ++ asked) (v.app, calls) c where
  active := hconversing.active
  data := hconversing.data
  serving := by
    intro pools
    refine ⟨h.ample, ?_⟩
    rw [h.state]
    exact (hconversing.serving pools).state
  accepted := hconversing.accepted
  sending := by
    rcases hconversing.sending with ⟨asked', hasked', hanswering⟩
    rw [hasked] at hasked'
    rw [← List.append_cancel_left hasked'] at hanswering
    refine ⟨[], (List.append_nil _).symm, ?_⟩
    rw [List.append_nil, h.state]
    exact hanswering

theorem AtPhase.compression {κ : Type*} {rs : ReceiverState} {pools : BufferPools}
    {done : List ℕ} {s : State UInt8 κ} (h : AtPhase rs pools done s) :
    rs.compression = false := by
  rw [AtPhase] at h
  split at h
  · exact h.1.compression
  · exact h.1.compression

/-- A client without an error has delivered the packets in its bytes, and one with an error some
of them. -/
theorem Conversation.ends (hconfig : SendsStatus config) {bytes : List UInt8} {err : Err}
    {rs : ReceiverState} {w : World App} {calls : List DispatchCall} {sent : List SendCall}
    (h : Conversation build config bytes err rs w calls sent)
    (hfits : ∀ n ∈ (deframe accept (freshDeframer ()) bytes).sizes,
      n ≤ config.maxRecvPacketSize) :
    ∃ start before asked, sent = before ++ asked ∧ w.app.asked = start ++ asked ∧
      Ends (Session.deliver accept) Session.Halted (Conversing start before) (Broken start before)
        (freshDeframer ()) bytes (err, rs, ⟨w.pools, w.app, calls⟩) := by
  induction h with
  | @connected w hstate hample =>
      refine ⟨w.app.asked, [], [], rfl, (List.append_nil _).symm, fun _ => ⟨⟨rfl, rfl,
        fun _ => ⟨hample, Or.inl hstate⟩, by simp, [], (List.append_nil _).symm, ?_⟩, [],
        atPhase_fresh _ _⟩, fun hne => absurd rfl hne⟩
      refine ⟨fun _ => ⟨hstate, rfl⟩, ?_⟩
      intro first rest hcalls
      cases hcalls
  | @received bytes rs w calls sent v data err rs' w' asked _ hmeanwhile hconsume hasked ih =>
      have hsplit := run_append frameSize (Session.deliver accept) Session.Halted
        (freshDeframer ()) bytes data
      rw [deframe, hsplit] at hfits
      rcases ih fun n hn => hfits n ((sizes_run _ _ _ _ _).subset hn) with
        ⟨start, before, asked', rfl, hasked', hends⟩
      rcases hends.1 rfl with ⟨hconversing, done, hphase⟩
      rw [consumeObserved, hphase.compression] at hconsume
      have hcall := receiverConsumeData_ends config
        (observed_consumes build hconfig v.app.asked (before ++ asked'))
        (w := ⟨v.pools, v.app, calls⟩) (hconversing.meanwhile hasked' hmeanwhile)
        (atPhase_meanwhile hphase hmeanwhile) hfits
      rw [hconsume] at hcall
      refine ⟨v.app.asked, before ++ asked', asked, rfl, hasked, ?_⟩
      rw [Ends, hsplit]
      exact hcall

/-! ## The whole conversation -/

theorem packets_log (payloads : List (List UInt8)) :
    (payloads.map fun payload => (⟨payload, payload.length, .noError⟩ : Delivery)).map
      Delivery.payload = payloads := by
  simp [List.map_map, Function.comp_def]

/-- The packets in the first bytes of a stream are the first packets in it. -/
theorem log_deframe_append (s : State UInt8 (Session Unit)) (stream : List UInt8) :
    s.consumer.log <+: (deframe accept s stream).consumer.log :=
  consumer_run frameSize (Session.deliver accept) Session.Halted
    (r := fun c c' => c.log <+: c'.log) (fun _ => List.prefix_refl _) List.IsPrefix.trans
    (fun _ _ => List.prefix_append _ _) s stream

/-- The frames of short packets, as the deframer takes them apart. -/
theorem deframe_stream {payloads : List (List UInt8)} {stream : List UInt8}
    (hstream : framesOf payloads = some stream)
    (hshort : ∀ payload ∈ payloads, payload.length < 128) :
    (deframe accept (freshDeframer ()) stream).sizes = payloads.map List.length ∧
      (deframe accept (freshDeframer ()) stream).consumer.log.map Delivery.payload = payloads := by
  have hstart : ¬ (freshDeframer ()).consumer.Halted := fun h => h rfl
  have haccept : ∀ payload n s, (accept payload n s).1 = .noError := fun _ _ _ => rfl
  rcases deframe_frames haccept hshort hstream hstart rfl with ⟨-, -, hsizes, hlog⟩
  refine ⟨hsizes.trans (List.nil_append _), ?_⟩
  rw [hlog]
  exact packets_log payloads

/-- The calls of `dispatch_packet` in a conversation, in order. -/
theorem Conversation.calls (hconfig : SendsStatus config) {bytes stream : List UInt8} {err : Err}
    {rs : ReceiverState} {w : World App} {calls : List DispatchCall} {sent : List SendCall}
    (h : Conversation build config bytes err rs w calls sent) {payloads : List (List UInt8)}
    (hstream : framesOf payloads = some stream)
    (hsize : ∀ payload ∈ payloads, payload.length < 128 ∧
      payload.length ≤ config.maxRecvPacketSize) (hpre : bytes <+: stream) :
    Answering calls w.app.state sent ∧
      (err = .noError → bytes = stream → calls.map DispatchCall.data = payloads ∧
        ∀ call ∈ calls, call.err = .noError) ∧
      (err ≠ .noError → calls.map DispatchCall.data <+: payloads ∧
        ∃ before last, calls = before ++ [last] ∧ last.err = err ∧
          ∀ call ∈ before, call.err = .noError) := by
  rcases deframe_stream hstream fun payload hp => (hsize payload hp).1 with ⟨hsizes, hlog⟩
  rcases hpre with ⟨more, rfl⟩
  have hsplit := run_append frameSize (Session.deliver accept) Session.Halted (freshDeframer ())
    bytes more
  have hfits : ∀ n ∈ (deframe accept (freshDeframer ()) bytes).sizes,
      n ≤ config.maxRecvPacketSize := by
    intro n hn
    have hmem : n ∈ payloads.map List.length := by
      rw [← hsizes, deframe, hsplit]
      exact (sizes_run _ _ _ _ _).subset hn
    rcases List.mem_map.mp hmem with ⟨payload, hpayload, rfl⟩
    exact (hsize payload hpayload).2
  rcases h.ends hconfig hfits with ⟨start, before, asked, rfl, hasked, hends⟩
  have hanswering : SentSince start before (w.app, calls) → Answering calls w.app.state
      (before ++ asked) := by
    rintro ⟨asked', hasked', hanswering⟩
    dsimp only at hasked'
    rw [hasked] at hasked'
    rwa [← List.append_cancel_left hasked'] at hanswering
  by_cases hok : err = .noError
  · rcases hends.1 hok with ⟨hconversing, -⟩
    refine ⟨hanswering hconversing.sending, ?_, fun hne => absurd hok hne⟩
    intro _ hall
    rw [← hall] at hlog
    exact ⟨hconversing.data.trans hlog, hconversing.accepted⟩
  · rcases hends.2 hok with ⟨s', rest, hrun, hbroken⟩
    refine ⟨hanswering hbroken.sending, fun h => absurd h hok, fun _ => ⟨?_, hbroken.last.2⟩⟩
    have hdata : calls.map DispatchCall.data = s'.consumer.log.map Delivery.payload := hbroken.data
    have hsame : deframe accept (freshDeframer ()) (bytes ++ more) =
        deframe accept s' (rest ++ more) := by
      rw [deframe, hsplit, hrun, ← run_append]
    rw [hdata, ← hlog, hsame]
    exact (log_deframe_append s' (rest ++ more)).map _

end

/-! ## A client that sends one chunk -/

section

variable (config : ServerConfig) (data : List UInt8)

def firstChunk : Err × ReceiverState × World (App × List DispatchCall) :=
  consumeObserved ⟨fun _ k => k, fun _ => 1⟩ config [] ReceiverState.initial restingWorld data

theorem conversation_firstChunk :
    Conversation ⟨fun _ k => k, fun _ => 1⟩ config data (firstChunk config data).1
      (firstChunk config data).2.1
      ⟨(firstChunk config data).2.2.pools, (firstChunk config data).2.2.app.1⟩
      (firstChunk config data).2.2.app.2 (firstChunk config data).2.2.app.1.asked :=
  .received (.connected (w := restingWorld) rfl ⟨rfl, rfl⟩) ⟨rfl, rfl, fun _ _ => rfl, ⟨rfl, rfl⟩⟩
    rfl rfl

def outcomes : List (Err × ℤ) :=
  (firstChunk config data).2.2.app.2.map fun call => (call.err, call.after.app.state)

variable {config data}

theorem firstCall_of_outcomes {err : Err} {state : ℤ} {others : List (Err × ℤ)}
    (h : outcomes config data = (err, state) :: others) :
    ∃ first rest, (firstChunk config data).2.2.app.2 = first :: rest ∧ first.err = err ∧
      first.after.app.state = state := by
  rcases List.map_eq_cons_iff.mp h with ⟨first, rest, hcalls, hfirst, -⟩
  cases hfirst
  exact ⟨first, rest, hcalls, rfl, rfl⟩

end

end CmcServer
