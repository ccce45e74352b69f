import CmcServer.Verification.Dispatch.Dialogue
import CmcServer.Verification.Server.RecvMemory
import CmcServer.Verification.Server.Streams

/-! # Isolated clients

What the server knows of a client that is left is what the bytes of this client alone say, whatever
the other clients send and in whatever order requests complete. -/

namespace CmcServer

open Deframer ReceiverState Runs

theorem AtPhase.pools {κ : Type*} {rs : ReceiverState} {pools pools' : BufferPools}
    {done : List ℕ} {s : State UInt8 κ} (h : AtPhase rs pools done s)
    (hmemory : ∀ b, rs.held = some b → pools'.memory b = pools.memory b) :
    AtPhase rs pools' done s := by
  rw [AtPhase] at h ⊢
  split at h
  · exact h
  · rcases h with ⟨hfilling, hsizes⟩
    rcases hfilling.buffer with ⟨b, hpacket, hcontents⟩
    have hheld : rs.held = some b := by
      rw [ReceiverState.held, hfilling.shouldReturn, hpacket]
    refine ⟨{ hfilling with buffer := ⟨b, hpacket, ?_⟩ }, hsizes⟩
    rw [contents_congr (hmemory b hheld), hcontents]

namespace Server

/-! ## Bytes of clients -/

def receivedBy (client : ClientId) (request : Request) (cqe : Completion) : List UInt8 :=
  match request with
  | .recv c => if c = client ∧ 0 < cqe.res then cqe.received else []
  | _ => []

def receivedFrom (client : ClientId) (s : Server) : Event → List UInt8
  | .submit => []
  | .complete cqe _ => receivedBy client (s.net.requests cqe.userData) cqe

def bytesFrom (client : ClientId) (trace : List (Transition Server Event)) : List UInt8 :=
  trace.flatMap fun x => x.pre.receivedFrom client x.event

/-- A client is where its dialogue over `bytes` is: its receiver, its phase and its answers. -/
structure Speaks (client : ClientId) (bytes : List UInt8) (s : Server) : Prop where
  receiver : ∃ done, AtPhase (s.client client).receiverState s.pools done (dialogue bytes)
  describes : (dialogue bytes).consumer.Describes client (s.client client).state s.asked

section

variable {build : Build} {config : ServerConfig} {s t : Server} {client c : ClientId}
  {bytes : List UInt8}

/-- Only the record of a client, its buffer and the packets for it matter. -/
theorem Speaks.congr (h : Speaks client bytes s)
    (hclient : (t.client client).receiverState = (s.client client).receiverState)
    (hstate : (t.client client).state = (s.client client).state)
    (hmemory : ∀ b, (s.client client).receiverState.held = some b →
      t.pools.memory b = s.pools.memory b)
    (hasked : repliesTo client t.asked = repliesTo client s.asked) : Speaks client bytes t := by
  rcases h.receiver with ⟨done, hphase⟩
  refine ⟨⟨done, ?_⟩, ?_⟩
  · rw [hclient]
    exact hphase.pools hmemory
  · rw [Dialogue.Describes, hstate, hasked]
    exact h.describes

/-! ## Receiving -/

/-- The world while a chunk is received, and the contents of the buffers of other receivers. -/
structure Undisturbed (scene : Scene) (memory : BufId → ℕ → UInt8) (held : Option BufId)
    (w : World App) : Prop where
  outgoing : Outgoing scene held w
  memory : ∀ b ∈ scene.others, w.pools.memory b = memory b

theorem Undisturbed.others_ne {scene : Scene} {memory : BufId → ℕ → UInt8} {b b' : BufId}
    {w : World App} (h : Undisturbed scene memory (some b) w) (hb : b' ∈ scene.others) :
    b' ≠ b := by
  have hnodup := h.outgoing.apart.nodup
  rw [List.append_assoc, Option.toList_some, List.singleton_append] at hnodup
  rintro rfl
  exact (List.nodup_cons.mp hnodup).1 (List.mem_append_left _ hb)

theorem undisturbedLaw (build : Build) (config : ServerConfig) {scene : Scene}
    (hbusy : ∀ sqe ∈ scene.inFlight, sqe.userData ∈ scene.busy) (memory : BufId → ℕ → UInt8) :
    BufferLaw config (dispatcher build config false) (Undisturbed scene memory)
      fun held _ => Undisturbed scene memory held where
  take := by
    intro w hw
    have hsame : (w.pools.bufferPoolGetProtocolRecv config).2.memory = w.pools.memory :=
      memory_get _ _ _
    refine ⟨hw.outgoing.pools (hw.outgoing.apart.get (by decide)) fun b _ => ?_, fun b hb => ?_⟩
    · rw [hsame]
    · dsimp only
      rw [hsame, hw.memory b hb]
  copy := by
    intro b offset data w hw
    refine ⟨hw.outgoing.pools (hw.outgoing.apart.memory _) fun _ hb =>
      hw.outgoing.memcpy offset data hb, fun b' hb' => ?_⟩
    rw [← hw.memory b' hb', BufferPools.memcpy]
    exact Function.update_of_ne (hw.others_ne hb') _ _
  large := fun _ _ hw => hw
  dispatched := by
    intro held data n w hw _
    have heffect := dispatcher_effect build config data n w
    have hafter : Undisturbed scene memory held
        (dispatcher build config false data n w).2 := by
      refine ⟨hw.outgoing.effect hbusy heffect, fun b hb => ?_⟩
      rw [← hw.memory b hb]
      have howned := List.mem_append_left (sendBuffers scene.inFlight w.app.net)
        (List.mem_append_right held.toList hb)
      cases heffect.work with
      | kept hpools => rw [hpools]
      | unwritten _ _ hpools =>
          rw [hpools]
          exact hw.outgoing.apart.memory_released _ _ howned
      | issued _ _ _ _ _ hpools =>
          rw [hpools]
          exact hw.outgoing.apart.memory_released _ _ howned
    exact ⟨fun _ => hafter, fun _ => hafter⟩
  give := fun _ _ hw =>
    ⟨hw.outgoing.pools (hw.outgoing.apart.giveBack (by decide)) fun _ _ => rfl, hw.memory⟩
  giveFailed := fun _ _ _ hw =>
    ⟨hw.outgoing.pools (hw.outgoing.apart.giveBack (by decide)) fun _ _ => rfl, hw.memory⟩

/-- The buffers of a server are in one place, and calls name clients. -/
def Housed (lent : List BufId) (s : Server) : Prop := Streams lent (fun _ => []) (fun _ => False) s

theorem mem_otherPackets {b : BufId} (hc : c < s.allocated) (hne : c ≠ client)
    (hheld : (s.client c).receiverState.held = some b) : b ∈ s.otherPackets client :=
  List.mem_filterMap.mpr ⟨c, (List.mem_erase_of_ne hne).mpr (List.mem_range.mpr hc), hheld⟩

section

variable {busy : List RequestId} {data : List UInt8} {now : Conditions} {err : Err}

/-- A chunk of a client is nothing to the others. -/
theorem Housed.receive (h : Housed [] s) (hregular : Regular config busy s)
    (hclient : client < s.allocated)
    (hreceive : receive build config client data now s = (err, t)) :
    Housed [] t ∧ ∀ c < s.allocated, c ≠ client → ∀ bytes, Speaks c bytes s →
      Speaks c bytes t := by
  rcases receive_cases hreceive with ⟨rs, w, hresult, rfl⟩
  let scene : Scene := {
    busy, inFlight := s.inFlight, others := s.otherPackets client, stream := fun _ => []
    Good := fun _ => False, client, asked := s.asked, known := unreported s.net }
  have hstart : Undisturbed scene s.pools.memory (s.client client).receiverState.held
      (clientWorld client now s) := by
    refine ⟨⟨hregular.sound, rfl, ?_, Nat.le_refl _, ⟨[], by simp [clientWorld, scene], by simp⟩,
      fun _ hgood => hgood.elim⟩, fun _ _ => rfl⟩
    exact h.apart.perm ((packetBuffers_perm hclient).append_right _)
  have hcall := consume_law (undisturbedLaw build config hregular.flying s.pools.memory)
    (hregular.resumable client) hstart data
  rw [hresult] at hcall
  have hend : Undisturbed scene s.pools.memory rs.held w := by
    by_cases hok : err = .noError
    · exact (hcall.1 hok).2
    · rw [(hcall.2 hok).1.held]
      exact (hcall.2 hok).2
  rcases hend.outgoing.asked with ⟨calls, hasked, hcalls⟩
  refine ⟨⟨?_, ?_, fun _ hgood => hgood.elim⟩, ?_⟩
  · have hperm := packetBuffers_perm (s := afterConsume client s rs w) hclient
    have hheld : ((afterConsume client s rs w).client client).receiverState.held = rs.held := by
      rw [afterConsume]
      dsimp only
      rw [Function.update_self]
    rw [hheld, otherPackets_afterConsume] at hperm
    exact hend.outgoing.apart.perm (hperm.symm.append_right _)
  · intro call hcall'
    have hmem : call ∈ s.asked ++ calls := by
      rw [← hasked]
      exact hcall'
    rcases List.mem_append.mp hmem with hmem | hmem
    · exact h.asked call hmem
    · rw [hcalls call hmem]
      exact hclient
  · intro c hc hne bytes hspeaks
    have hsame : (afterConsume client s rs w).client c = s.client c :=
      Function.update_of_ne hne _ _
    refine hspeaks.congr (by rw [hsame]) (by rw [hsame]) ?_ ?_
    · intro b hheld
      exact hend.memory b (mem_otherPackets hc hne hheld)
    · have hothers : repliesTo c calls = [] := repliesTo_others fun call hcall' => by
        rw [hcalls call hcall']
        exact hne.symm
      rw [afterConsume]
      dsimp only
      rw [hasked, repliesTo_append, hothers, List.append_nil]

/-- A chunk that is accepted continues the dialogue of its client. -/
theorem Speaks.receive (hsizeof : ∀ t, build.sizeof t < 2 ^ 32) (hconfig : SendsStatus config)
    (h : Speaks client bytes s) (hrs : Resumable config (s.client client).receiverState)
    (hreceive : receive build config client data now s = (.noError, t)) :
    Speaks client (bytes ++ data) t := by
  rcases receive_cases hreceive with ⟨rs, w, hresult, rfl⟩
  rcases h.receiver with ⟨done, hphase⟩
  have hfollows := receiverConsumeData_follows config data
    (dispatcher_consumes hsizeof hconfig client) (w := clientWorld client now s)
    ⟨rfl, h.describes⟩ hphase
  rw [consume, hrs.plain.compression] at hresult
  rw [hresult, ← dialogue_append] at hfollows
  rcases hfollows.1 rfl with ⟨⟨-, hdescribes⟩, hphase'⟩
  refine ⟨?_, ?_⟩
  · simpa only [afterConsume, Function.update_self] using hphase'
  · simpa only [afterConsume, Function.update_self] using hdescribes

end

/-! ## Handlers -/

theorem Speaks.disconnect (h : Speaks c bytes s) (client : ClientId) :
    Speaks c bytes (disconnectClient client s) := by
  have hsame : ((disconnectClient client s).client c).receiverState =
        (s.client c).receiverState ∧
      ((disconnectClient client s).client c).state = (s.client c).state := by
    rw [disconnectClient]
    dsimp only
    by_cases hc : c = client
    · rw [hc, Function.update_self]
      exact ⟨rfl, rfl⟩
    · rw [Function.update_of_ne hc]
      exact ⟨rfl, rfl⟩
  exact h.congr hsame.1 hsame.2 (fun _ _ => rfl) rfl

/-- A connection is nothing to the clients that were there before. -/
theorem Speaks.newClient (h : Speaks c bytes s) (hc : c < s.allocated) (socket : ℤ) (net : Net)
    (stopped : Option ℤ) :
    Speaks c bytes { newClient config socket s with net, stopped } := by
  have hsame : (Server.newClient config socket s).client c = s.client c :=
    Function.update_of_ne (Nat.ne_of_lt hc) _ _
  have hmemory : (s.pools.bufferPoolGetTcpRecv config).2.memory = s.pools.memory :=
    memory_get _ _ _
  refine h.congr ?_ ?_ (fun b _ => ?_) rfl
  · dsimp only
    rw [hsame]
  · dsimp only
    rw [hsame]
  · exact congrFun hmemory b

theorem speaks_newClient (h : Housed [] s) (socket : ℤ) (net : Net) (stopped : Option ℤ) :
    Speaks s.allocated [] { newClient config socket s with net, stopped } := by
  have hnew : (newClient config socket s).client s.allocated = connected config socket s :=
    Function.update_self ..
  have hnone : repliesTo s.allocated s.asked = [] :=
    repliesTo_others fun call hcall => Nat.ne_of_lt (h.asked call hcall)
  refine ⟨⟨[], ?_⟩, Or.inr ?_⟩
  · dsimp only
    rw [hnew]
    exact ⟨Idle.initial, rfl⟩
  · dsimp only
    rw [hnew, newClient, hnone]
    rfl

/-- The clients that are left are where their dialogues are. `bytes` are those that were received
from each client. -/
structure Isolated (lent : List BufId) (bytes : ClientId → List UInt8) (s : Server) : Prop where
  housed : Housed lent s
  unborn : ∀ client, s.allocated ≤ client → bytes client = []
  speaks : s.stopped = none → ∀ client ∈ s.clients, Speaks client (bytes client) s

section

variable {busy : List RequestId} {request : Request} {cqe : Completion} {now : Conditions}
  {received : ClientId → List UInt8}

theorem Handled.housed (hhandled : Handled build config s cqe now request t)
    (hregular : Regular config busy s) (h : Housed request.buffer.toList s)
    (hclient : ∀ client, request.client = some client → client < s.allocated) : Housed [] t := by
  cases hhandled with
  | refused => exact Streams.congr h rfl rfl rfl rfl rfl rfl
  | unarmed _ hrecv _ =>
      have hissued := Streams.issue h hrecv hregular.sound hregular.flying rfl
      have hnew : Housed [] (newClient config cqe.res _) := hissued.newClient cqe.res
      exact Streams.congr hnew rfl rfl rfl rfl rfl rfl
  | connected _ hrecv haccept =>
      have hrecv' := Streams.issue h hrecv hregular.sound hregular.flying rfl
      have haccept' := hrecv'.issue haccept (hrecv.sound hregular.sound) hregular.flying rfl
      have hnew : Housed [] (newClient config cqe.res _) := haccept'.newClient cqe.res
      exact Streams.congr hnew rfl rfl rfl rfl rfl rfl
  | closed => exact Streams.disconnect h _
  | @rejected client u _ hresult =>
      exact (Housed.receive h hregular (hclient client rfl) hresult).1.disconnect client
  | @failed client err u _ hresult _ _ =>
      have hreceived := (Housed.receive h hregular (hclient client rfl) hresult).1
      exact Streams.congr hreceived rfl rfl rfl rfl rfl rfl
  | @received client u err net _ hresult hrecv =>
      have hreceived := (Housed.receive h hregular (hclient client rfl) hresult).1
      rcases receive_sound hregular hresult with ⟨hsound, hflying⟩
      exact Streams.issue hreceived hrecv hsound hflying rfl
  | @unsent client =>
      have hlost := Streams.pools h (h.apart.sublist (List.sublist_cons_self _ _)) rfl
      exact hlost.disconnect client
  | sent => exact Streams.pools h (h.apart.giveBack (by decide)) rfl

/-- A handler continues the dialogue of the client that it received from, and leaves the others
where they are. -/
theorem Handled.speaks (hsizeof : ∀ t, build.sizeof t < 2 ^ 32) (hconfig : SendsStatus config)
    (hhandled : Handled build config s cqe now request t) (hregular : Regular config busy s)
    (h : Isolated request.buffer.toList received s) (hrunning : s.stopped = none)
    (hnamed : ∀ client, request.client = some client → client < s.allocated)
    (hstopped : t.stopped = none) (client : ClientId) (hlive : client ∈ t.clients) :
    Speaks client (received client ++ receivedBy client request cqe) t := by
  have hspeaks := h.speaks hrunning
  cases hhandled with
  | refused | unarmed | failed => cases hstopped
  | connected _ hrecv haccept =>
      simp only [receivedBy, List.append_nil]
      rcases List.mem_append.mp hlive with hold | hnew
      · exact (hspeaks client hold).newClient (hregular.clients_lt client hold) _ _ _
      · rw [List.mem_singleton.mp hnew, h.unborn _ (Nat.le_refl _)]
        exact speaks_newClient h.housed _ _ _
  | @closed c hres =>
      have hnone : receivedBy client (.recv c) cqe = [] := if_neg fun hc => by omega
      rw [hnone, List.append_nil]
      exact (hspeaks client (List.mem_of_mem_erase hlive)).disconnect c
  | @rejected c u _ hresult =>
      rcases receive_cases hresult with ⟨rs, w, -, hu⟩
      rw [hu] at hlive
      rcases hregular.clients_nodup.mem_erase_iff.mp hlive with ⟨hne, hlive⟩
      have hnone : receivedBy client (.recv c) cqe = [] := if_neg fun hc => hne hc.1.symm
      rw [hnone, List.append_nil]
      exact ((Housed.receive h.housed hregular (hnamed c rfl) hresult).2 client
        (hregular.clients_lt client hlive) hne _ (hspeaks client hlive)).disconnect c
  | @received c u err net hres hresult _ =>
      have hclients : u.clients = s.clients := by
        rcases receive_cases hresult with ⟨rs, w, -, rfl⟩
        rfl
      have hlive' : client ∈ s.clients := by
        rw [← hclients]
        exact hlive
      by_cases hc : c = client
      · have hdata : receivedBy client (.recv c) cqe = cqe.received := if_pos ⟨hc, hres⟩
        rw [hdata]
        rw [hc] at hresult
        have hafter := (hspeaks client hlive').receive hsizeof hconfig
          (hregular.resumable client) hresult
        exact hafter.congr rfl rfl (fun _ _ => rfl) rfl
      · have hnone : receivedBy client (.recv c) cqe = [] := if_neg fun h => hc h.1
        rw [hnone, List.append_nil]
        have hafter := (Housed.receive h.housed hregular (hnamed c rfl) hresult).2 client
          (hregular.clients_lt client hlive') (Ne.symm hc) _ (hspeaks client hlive')
        exact hafter.congr rfl rfl (fun _ _ => rfl) rfl
  | @unsent c =>
      simp only [receivedBy, List.append_nil]
      exact (hspeaks client (List.mem_of_mem_erase hlive)).disconnect c
  | sent =>
      simp only [receivedBy, List.append_nil]
      exact (hspeaks client hlive).congr rfl rfl (fun _ _ => rfl) rfl

theorem Handled.isolated (hsizeof : ∀ t, build.sizeof t < 2 ^ 32) (hconfig : SendsStatus config)
    (hhandled : Handled build config s cqe now request t) (hregular : Regular config busy s)
    (h : Isolated request.buffer.toList received s) (hrunning : s.stopped = none)
    (hnamed : ∀ client, request.client = some client → client < s.allocated) :
    Isolated [] (fun client => received client ++ receivedBy client request cqe) t where
  housed := hhandled.housed hregular h.housed hnamed
  unborn := by
    intro client hclient
    have hle : s.allocated ≤ client := by
      rcases hhandled.clients with ⟨-, hallocated⟩ | ⟨-, hallocated⟩
      · omega
      · omega
    rw [h.unborn client hle, List.nil_append]
    cases request with
    | accept | send => rfl
    | recv c =>
        have hlt : c < s.allocated := hnamed c rfl
        refine if_neg fun hc => ?_
        rw [hc.1] at hlt
        exact Nat.not_lt.mpr hle hlt
  speaks := hhandled.speaks hsizeof hconfig hregular h hrunning hnamed

end

/-! ## Runs -/

theorem step_isolated (hsizeof : ∀ t, build.sizeof t < 2 ^ 32) (hconfig : SendsStatus config)
    {received : ClientId → List UInt8} {event : Event} (hregular : Regular config s.kernel s)
    (h : Isolated [] received s) (hstep : step build config s event = some t) :
    Isolated [] (fun client => received client ++ s.receivedFrom client event) t := by
  have hrunning := (step_cases hstep).1
  cases event with
  | submit =>
      cases (step_cases hstep).2
      simp only [receivedFrom, List.append_nil]
      exact ⟨streams_submit h.housed, h.unborn, fun hstopped client hlive =>
        (h.speaks hstopped client hlive).congr rfl rfl (fun _ _ => rfl) rfl⟩
  | complete cqe now =>
      rcases complete_cases hregular hstep with ⟨sqe, u, hcompletes, rfl⟩
      have htaken : Isolated (s.net.requests sqe.userData).buffer.toList received
          (take sqe now s) := by
        refine ⟨⟨?_, h.housed.asked, fun _ hgood => hgood.elim⟩, h.unborn, ?_⟩
        · have hperm := hcompletes.sendBuffers_perm.append_left s.packetBuffers
          refine h.housed.apart.perm (hperm.trans ?_)
          rw [← List.append_assoc, ← List.append_assoc]
          exact List.perm_append_comm.append_right _
        · intro hstopped client hlive
          exact (h.speaks hstopped client hlive).congr rfl rfl (fun _ _ => rfl) rfl
      have hafter := hcompletes.handled.isolated hsizeof hconfig hcompletes.before htaken hrunning
        (hregular.named hcompletes.mem)
      rw [hcompletes.user] at hafter
      rw [finish]
      split
      · refine ⟨⟨hafter.housed.apart, hafter.housed.asked, fun _ hgood => hgood.elim⟩,
          hafter.unborn, fun hstopped client hlive => ?_⟩
        exact (hafter.speaks hstopped client hlive).congr rfl rfl (fun _ _ => rfl) rfl
      · exact hafter

theorem isolated_start (config : ServerConfig) (start₁ start₂ errno : ℕ) (calloc : Bool) :
    Isolated [] (fun _ => []) (start config start₁ start₂ errno calloc) where
  housed := by
    refine ⟨?_, fun _ h => absurd h List.not_mem_nil, fun _ hgood => hgood.elim⟩
    rw [sendBuffers_start]
    exact apart_initial
  unborn := fun _ _ => rfl
  speaks := fun _ _ hlive => absurd hlive List.not_mem_nil

/-- What holds in every run of clients and requests. -/
theorem run_isolated (hsizeof : ∀ t, build.sizeof t < 2 ^ 32) (hconfig : SendsStatus config)
    {start₁ start₂ errno : ℕ} {calloc : Bool} {trace : List (Transition Server Event)}
    (h : Run (step build config) (start config start₁ start₂ errno calloc) trace t) :
    Isolated [] (fun client => bytesFrom client trace) t := by
  have hany : ∀ x ∈ trace, (fun _ : Transition Server Event => True) x := fun _ _ => trivial
  have hboth := h.history_invariant
    (fun trace s => Regular config s.kernel s ∧
      Isolated [] (fun client => bytesFrom client trace) s)
    ⟨regular_start .., isolated_start ..⟩ ?_ hany (List.pairwise_of_forall fun _ _ => trivial)
  · exact hboth.2
  · intro trace s event v hs hstep _ _
    have hafter := step_isolated hsizeof hconfig hs.1 hs.2 hstep
    refine ⟨step_regular hs.1 hstep, ?_⟩
    simpa only [bytesFrom, List.flatMap_append, List.flatMap_singleton] using hafter

theorem framesFor_repliesTo (client : ClientId) (asked : List SendCall) :
    framesFor client asked =
      (repliesTo client asked).flatMap fun packet => (SendCall.mk client packet).frame := by
  rw [framesFor, repliesTo, List.flatMap_map]
  refine List.flatMap_congr fun call _ => ?_
  rfl

/-- The frames of the answers to what a client that is left sent are those that were asked for. -/
theorem Isolated.framesFor (h : Isolated [] received s) (hrunning : s.stopped = none)
    (hlive : client ∈ s.clients) {state : ℤ} {replies : List (List UInt8)}
    (hgoing : (dialogue (received client)).consumer = .going state replies) :
    framesFor client s.asked =
      replies.flatMap fun packet => (SendCall.mk client packet).frame := by
  rcases (h.speaks hrunning client hlive).describes with hunspecified | hsame
  · cases hgoing.symm.trans hunspecified
  · cases hgoing.symm.trans hsame
    exact framesFor_repliesTo client s.asked

end

end Server

/-! ## Runs of the machine -/

namespace Machine

open Server

/-- The bytes that the kernel wrote for the recv of a client that a step reports. -/
def reportedFrom (client : ClientId) (m : Machine) : Event → List UInt8
  | .complete request _ _ _ =>
      match m.server.net.requests request with
      | .recv c => if c = client then m.arrived request else []
      | _ => []
  | _ => []

/-- The bytes that arrived from a client in a run. -/
def arrivedFrom (client : ClientId) (trace : List (Transition Machine Event)) : List UInt8 :=
  trace.flatMap fun x => x.pre.reportedFrom client x.event

section

variable {build : Build} {config : ServerConfig} {m n : Machine} {client : ClientId}

/-- The server reads from a client what arrived from it. -/
theorem Settled.receivedFrom_eq {event : Event} (h : Settled config m)
    (hstep : m.step build config event = some n) :
    ((m.seen event).map (m.server.receivedFrom client)).getD [] = m.reportedFrom client event := by
  cases event with
  | submit | arrive => rfl
  | complete request res family now =>
      rw [seen, Option.map_some, Option.getD_some, reportedFrom, receivedFrom]
      rw [step] at hstep
      split at hstep
      · rename_i hreported
        rcases Option.map_eq_some_iff.mp hstep with ⟨server, hseen, rfl⟩
        rcases complete_cases h.regular hseen with ⟨sqe, u, hcompletes, -⟩
        rw [← show sqe.userData = request from hcompletes.user] at hreported ⊢
        cases hrequest : m.server.net.requests sqe.userData with
        | accept | send => rfl
        | recv c =>
            have hread := h.received_eq hcompletes.mem hrequest hreported
            rw [Reported, hrequest] at hreported
            rw [receivedBy]
            dsimp only
            rw [hread]
            by_cases hc : c = client
            · rw [if_pos hc]
              by_cases hres : 0 < res
              · rw [if_pos ⟨hc, hres⟩]
              · rw [if_neg fun hboth => hres hboth.2]
                exact (List.eq_nil_of_length_eq_zero (by dsimp only at hreported; omega)).symm
            · rw [if_neg hc, if_neg fun hboth => hc hboth.1]
      · cases hstep

/-- Where each client that is disconnected has no other request, the server reads from a client
what arrived from it. -/
theorem bytesFrom_served {start₁ start₂ errno : ℕ} {calloc : Bool}
    {trace : List (Transition Machine Event)}
    (h : Run (step build config) (start config start₁ start₂ errno calloc) trace m)
    (halone : ∀ x ∈ served trace, x.pre.LeavesAlone build config x.event) (client : ClientId) :
    bytesFrom client (served trace) = arrivedFrom client trace := by
  have hsteps := run_settled h halone
  clear h halone
  rw [arrivedFrom]
  induction trace with
  | nil => rfl
  | cons x trace ih =>
      have hrest := ih fun y hy => hsteps y (List.mem_cons_of_mem _ hy)
      rcases hsteps x List.mem_cons_self with ⟨hstep, hsettled⟩
      rw [List.flatMap_cons, ← hrest, ← hsettled.receivedFrom_eq hstep, served, List.filterMap_cons]
      cases x.pre.seen x.event with
      | none => rfl
      | some e => rfl

/-- A send fails and frees a client whose recv is left, and the next client gets its recv buffer. -/
example :
    let trace := played [.submit, ended 0 5, .submit, .arrive 1 (handshake ++ ping), ended 1 18,
      .submit, ended 0 (-32), ended 2 6, .submit, .arrive 0 handshake, .arrive 3 ping, ended 0 8]
    arrivedFrom 1 trace = handshake ∧ bytesFrom 1 (served trace) = ping.take 8 := by
  decide +kernel

end

/-- Two clients connect, and each has sent a part of a ping before the first one sends the rest,
which is not reported before more of the second client arrives. -/
def twoTalks : List Event :=
  [.submit, ended 0 5, .submit, .arrive 1 (handshake ++ ping.take 4), ended 1 12, ended 2 6,
    .submit, .arrive 0 (ping.drop 4), .arrive 1 (handshake ++ ping.take 7), ended 1 15, ended 0 6]

end Machine

end CmcServer
