import CmcServer.Verification.Server.Pending
import CmcServer.Verification.Server.SubmissionQueue

/-! # Streams of clients

What clients get, over whole runs. The kernel may write the beginning of a send, and may complete
sends in any order: nothing orders them and nobody sends the rest. -/

namespace CmcServer

open Channel Runs

namespace Server

/-- The buffers of the receivers of all clients, also of those that were disconnected. -/
def packetBuffers (s : Server) : List BufId :=
  (List.range s.allocated).filterMap fun client => (s.client client).receiverState.held

/-- The bytes for a client in the vectors of the request that completes. -/
def offered (client : ClientId) (s : Server) : Event → List UInt8
  | .submit => []
  | .complete cqe _ => (s.net.requests cqe.userData).bytesFor s.pools client

/-- The bytes that a completion appends to the stream of a client: as many as it reports. -/
def appended (client : ClientId) (s : Server) : Event → List UInt8
  | .submit => []
  | .complete cqe now => (s.offered client (.complete cqe now)).take cqe.res.toNat

/-- The bytes that were appended to the stream of a client in a run. -/
def streamOf (client : ClientId) (trace : List (Transition Server Event)) : List UInt8 :=
  trace.flatMap fun x => x.pre.appended client x.event

/-- The client was disconnected. -/
def Gone (s : Server) (client : ClientId) : Prop := client < s.allocated ∧ client ∉ s.clients

/-! ## Conditions -/

/-- The request of the kernel that was the first to send to a client. -/
def oldestSend (client : ClientId) (s : Server) : Option RequestId :=
  (s.inFlight.find? fun sqe =>
    (s.net.requests sqe.userData).type = .send ∧
      (s.net.requests sqe.userData).client = some client).map Sqe.userData

/-- The request that writes to a client is its oldest. -/
def InTurn (s : Server) : Event → Prop
  | .submit => True
  | .complete cqe now => ∀ client ∈ s.clients, s.appended client (.complete cqe now) ≠ [] →
      s.oldestSend client = some cqe.userData

instance (s : Server) (event : Event) : Decidable (InTurn s event) :=
  match event with
  | .submit => inferInstanceAs (Decidable True)
  | .complete _ _ => inferInstanceAs (Decidable (∀ client ∈ s.clients, _ → _))

/-- The queue has room for the answers to a chunk, or `server_send_packet` reports that it has
none. -/
def SendsFit (build : Build) (config : ServerConfig) (s : Server) : Event → Prop
  | .submit => True
  | .complete cqe now =>
      match s.net.requests cqe.userData with
      | .recv client =>
          0 < cqe.res → now.errno = 0 →
            let s := { s with net := { s.net with errno := now.errno, calloc := now.calloc } }
            s.net.HasRoom (ringEntries config)
              (answersFor build config (s.client client).receiverState (clientWorld client now s)
                cqe.received)
      | _ => True

instance (build : Build) (config : ServerConfig) (s : Server) (event : Event) :
    Decidable (SendsFit build config s event) :=
  match event with
  | .submit => inferInstanceAs (Decidable True)
  | .complete cqe now => by
      unfold SendsFit
      dsimp only
      refine Request.casesOn (s.net.requests cqe.userData) ?_ ?_ ?_ <;> intros <;> infer_instance

/-- A write to a client only follows complete writes. -/
def Continues (x y : Transition Server Event) : Prop :=
  ∀ client ∈ y.pre.clients, y.pre.appended client y.event ≠ [] →
    x.pre.appended client x.event = x.pre.offered client x.event

instance : DecidableRel Continues := fun _ y =>
  inferInstanceAs (Decidable (∀ client ∈ y.pre.clients, _ → _))

/-! ## What clients got and what waits for them -/

section

variable {build : Build} {config : ServerConfig} {s t : Server} {lent : List BufId}
  {stream : ClientId → List UInt8} {Good : ClientId → Prop} {busy : List RequestId}

/-- The `Good` clients lost no bytes. No packet buffer is in two places, `lent` are outside of the
pools, the receivers and the requests. -/
structure Streams (lent : List BufId) (stream : ClientId → List UInt8) (Good : ClientId → Prop)
    (s : Server) : Prop where
  apart : Apart s.pools (lent ++ (s.packetBuffers ++ sendBuffers s.inFlight s.net))
  asked : ∀ call ∈ s.asked, call.client < s.allocated
  delivers : ∀ client, Good client →
    Delivers stream s.inFlight s.pools s.net s.asked client

theorem Streams.mono (h : Streams lent stream Good s) {Good' : ClientId → Prop}
    (hgood : ∀ client, Good' client → Good client) : Streams lent stream Good' s :=
  ⟨h.apart, h.asked, fun client hclient => h.delivers client (hgood client hclient)⟩

/-- A server that differs only in what `Streams` does not look at. -/
theorem Streams.congr (h : Streams lent stream Good s) (hflight : t.inFlight = s.inFlight)
    (hpools : t.pools = s.pools) (hnet : t.net = s.net) (hasked : t.asked = s.asked)
    (hallocated : t.allocated = s.allocated) (hbuffers : t.packetBuffers = s.packetBuffers) :
    Streams lent stream Good t := by
  refine ⟨?_, ?_, ?_⟩
  · rw [hpools, hbuffers, hflight, hnet]
    exact h.apart
  · rw [hasked, hallocated]
    exact h.asked
  · rw [hflight, hpools, hnet, hasked]
    exact h.delivers

theorem Streams.issue {content : Request} {op : Op} {net : Net} {err : Err}
    (h : Streams lent stream Good s) (hissue : Net.Issue content op s.net err net)
    (hsound : s.net.Sound busy) (hbusy : ∀ sqe ∈ s.inFlight, sqe.userData ∈ busy)
    (hcontent : content.buffer = none) : Streams lent stream Good { s with net } := by
  refine ⟨?_, h.asked, ?_⟩
  · dsimp only
    rw [hissue.sendBuffers_eq hsound hbusy hcontent]
    exact h.apart
  · intro client hgood
    have hdelivers := h.delivers client hgood
    rw [Delivers] at hdelivers ⊢
    dsimp only
    rwa [hissue.pendingFor_eq hsound hbusy hcontent]

theorem Streams.pools {pools : BufferPools} {lent' : List BufId} (h : Streams lent stream Good s)
    (hapart : Apart pools (lent' ++ (s.packetBuffers ++ sendBuffers s.inFlight s.net)))
    (hmemory : pools.memory = s.pools.memory) : Streams lent' stream Good { s with pools } := by
  refine ⟨hapart, h.asked, ?_⟩
  intro client hgood
  have hpending : pendingFor client s.inFlight pools s.net =
      pendingFor client s.inFlight s.pools s.net := pendingFor_congr fun b _ => congrFun hmemory b
  have hdelivers := h.delivers client hgood
  rw [Delivers] at hdelivers ⊢
  dsimp only
  rwa [hpending]

theorem packetBuffers_disconnect (client : ClientId) (s : Server) :
    (disconnectClient client s).packetBuffers = s.packetBuffers := by
  refine List.filterMap_congr fun c _ => ?_
  rw [disconnectClient]
  dsimp only
  by_cases hc : c = client
  · rw [hc, Function.update_self]
  · rw [Function.update_of_ne hc]

theorem Streams.disconnect (h : Streams lent stream Good s) (client : ClientId) :
    Streams lent stream Good (disconnectClient client s) := by
  have hpools := h.pools (h.apart.giveBack_tcp (b := (s.client client).recvBuffer)) rfl
  exact hpools.congr rfl rfl rfl rfl rfl (packetBuffers_disconnect client s)

theorem packetBuffers_newClient (config : ServerConfig) (socket : ℤ) (s : Server) :
    (newClient config socket s).packetBuffers = s.packetBuffers := by
  have hallocated : (newClient config socket s).allocated = s.allocated + 1 := rfl
  have hnew : [s.allocated].filterMap (fun c =>
      ((newClient config socket s).client c).receiverState.held) = [] := by
    rw [newClient, List.filterMap_cons]
    dsimp only
    rw [Function.update_self]
    rfl
  rw [packetBuffers, hallocated, List.range_succ, List.filterMap_append, hnew, List.append_nil]
  refine List.filterMap_congr fun c hc => ?_
  rw [newClient]
  dsimp only
  rw [Function.update_of_ne (Nat.ne_of_lt (List.mem_range.mp hc))]

theorem Streams.newClient (h : Streams lent stream Good s) (socket : ℤ) :
    Streams lent stream Good (newClient config socket s) := by
  have hpools : Streams lent stream Good
      { s with pools := (s.pools.bufferPoolGetTcpRecv config).2 } :=
    h.pools h.apart.get_tcp (memory_get _ _ _)
  refine ⟨?_, ?_, hpools.delivers⟩
  · rw [packetBuffers_newClient]
    exact hpools.apart
  · exact fun call hcall => Nat.lt_succ_of_lt (h.asked call hcall)

/-! ## Receiving -/

/-- If the answers to a chunk find room while `errno` is zero, every refusal is reported. -/
theorem receive_reported {client : ClientId} {data : List UInt8} {now : Conditions} {err : Err}
    (hregular : Regular config busy s) (hlimited : s.net.Limited (ringEntries config))
    (hfits : s.net.errno = 0 → s.net.HasRoom (ringEntries config)
      (answersFor build config (s.client client).receiverState (clientWorld client now s) data))
    (hreceive : receive build config client data now s = (err, t)) :
    unreported t.net = unreported s.net := by
  by_cases herrno : s.net.errno = 0
  · rcases receive_cases hreceive with ⟨rs, w, hconsume, rfl⟩
    rcases consume_asked (hregular.resumable client) hlimited (hfits herrno) hconsume with
      ⟨k, hasked, -, -⟩
    exact hasked.refused .send 0
  · refine (receive_net (J := fun net => net.errno ≠ 0 ∧ unreported net = unreported s.net)
      (hregular.resumable client) ?_ ⟨herrno, rfl⟩ hreceive).2.2
    rintro varintTemp buffer size socket net err net' hissue ⟨hne, hsame⟩
    cases hissue with
    | noRequest =>
        refine ⟨show Net.ENOMEM ≠ 0 by decide, ?_⟩
        rw [← hsame, unreported, Net.refuse, List.count_append]
        exact Nat.add_eq_left.mpr (List.count_eq_zero_of_not_mem (by simp))
    | noSqe =>
        refine ⟨hne, ?_⟩
        rw [← hsame, unreported, Net.refuse, List.count_append]
        refine Nat.add_eq_left.mpr (List.count_eq_zero_of_not_mem ?_)
        simpa using fun _ => hne.symm
    | queued => exact ⟨hne, hsame⟩

def otherPackets (client : ClientId) (s : Server) : List BufId :=
  ((List.range s.allocated).erase client).filterMap fun c => (s.client c).receiverState.held

theorem packetBuffers_perm {client : ClientId} (hclient : client < s.allocated) :
    s.packetBuffers.Perm
      ((s.client client).receiverState.held.toList ++ s.otherPackets client) := by
  have hperm := (List.perm_cons_erase (List.mem_range.mpr hclient)).filterMap
    fun c => (s.client c).receiverState.held
  rw [List.filterMap_cons] at hperm
  rw [packetBuffers, otherPackets]
  cases hheld : (s.client client).receiverState.held with
  | none =>
      rw [hheld] at hperm
      exact hperm
  | some b =>
      rw [hheld] at hperm
      exact hperm

theorem otherPackets_afterConsume (client : ClientId) (s : Server) (rs : ReceiverState)
    (w : World App) : (afterConsume client s rs w).otherPackets client = s.otherPackets client := by
  refine List.filterMap_congr fun c hc => ?_
  rw [afterConsume]
  dsimp only
  rw [Function.update_of_ne (List.nodup_range.mem_erase_iff.mp hc).1]

/-- A chunk that is received loses nothing of the clients, except of its own one where it fails. -/
theorem Streams.receive {client : ClientId} {data : List UInt8} {now : Conditions} {err : Err}
    (h : Streams [] stream Good s) (hregular : Regular config busy s)
    (hclient : client < s.allocated)
    (hreceive : receive build config client data now s = (err, t))
    (hreported : unreported t.net = unreported s.net) :
    Streams [] stream (fun c => Good c ∧ (c = client → err = .noError)) t ∧
      s.asked <+: t.asked := by
  rcases receive_cases hreceive with ⟨rs, w, hresult, rfl⟩
  let scene : Scene := {
    busy, inFlight := s.inFlight, others := s.otherPackets client, stream, Good, client
    asked := s.asked, known := unreported s.net }
  have hstart : Delivering scene (s.client client).receiverState.held
      (clientWorld client now s) := by
    refine ⟨⟨hregular.sound, rfl, ?_, Nat.le_refl _, ⟨[], by simp [clientWorld, scene], by simp⟩,
      fun c hgood _ => h.delivers c hgood⟩, fun hgood _ => h.delivers client hgood⟩
    exact h.apart.perm ((packetBuffers_perm hclient).append_right _)
  have hcall := consume_law (deliveringLaw build config hregular.flying)
    (hregular.resumable client) hstart data
  rw [hresult] at hcall
  have hend : Outgoing scene rs.held w ∧ (err = .noError → Delivering scene rs.held w) := by
    by_cases hok : err = .noError
    · exact ⟨(hcall.1 hok).2.1, fun _ => (hcall.1 hok).2⟩
    · have hidle := (hcall.2 hok).1
      rw [hidle.held]
      exact ⟨(hcall.2 hok).2, fun h => absurd h hok⟩
  rcases hend.1.asked with ⟨calls, hasked, hcalls⟩
  refine ⟨⟨?_, ?_, ?_⟩, ⟨calls, hasked.symm⟩⟩
  · have hperm := packetBuffers_perm (s := afterConsume client s rs w) hclient
    have hheld : ((afterConsume client s rs w).client client).receiverState.held = rs.held := by
      rw [afterConsume]
      dsimp only
      rw [Function.update_self]
    rw [hheld, otherPackets_afterConsume] at hperm
    exact hend.1.apart.perm (hperm.symm.append_right _)
  · intro call hcall'
    have hmem : call ∈ s.asked ++ calls := by
      rw [← hasked]
      exact hcall'
    rcases List.mem_append.mp hmem with hmem | hmem
    · exact h.asked call hmem
    · rw [hcalls call hmem]
      exact hclient
  · rintro c ⟨hgood, hok⟩
    by_cases hc : c = client
    · rw [hc] at hgood ⊢
      exact (hend.2 (hok hc)).2 hgood hreported
    · exact hend.1.others c hgood hc

/-! ## Completions -/

section

variable {sqe : Sqe} {cqe : Completion} {now : Conditions} {u : Server}

theorem Completes.offered_eq (hcompletes : Completes build config s cqe now sqe u)
    (client : ClientId) : s.offered client (.complete cqe now) =
      (s.net.requests sqe.userData).bytesFor s.pools client := by
  rw [offered, hcompletes.user]

/-- A request with no bytes for a client does not wait for it. -/
theorem Completes.pending_nil (hcompletes : Completes build config s cqe now sqe u)
    {client : ClientId} (hnone : s.offered client (.complete cqe now) = []) :
    pendingFor client (s.inFlight.erase sqe) s.pools s.net =
      pendingFor client s.inFlight s.pools s.net := by
  rw [hcompletes.offered_eq] at hnone
  rw [pendingFor_eq, pendingFor_eq]
  congr 1
  exact flatMap_erase_of_nil s.inFlight hnone

/-- A request that writes to a client in turn has the bytes that waited longest. -/
theorem Completes.pending (hcompletes : Completes build config s cqe now sqe u)
    (hregular : Regular config s.kernel s) (hturn : InTurn s (.complete cqe now))
    {client : ClientId} (hgone : ¬ Gone s client)
    (hwrites : s.appended client (.complete cqe now) ≠ []) :
    client ∈ s.clients ∧ pendingFor client s.inFlight s.pools s.net =
      s.offered client (.complete cqe now) ++
        pendingFor client (s.inFlight.erase sqe) s.pools s.net := by
  have hoffered : (s.net.requests sqe.userData).bytesFor s.pools client ≠ [] := by
    rw [← hcompletes.offered_eq]
    intro hnone
    rw [appended, hnone] at hwrites
    exact hwrites List.take_nil
  have hlive : client ∈ s.clients := by
    by_contra hdead
    exact hgone ⟨hregular.named hcompletes.mem client (bytesFor_ne_nil hoffered).2, hdead⟩
  refine ⟨hlive, ?_⟩
  have holdest := hturn client hlive hwrites
  rw [oldestSend] at holdest
  rcases Option.map_eq_some_iff.mp holdest with ⟨sqe', hfind, huser⟩
  have hsame : sqe' = sqe := by
    have hnodup : (s.inFlight.map Sqe.userData).Nodup :=
      (List.nodup_append.mp (List.nodup_append.mp hregular.sound.nodup).1).1
    apply List.inj_on_of_nodup_map hnodup (List.mem_of_find?_eq_some hfind) hcompletes.mem
    rw [huser, hcompletes.user]
  rw [hsame] at hfind
  have hnil : ∀ sqe : Sqe, decide ((s.net.requests sqe.userData).type = .send ∧
      (s.net.requests sqe.userData).client = some client) = false →
      (s.net.requests sqe.userData).bytesFor s.pools client = [] := by
    intro sqe hother
    by_contra hbytes
    exact of_decide_eq_false hother (bytesFor_ne_nil hbytes)
  rw [pendingFor_eq, pendingFor_eq, flatMap_erase_of_find hnil hfind, hcompletes.offered_eq,
    List.append_assoc]

/-- A completion is taken: what it wrote completely no longer waits. -/
theorem Completes.streams_take (hcompletes : Completes build config s cqe now sqe u)
    (h : Streams [] stream Good s) (hregular : Regular config s.kernel s)
    (hturn : InTurn s (.complete cqe now)) :
    Streams (s.net.requests sqe.userData).buffer.toList
      (fun client => stream client ++ s.appended client (.complete cqe now))
      (fun client => Good client ∧ ¬ Gone s client ∧
        s.appended client (.complete cqe now) = s.offered client (.complete cqe now))
      (take sqe now s) := by
  refine ⟨?_, h.asked, ?_⟩
  · have hperm := hcompletes.sendBuffers_perm.append_left s.packetBuffers
    refine h.apart.perm (hperm.trans ?_)
    rw [← List.append_assoc, ← List.append_assoc]
    exact List.perm_append_comm.append_right _
  · rintro client ⟨hgood, hgone, hwhole⟩
    have hdelivers := h.delivers client hgood
    have hpending : pendingFor client s.inFlight s.pools s.net =
        s.appended client (.complete cqe now) ++
          pendingFor client (s.inFlight.erase sqe) s.pools s.net := by
      by_cases hwrites : s.appended client (.complete cqe now) = []
      · rw [hwrites, hcompletes.pending_nil (hwhole.symm.trans hwrites), List.nil_append]
      · rw [hwhole]
        exact (hcompletes.pending hregular hturn hgone hwrites).2
    rw [Delivers, hpending] at hdelivers
    exact hdelivers.write

end

/-! ## Handlers -/

section

variable {request : Request} {cqe : Completion} {now : Conditions}

/-- Clients do not come back. -/
theorem Handled.gone (hhandled : Handled build config s cqe now request t) {client : ClientId}
    (h : Gone s client) : Gone t client := by
  rcases hhandled.clients with ⟨hclients, hallocated⟩ | ⟨hsub, hallocated⟩
  · refine ⟨?_, ?_⟩
    · rw [hallocated]
      exact Nat.lt_succ_of_lt h.1
    · rw [hclients, List.mem_append, List.mem_singleton]
      rintro (hlive | hnew)
      · exact h.2 hlive
      · exact Nat.ne_of_lt h.1 hnew
  · rw [Gone, hallocated]
    exact ⟨h.1, fun hlive => h.2 (hsub.subset hlive)⟩

/-- A handler loses no bytes of the clients that are left, unless it stops the server. -/
theorem Handled.streams (hhandled : Handled build config s cqe now request t)
    (hregular : Regular config busy s) (h : Streams request.buffer.toList stream Good s)
    (hclient : ∀ client, request.client = some client → client < s.allocated)
    (hreported : ∀ client err u, request = .recv client → 0 < cqe.res →
      receive build config client cqe.received now s = (err, u) →
        unreported u.net = unreported s.net) :
    Streams [] stream (fun client => Good client ∧ t.stopped = none ∧ ¬ Gone t client) t ∧
      s.asked <+: t.asked := by
  cases hhandled with
  | refused =>
      refine ⟨?_, List.prefix_refl _⟩
      exact Streams.congr (h.mono fun _ hgood => hgood.1) rfl rfl rfl rfl rfl rfl
  | unarmed _ hrecv _ =>
      have hissued := h.issue hrecv hregular.sound hregular.flying rfl
      have hnew : Streams [] stream Good (newClient config cqe.res _) := hissued.newClient cqe.res
      refine ⟨?_, List.prefix_refl _⟩
      exact Streams.congr (hnew.mono fun _ hgood => hgood.1) rfl rfl rfl rfl rfl rfl
  | connected _ hrecv haccept =>
      have hrecv' := h.issue hrecv hregular.sound hregular.flying rfl
      have haccept' := hrecv'.issue haccept (hrecv.sound hregular.sound) hregular.flying rfl
      have hnew : Streams [] stream Good (newClient config cqe.res _) := haccept'.newClient cqe.res
      refine ⟨?_, List.prefix_refl _⟩
      exact Streams.congr (hnew.mono fun _ hgood => hgood.1) rfl rfl rfl rfl rfl rfl
  | closed => exact ⟨(h.disconnect _).mono fun _ hgood => hgood.1, List.prefix_refl _⟩
  | @rejected client u hres hresult =>
      rcases h.receive hregular (hclient client rfl) hresult
        (hreported client _ u rfl hres hresult) with ⟨hreceived, hasked⟩
      refine ⟨(hreceived.disconnect client).mono ?_, hasked⟩
      rintro c ⟨hgood, -, hleft⟩
      refine ⟨hgood, ?_⟩
      rintro rfl
      refine absurd ⟨?_, ?_⟩ hleft
      · rcases receive_cases hresult with ⟨rs, w, -, rfl⟩
        exact hclient c rfl
      · rcases receive_cases hresult with ⟨rs, w, -, rfl⟩
        exact fun hmem => (hregular.clients_nodup.mem_erase_iff.mp hmem).1 rfl
  | @failed client err u hres hresult _ _ =>
      rcases h.receive hregular (hclient client rfl) hresult
        (hreported client _ u rfl hres hresult) with ⟨hreceived, hasked⟩
      refine ⟨Streams.congr (hreceived.mono ?_) rfl rfl rfl rfl rfl rfl, hasked⟩
      rintro c ⟨-, hrunning, -⟩
      cases hrunning
  | @received client u err net hres hresult hrecv =>
      rcases h.receive hregular (hclient client rfl) hresult
        (hreported client _ u rfl hres hresult) with ⟨hreceived, hasked⟩
      rcases receive_sound hregular hresult with ⟨hsound, hflying⟩
      have hissued := hreceived.issue hrecv hsound hflying rfl
      exact ⟨hissued.mono fun _ hgood => ⟨hgood.1, fun _ => rfl⟩, hasked⟩
  | @unsent client =>
      have hlost := h.pools (h.apart.sublist (List.sublist_cons_self _ _)) rfl
      exact ⟨(hlost.disconnect client).mono fun _ hgood => hgood.1, List.prefix_refl _⟩
  | @sent _ _ buffer _ =>
      have hgiven : Streams [] stream Good
          { s with pools := s.pools.bufferPoolReturnProtocolSend buffer } :=
        h.pools (h.apart.giveBack (by decide)) rfl
      exact ⟨hgiven.mono fun _ hgood => hgood.1, List.prefix_refl _⟩

end

/-! ## Steps -/

theorem limited_step {event : Event} {limit : ℕ} (hregular : Regular config s.kernel s)
    (h : s.net.Limited limit) (hstep : step build config s event = some t) :
    t.net.Limited limit := by
  cases event with
  | submit =>
      cases (step_cases hstep).2
      exact ⟨h.entries, Nat.zero_le _⟩
  | complete cqe now =>
      rcases complete_cases hregular hstep with ⟨sqe, u, hcompletes, rfl⟩
      have hu : u.net.Limited limit := hcompletes.handled.net_law hcompletes.before.resumable
        (fun _ _ _ _ _ _ hissue hs => hissue.limited hs) ⟨h.entries, h.fits⟩
      rw [finish]
      split
      · exact ⟨hu.entries, hu.fits⟩
      · exact hu

theorem streams_submit (h : Streams [] stream Good s) :
    Streams [] stream Good s.submitAndWait := by
  have hsame : outstanding s.submitAndWait.inFlight s.submitAndWait.net =
      outstanding s.inFlight s.net := by
    simp [outstanding, submitAndWait]
  refine ⟨?_, h.asked, ?_⟩
  · have hbuffers : s.submitAndWait.packetBuffers = s.packetBuffers := rfl
    rw [hbuffers, sendBuffers, hsame]
    exact h.apart
  · intro client hgood
    have hdelivers := h.delivers client hgood
    rw [Delivers, pendingFor, hsame]
    exact hdelivers

/-- A completion loses no bytes of a client that it does not disconnect, if it writes in turn and
writes everything. -/
theorem Completes.streams {sqe : Sqe} {cqe : Completion} {now : Conditions} {u : Server}
    (hcompletes : Completes build config s cqe now sqe u) (hregular : Regular config s.kernel s)
    (h : Streams [] stream Good s) (hlimited : s.net.Limited (ringEntries config))
    (hturn : InTurn s (.complete cqe now)) (hfits : SendsFit build config s (.complete cqe now)) :
    Streams [] (fun client => stream client ++ s.appended client (.complete cqe now))
        (fun client => Good client ∧
          s.appended client (.complete cqe now) = s.offered client (.complete cqe now) ∧
          u.stopped = none ∧ ¬ Gone u client) u ∧
      s.asked <+: u.asked := by
  have htaken := hcompletes.streams_take h hregular hturn
  have hreported : ∀ client err v, s.net.requests sqe.userData = .recv client → 0 < cqe.res →
      receive build config client cqe.received now (take sqe now s) = (err, v) →
        unreported v.net = unreported s.net := by
    intro client err v hrequest hres hresult
    rw [SendsFit, ← hcompletes.user, hrequest] at hfits
    have hreceived := receive_reported hcompletes.before ⟨hlimited.entries, hlimited.fits⟩
      (hfits hres) hresult
    exact hreceived
  rcases hcompletes.handled.streams hcompletes.before htaken (hregular.named hcompletes.mem)
    hreported with ⟨hstreams, hasked⟩
  refine ⟨hstreams.mono ?_, hasked⟩
  rintro client ⟨hgood, hwhole, hrunning, hleft⟩
  exact ⟨⟨hgood, fun hgone => hleft (hcompletes.handled.gone hgone), hwhole⟩, hrunning, hleft⟩

theorem step_streams {event : Event} (hregular : Regular config s.kernel s)
    (h : Streams [] stream Good s) (hlimited : s.net.Limited (ringEntries config))
    (hstep : step build config s event = some t) (hturn : InTurn s event)
    (hfits : SendsFit build config s event) :
    Streams [] (fun client => stream client ++ s.appended client event)
        (fun client => Good client ∧ s.appended client event = s.offered client event ∧
          t.stopped = none ∧ ¬ Gone t client) t ∧
      s.asked <+: t.asked := by
  cases event with
  | submit =>
      cases (step_cases hstep).2
      refine ⟨?_, List.prefix_refl _⟩
      simp only [appended, List.append_nil]
      exact (streams_submit h).mono fun _ hgood => hgood.1
  | complete cqe now =>
      rcases complete_cases hregular hstep with ⟨sqe, u, hcompletes, rfl⟩
      rcases hcompletes.streams hregular h hlimited hturn hfits with ⟨hstreams, hasked⟩
      rw [finish]
      split
      · exact ⟨⟨hstreams.apart, hstreams.asked, hstreams.delivers⟩, hasked⟩
      · exact ⟨hstreams, hasked⟩

theorem step_gone {event : Event} (hregular : Regular config s.kernel s)
    (hstep : step build config s event = some t) {client : ClientId} (h : Gone s client) :
    Gone t client := by
  cases event with
  | submit =>
      cases (step_cases hstep).2
      exact h
  | complete cqe now =>
      rcases complete_cases hregular hstep with ⟨sqe, u, hcompletes, rfl⟩
      have hgone : Gone u client := hcompletes.handled.gone h
      rw [finish]
      split
      · exact hgone
      · exact hgone

/-- What a step writes to a client waited longest. -/
theorem step_pending {event : Event} (hregular : Regular config s.kernel s)
    (hstep : step build config s event = some t) (hturn : InTurn s event) {client : ClientId}
    (hgone : ¬ Gone s client) (hwrites : s.appended client event ≠ []) :
    client ∈ s.clients ∧ ∃ rest,
      pendingFor client s.inFlight s.pools s.net = s.offered client event ++ rest := by
  cases event with
  | submit => exact absurd rfl hwrites
  | complete cqe now =>
      rcases complete_cases hregular hstep with ⟨sqe, u, hcompletes, -⟩
      rcases hcompletes.pending hregular hturn hgone hwrites with ⟨hlive, hpending⟩
      exact ⟨hlive, _, hpending⟩

theorem appended_isPrefix (client : ClientId) (s : Server) (event : Event) :
    s.appended client event <+: s.offered client event := by
  cases event with
  | submit => exact List.prefix_refl _
  | complete cqe now => exact List.take_prefix _ _

/-! ## Runs -/

theorem streamOf_append (client : ClientId) (trace : List (Transition Server Event))
    (x : Transition Server Event) :
    streamOf client (trace ++ [x]) = streamOf client trace ++ x.pre.appended client x.event := by
  rw [streamOf, List.flatMap_append, List.flatMap_singleton]
  rfl

/-- Every write of a run to a client was complete. -/
def Complete (trace : List (Transition Server Event)) (client : ClientId) : Prop :=
  ∀ x ∈ trace, x.pre.appended client x.event = x.pre.offered client x.event

/-- The streams after a run. A client that is left got what it was sent, in order, and as long as
every write to it was complete, the rest waits for it. -/
structure Flowing (config : ServerConfig) (trace : List (Transition Server Event)) (s : Server) :
    Prop where
  regular : Regular config s.kernel s
  limited : s.net.Limited (ringEntries config)
  streams : Streams [] (fun client => streamOf client trace)
    (fun client => s.stopped = none ∧ ¬ Gone s client ∧ Complete trace client) s
  inOrder : ∀ client, ¬ Gone s client → streamOf client trace <+: framesFor client s.asked

theorem Flowing.step {trace : List (Transition Server Event)} {event : Event}
    (h : Flowing config trace s) (hstep : step build config s event = some t)
    (hturn : InTurn s event) (hfits : SendsFit build config s event)
    (hcontinues : ∀ x ∈ trace, Continues x ⟨s, event, t⟩) :
    Flowing config (trace ++ [⟨s, event, t⟩]) t := by
  rcases step_streams h.regular h.streams h.limited hstep hturn hfits with ⟨hstreams, hasked⟩
  refine ⟨step_regular h.regular hstep, limited_step h.regular h.limited hstep, ?_, ?_⟩
  · simp only [streamOf_append]
    refine hstreams.mono ?_
    rintro client ⟨hrunning, hleft, hcomplete⟩
    refine ⟨⟨(step_cases hstep).1, fun hgone => hleft (step_gone h.regular hstep hgone), ?_⟩,
      hcomplete ⟨s, event, t⟩ (by simp), hrunning, hleft⟩
    exact fun x hx => hcomplete x (List.mem_append_left _ hx)
  · intro client hleft
    have hgone : ¬ Gone s client := fun hgone => hleft (step_gone h.regular hstep hgone)
    rw [streamOf_append]
    dsimp only
    by_cases hwrites : s.appended client event = []
    · rw [hwrites, List.append_nil]
      exact (h.inOrder client hgone).trans (framesFor_mono client hasked)
    · rcases step_pending h.regular hstep hturn hgone hwrites with ⟨hlive, rest, hpending⟩
      have hcomplete : Complete trace client :=
        fun x hx => hcontinues x hx client hlive hwrites
      have hdelivers := h.streams.delivers client ⟨(step_cases hstep).1, hgone, hcomplete⟩
      rw [Delivers, hpending] at hdelivers
      have hwritten := hdelivers.write_part (appended_isPrefix client s event)
      exact hwritten.trans (framesFor_mono client hasked)

theorem flowing_start (config : ServerConfig) (start₁ start₂ errno : ℕ) (calloc : Bool) :
    Flowing config [] (start config start₁ start₂ errno calloc) where
  regular := regular_start ..
  limited := (neverFull_start ..).limited
  streams := by
    have hnone := sendBuffers_start config start₁ start₂ errno calloc
    have hsound := Net.sound_initial (some (ringEntries config)) errno calloc
    refine ⟨?_, fun _ h => absurd h List.not_mem_nil, ?_⟩
    · rw [hnone]
      exact apart_initial
    · intro client _
      have hpending : pendingFor client [] BufferPools.initial
          (start config start₁ start₂ errno calloc).net = [] :=
        (Net.addAccept_issue _).pendingFor_eq hsound
          (fun sqe (h : sqe ∈ ([] : List Sqe)) => absurd h List.not_mem_nil) rfl
      have hstart : pendingFor client (start config start₁ start₂ errno calloc).inFlight
          (start config start₁ start₂ errno calloc).pools
          (start config start₁ start₂ errno calloc).net = [] := hpending
      rw [Delivers, hstart]
      exact intact_nil
  inOrder := fun client _ => List.nil_prefix

end

end Server

end CmcServer
