import CmcServer.Verification.Server.SendBuffers

/-! # Buffers of packets that are received

A packet that does not fit its chunk is received into a buffer, which the receiver gives to the
pool of the senders. -/

namespace CmcServer

open ReceiverState Runs

/-- A buffer of the size that the senders count on. -/
structure SendBuffer (config : ServerConfig) (pools : BufferPools) (b : BufId) : Prop where
  lt : b < pools.mapped
  origin : pools.origin b = .protocolSend
  capacity : pools.capacity b = config.maxSendPacketSize

section

variable {config : ServerConfig} {pools : BufferPools} {b : BufId}

theorem SendBuffer.get (h : SendBuffer config pools b) (kind : PoolKind) (size : ℕ) :
    SendBuffer config (pools.get kind size).2 b := by
  have hne : b ≠ pools.mapped := Nat.ne_of_lt h.lt
  rw [BufferPools.get]
  split
  · exact ⟨Nat.lt_succ_of_lt h.lt, (Function.update_of_ne hne _ _).trans h.origin,
      (Function.update_of_ne hne _ _).trans h.capacity⟩
  · exact ⟨h.lt, h.origin, h.capacity⟩

theorem sendBuffer_get (h : ∀ b ∈ pools.free .protocolSend, SendBuffer config pools b) :
    SendBuffer config (pools.bufferPoolGetProtocolSend config).2
      (pools.bufferPoolGetProtocolSend config).1 := by
  rw [BufferPools.bufferPoolGetProtocolSend, BufferPools.get]
  cases hpool : pools.free .protocolSend with
  | nil => exact ⟨Nat.lt_succ_self _, Function.update_self .., Function.update_self ..⟩
  | cons b rest =>
      rw [hpool] at h
      have hb := h b List.mem_cons_self
      exact ⟨hb.lt, hb.origin, hb.capacity⟩

end

/-- The pools and the requests, with the buffers of received packets in `owners`. -/
structure Sorted (config : ServerConfig) (inFlight : List Sqe) (owners : List BufId)
    (pools : BufferPools) (net : Net) : Prop where
  recv : Owned .protocolRecv pools owners
  free : ∀ b ∈ pools.free .protocolSend, SendBuffer config pools b
  sent : ∀ b ∈ sendBuffers inFlight net, SendBuffer config pools b

section

variable {config : ServerConfig} {inFlight : List Sqe} {owners owners' : List BufId}
  {pools : BufferPools} {net net' : Net} {b : BufId}

theorem Sorted.perm (h : Sorted config inFlight owners pools net) (hperm : owners.Perm owners') :
    Sorted config inFlight owners' pools net := ⟨h.recv.perm hperm, h.free, h.sent⟩

theorem Sorted.memory (h : Sorted config inFlight owners pools net)
    (memory : BufId → ℕ → UInt8) :
    Sorted config inFlight owners { pools with memory } net :=
  ⟨h.recv.memory memory,
    fun b hb => ⟨(h.free b hb).lt, (h.free b hb).origin, (h.free b hb).capacity⟩,
    fun b hb => ⟨(h.sent b hb).lt, (h.sent b hb).origin, (h.sent b hb).capacity⟩⟩

theorem Sorted.take (h : Sorted config inFlight owners pools net) :
    Sorted config inFlight ((pools.bufferPoolGetProtocolRecv config).1 :: owners)
      (pools.bufferPoolGetProtocolRecv config).2 net where
  recv := h.recv.get
  free := fun b hb => (h.free b (free_get pools _ _ hb)).get _ _
  sent := fun b hb => (h.sent b hb).get _ _

theorem Sorted.get_other (h : Sorted config inFlight owners pools net) {kind : PoolKind} {size : ℕ}
    (hkind : kind ≠ .protocolRecv) :
    Sorted config inFlight owners (pools.get kind size).2 net where
  recv := h.recv.get_other hkind
  free := fun b hb => (h.free b (free_get pools _ _ hb)).get _ _
  sent := fun b hb => (h.sent b hb).get _ _

theorem Sorted.giveBack (h : Sorted config inFlight owners pools net)
    (hb : SendBuffer config pools b) :
    Sorted config inFlight owners (pools.giveBack .protocolSend b) net where
  recv := h.recv.giveBack_other (by decide)
  free := by
    intro b' hb'
    rw [BufferPools.giveBack] at hb'
    simp only [Function.update_self] at hb'
    have hsend : SendBuffer config pools b' := by
      rcases List.mem_cons.mp hb' with rfl | hb'
      · exact hb
      · exact h.free b' hb'
    exact ⟨hsend.lt, hsend.origin, hsend.capacity⟩
  sent := fun b' hb' => ⟨(h.sent b' hb').lt, (h.sent b' hb').origin, (h.sent b' hb').capacity⟩

theorem Sorted.giveBack_tcp (h : Sorted config inFlight owners pools net) :
    Sorted config inFlight owners (pools.giveBack .tcpRecv b) net where
  recv := h.recv.giveBack_other (by decide)
  free := by
    intro b' hb'
    rw [BufferPools.giveBack] at hb'
    simp only [Function.update_of_ne (show PoolKind.protocolSend ≠ .tcpRecv by decide)] at hb'
    exact ⟨(h.free b' hb').lt, (h.free b' hb').origin, (h.free b' hb').capacity⟩
  sent := fun b' hb' => ⟨(h.sent b' hb').lt, (h.sent b' hb').origin, (h.sent b' hb').capacity⟩

theorem Sorted.requests (h : Sorted config inFlight owners pools net)
    (hsent : ∀ b ∈ sendBuffers inFlight net', b ∈ sendBuffers inFlight net) :
    Sorted config inFlight owners pools net' :=
  ⟨h.recv, h.free, fun b hb => h.sent b (hsent b hb)⟩

end

/-! ## Receiving -/

/-- The requests and the pools while a chunk is received. -/
structure Sorting (config : ServerConfig) (busy : List RequestId) (inFlight : List Sqe)
    (others : List BufId) (held : Option BufId) (w : World App) : Prop where
  sound : w.app.net.Sound busy
  sorted : Sorted config inFlight (held.toList ++ others) w.pools w.app.net

section

variable {config : ServerConfig} {busy : List RequestId} {inFlight : List Sqe}
  {others : List BufId} {held : Option BufId} {w w' : World App} {err : Err}

theorem Sorting.written (h : Sorting config busy inFlight others held w) (bytes : ℕ → UInt8) :
    Sorted config inFlight (held.toList ++ others) (written config bytes w) w.app.net ∧
      SendBuffer config (written config bytes w) (sendBuffer config w) := by
  refine ⟨(h.sorted.get_other (by decide)).memory _, ?_⟩
  have hb := sendBuffer_get h.sorted.free
  exact ⟨hb.lt, hb.origin, hb.capacity⟩

/-- A send keeps the buffers apart. -/
theorem Sorting.effect (h : Sorting config busy inFlight others held w)
    (hbusy : ∀ sqe ∈ inFlight, sqe.userData ∈ busy) (heffect : Effect config w err w') :
    Sorting config busy inFlight others held w' := by
  have hreleased : ∀ bytes, Sorted config inFlight (held.toList ++ others)
      (released config err bytes w) w.app.net := by
    intro bytes
    rcases h.written bytes with ⟨hsorted, hb⟩
    rw [released]
    split
    · exact hsorted.giveBack hb
    · exact hsorted
  cases heffect.work with
  | kept hpools hnet _ =>
      refine ⟨?_, ?_⟩
      · rw [hnet]
        exact h.sound
      · rw [hnet, hpools]
        exact h.sorted
  | unwritten bytes herr hpools hnet _ =>
      refine ⟨?_, ?_⟩
      · rw [hnet]
        exact h.sound
      · rw [hnet, hpools]
        exact hreleased bytes
  | issued bytes varintTemp size _ hissue hpools _ =>
      refine ⟨hissue.sound h.sound, ?_⟩
      rw [hpools]
      rcases hissue.outstanding_cases h.sound hbusy with ⟨herr, hout, -⟩ | ⟨hout, -⟩
      · have hsorted := hreleased bytes
        refine ⟨hsorted.recv, hsorted.free, ?_⟩
        intro b hb
        rw [sendBuffers, hout, List.filterMap_append] at hb
        rcases List.mem_append.mp hb with hb | hb
        · exact hsorted.sent b hb
        · rw [List.mem_singleton.mp hb, herr, released, if_neg (not_not.mpr rfl)]
          exact (h.written bytes).2
      · refine (hreleased bytes).requests ?_
        rw [sendBuffers, hout]
        exact fun b hb => hb

theorem sortingLaw (build : Build) (config : ServerConfig) (others : List BufId)
    (hbusy : ∀ sqe ∈ inFlight, sqe.userData ∈ busy) :
    TakeLaw config (dispatcher build config false) (Sorting config busy inFlight others)
      fun held _ => Sorting config busy inFlight others held where
  take := fun w hw => ⟨hw.sound, hw.sorted.take⟩
  copy := fun _ _ _ _ hw => ⟨hw.sound, hw.sorted.memory _⟩
  large := fun _ _ hw => hw
  dispatched := by
    intro held bytes n w hw _
    have hsorting := hw.effect hbusy (dispatcher_effect build config bytes n w)
    exact ⟨fun _ => hsorting, fun _ => hsorting⟩

end

/-! ## Steps -/

namespace Server

def heldBuffers (s : Server) : List BufId :=
  s.clients.filterMap fun client => (s.client client).receiverState.held

/-- Every buffer for received packets is in its pool or with one live client. The send pool has
only buffers of its own size. -/
structure PacketsKept (config : ServerConfig) (s : Server) : Prop where
  kept : Kept .protocolRecv s.pools s.heldBuffers
  apart : ∀ b ∈ s.pools.free .protocolSend, s.pools.origin b ≠ .protocolRecv
  capacity : ∀ b ∈ s.pools.free .protocolSend, s.pools.capacity b = config.maxSendPacketSize

/-- The step completes no packet that is in a buffer, and disconnects no client that has one. -/
def KeepsPackets (build : Build) (config : ServerConfig) (s : Server) : Event → Prop
  | .submit => True
  | .complete cqe now =>
      match s.net.requests cqe.userData with
      | .accept => True
      | .recv client =>
          if (s.client client).receiverState.held = none then
            client ∈ s.clients ∨ cqe.res ≤ 0 ∨
              (consumed build config client cqe now s).2.1.held = none
          else 0 < cqe.res ∧ cqe.received.length < (s.client client).receiverState.leftToRead
      | .send client _ _ _ => 0 < cqe.res ∨ (s.client client).receiverState.held = none

instance (build : Build) (config : ServerConfig) (s : Server) (event : Event) :
    Decidable (KeepsPackets build config s event) :=
  match event with
  | .submit => inferInstanceAs (Decidable True)
  | .complete cqe now => by
      unfold KeepsPackets
      dsimp only
      refine Request.casesOn (s.net.requests cqe.userData) ?_ ?_ ?_ <;> intros <;> infer_instance

/-- Only live clients have buffers. -/
structure PacketsSorted (config : ServerConfig) (s : Server) : Prop where
  sorted : Sorted config s.inFlight s.heldBuffers s.pools s.net
  gone : ∀ client, client ∉ s.clients → (s.client client).receiverState.held = none

section

variable {build : Build} {config : ServerConfig} {s t : Server}

theorem PacketsSorted.kept (h : PacketsSorted config s) : PacketsKept config s where
  kept := h.sorted.recv.kept
  apart := by
    intro b hb
    rw [(h.sorted.free b hb).origin]
    decide
  capacity := fun b hb => (h.sorted.free b hb).capacity

def otherBuffers (client : ClientId) (s : Server) : List BufId :=
  (s.clients.erase client).filterMap fun c => (s.client c).receiverState.held

theorem heldBuffers_perm {client : ClientId} (hclient : client ∈ s.clients) :
    s.heldBuffers.Perm ((s.client client).receiverState.held.toList ++ s.otherBuffers client) := by
  have hperm := (List.perm_cons_erase hclient).filterMap
    fun c => (s.client c).receiverState.held
  rw [List.filterMap_cons] at hperm
  rw [heldBuffers, otherBuffers]
  cases hheld : (s.client client).receiverState.held with
  | none =>
      rw [hheld] at hperm
      exact hperm
  | some b =>
      rw [hheld] at hperm
      exact hperm

theorem heldBuffers_gone {client : ClientId} (hclient : client ∉ s.clients) :
    s.heldBuffers = s.otherBuffers client := by
  rw [heldBuffers, otherBuffers, List.erase_of_not_mem hclient]

theorem otherBuffers_afterConsume {client : ClientId} (hnodup : s.clients.Nodup)
    (rs : ReceiverState) (w : World App) :
    (afterConsume client s rs w).otherBuffers client = s.otherBuffers client := by
  refine List.filterMap_congr fun c hc => ?_
  rw [afterConsume]
  dsimp only
  rw [Function.update_of_ne (hnodup.mem_erase_iff.mp hc).1]

/-- What the receiver of a client may start from and leave. -/
def Keeps (rs : ReceiverState) (live : Prop) (data : List UInt8) (rs' : ReceiverState) : Prop :=
  (rs.held = none → live ∨ rs'.held = none) ∧ (rs.held ≠ none → data.length < rs.leftToRead)

/-- A call of the receiver that gives no buffer back. -/
theorem consume_sorting {busy : List RequestId} {inFlight : List Sqe} {others : List BufId}
    {rs rs' : ReceiverState} {w w' : World App} {data : List UInt8} {err : Err} {live : Prop}
    (hbusy : ∀ sqe ∈ inFlight, sqe.userData ∈ busy) (hrs : Resumable config rs)
    (hkeeps : Keeps rs live data rs') (h : Sorting config busy inFlight others rs.held w)
    (hresult : consume build config rs w data = (err, rs', w')) :
    Sorting config busy inFlight others rs'.held w' ∧ (err ≠ .noError → rs'.held = none) := by
  rw [consume, hrs.plain.compression] at hresult
  rcases hrs.cases_held with ⟨hheld, hidle⟩ | ⟨hheld, hreceiving, hline⟩
  · rw [hheld] at h
    have hcall := (sortingLaw build config others hbusy).receiverConsumeData hidle h data
    rw [hresult] at hcall
    by_cases hok : err = .noError
    · exact ⟨(hcall.1 hok).2, fun hne => absurd hok hne⟩
    · have hnone := (hcall.2 hok).1.held
      refine ⟨?_, fun _ => hnone⟩
      rw [hnone]
      exact (hcall.2 hok).2
  · rw [receiverConsumeData_short hreceiving hline (hkeeps.2 hheld)] at hresult
    split at hresult
    · cases hresult
      exact ⟨h, fun hne => absurd rfl hne⟩
    · cases hresult
      rcases hreceiving.held with ⟨b, hpacket, -⟩
      rw [copyIn_buffer hpacket]
      exact ⟨⟨h.sound, h.sorted.memory _⟩, fun hne => absurd rfl hne⟩

theorem PacketsSorted.receive {client : ClientId} {data : List UInt8} {now : Conditions} {err : Err}
    {busy : List RequestId} (h : PacketsSorted config s) (hregular : Regular config busy s)
    (hreceive : receive build config client data now s = (err, t))
    (hkeeps : Keeps (s.client client).receiverState (client ∈ s.clients) data
      (t.client client).receiverState) :
    PacketsSorted config t ∧
      (err ≠ .noError → (t.client client).receiverState.held = none) := by
  rcases receive_cases hreceive with ⟨rs, w, hresult, rfl⟩
  have hclient : ((afterConsume client s rs w).client client).receiverState = rs := by
    rw [afterConsume]
    dsimp only
    rw [Function.update_self]
  rw [hclient] at hkeeps ⊢
  have hstart : Sorting config busy s.inFlight (s.otherBuffers client)
      (s.client client).receiverState.held (clientWorld client now s) := by
    refine ⟨hregular.sound, ?_⟩
    by_cases hlive : client ∈ s.clients
    · exact h.sorted.perm (heldBuffers_perm hlive)
    · rw [h.gone client hlive, ← heldBuffers_gone hlive]
      exact h.sorted
  rcases consume_sorting hregular.flying (hregular.resumable client) hkeeps hstart hresult with
    ⟨hsorting, hfailed⟩
  refine ⟨⟨?_, ?_⟩, hfailed⟩
  · have hsorted := hsorting.sorted
    rw [← otherBuffers_afterConsume hregular.clients_nodup rs w] at hsorted
    by_cases hlive : client ∈ s.clients
    · have hperm := heldBuffers_perm (s := afterConsume client s rs w) hlive
      rw [hclient] at hperm
      exact hsorted.perm hperm.symm
    · have hnone : rs.held = none := by
        have hheld := h.gone client hlive
        exact (hkeeps.1 hheld).resolve_left hlive
      rw [hnone] at hsorted
      rw [heldBuffers_gone (s := afterConsume client s rs w) hlive]
      exact hsorted
  · intro c hc
    rw [afterConsume]
    dsimp only
    by_cases hsame : c = client
    · subst hsame
      rw [Function.update_self]
      exact (hkeeps.1 (h.gone c hc)).resolve_left hc
    · rw [Function.update_of_ne hsame]
      exact h.gone c hc

/-- A client without a buffer is disconnected. -/
theorem PacketsSorted.disconnect {client : ClientId} (h : PacketsSorted config s)
    (hnodup : s.clients.Nodup) (hheld : (s.client client).receiverState.held = none) :
    PacketsSorted config (disconnectClient client s) := by
  have hsame : ∀ c, ((disconnectClient client s).client c).receiverState =
      (s.client c).receiverState := by
    intro c
    rw [disconnectClient]
    dsimp only
    by_cases hc : c = client
    · rw [hc, Function.update_self]
    · rw [Function.update_of_ne hc]
  have hothers : (disconnectClient client s).heldBuffers = s.otherBuffers client := by
    rw [heldBuffers, otherBuffers]
    exact List.filterMap_congr fun c _ => by rw [hsame c]
  refine ⟨?_, ?_⟩
  · rw [hothers]
    refine Sorted.giveBack_tcp ?_
    by_cases hlive : client ∈ s.clients
    · have hperm := heldBuffers_perm hlive
      rw [hheld] at hperm
      exact h.sorted.perm hperm
    · rw [← heldBuffers_gone hlive]
      exact h.sorted
  · intro c hc
    rw [hsame c]
    by_cases hclient : c = client
    · rw [hclient]
      exact hheld
    · refine h.gone c fun hmem => hc ?_
      exact hnodup.mem_erase_iff.mpr ⟨hclient, hmem⟩

theorem PacketsSorted.newClient {socket : ℤ} (h : PacketsSorted config s)
    (hlt : ∀ client ∈ s.clients, client < s.allocated) :
    PacketsSorted config (newClient config socket s) := by
  have hold : ∀ c, c ≠ s.allocated → (Server.newClient config socket s).client c = s.client c :=
    fun c hc => Function.update_of_ne hc _ _
  have hnew : ((Server.newClient config socket s).client s.allocated).receiverState =
      ReceiverState.initial := by
    rw [Server.newClient]
    dsimp only
    rw [Function.update_self]
  have hheld : (Server.newClient config socket s).heldBuffers = s.heldBuffers := by
    have hclients : (Server.newClient config socket s).clients = s.clients ++ [s.allocated] := rfl
    rw [heldBuffers, hclients, List.filterMap_append]
    have hrest : [s.allocated].filterMap (fun c =>
        ((Server.newClient config socket s).client c).receiverState.held) = [] := by
      rw [List.filterMap_cons, hnew]
      rfl
    rw [hrest, List.append_nil]
    exact List.filterMap_congr fun c hc => by rw [hold c (Nat.ne_of_lt (hlt c hc))]
  refine ⟨?_, ?_⟩
  · rw [hheld]
    exact h.sorted.get_other (by decide)
  · intro c hc
    have hne : c ≠ s.allocated := by
      rintro rfl
      exact hc (List.mem_append_right _ (List.mem_singleton_self _))
    rw [hold c hne]
    exact h.gone c fun hmem => hc (List.mem_append_left _ hmem)

/-- Only what `PacketsSorted` looks at matters to it. -/
theorem PacketsSorted.congr (h : PacketsSorted config s) (hclients : t.clients = s.clients)
    (hclient : t.client = s.client) (hpools : t.pools = s.pools)
    (hsent : ∀ b ∈ sendBuffers t.inFlight t.net, b ∈ sendBuffers s.inFlight s.net) :
    PacketsSorted config t := by
  have hheld : t.heldBuffers = s.heldBuffers := by
    rw [heldBuffers, heldBuffers, hclients, hclient]
  refine ⟨⟨?_, ?_, ?_⟩, ?_⟩
  · rw [hpools, hheld]
    exact h.sorted.recv
  · rw [hpools]
    exact h.sorted.free
  · rw [hpools]
    exact fun b hb => h.sorted.sent b (hsent b hb)
  · rw [hclients, hclient]
    exact h.gone

theorem PacketsSorted.issue {content : Request} {op : Op} {net : Net} {err : Err}
    {busy : List RequestId} (h : PacketsSorted config s)
    (hissue : Net.Issue content op s.net err net) (hsound : s.net.Sound busy)
    (hbusy : ∀ sqe ∈ s.inFlight, sqe.userData ∈ busy) (hcontent : content.buffer = none) :
    PacketsSorted config { s with net } := by
  refine h.congr rfl rfl rfl fun b hb => ?_
  rwa [hissue.sendBuffers_eq hsound hbusy hcontent] at hb

section

variable {sqe : Sqe} {cqe : Completion} {now : Conditions} {u : Server}

/-- The condition on a chunk is the one that its receiver needs. -/
theorem keeps_of_keepsPackets {client : ClientId} {err : Err} (hres : 0 < cqe.res)
    (hresult : receive build config client cqe.received now (take sqe now s) = (err, t))
    (hkeeps : if (s.client client).receiverState.held = none then
        client ∈ s.clients ∨ cqe.res ≤ 0 ∨
          (consumed build config client cqe now s).2.1.held = none
      else 0 < cqe.res ∧ cqe.received.length < (s.client client).receiverState.leftToRead) :
    Keeps (s.client client).receiverState (client ∈ s.clients) cqe.received
      (t.client client).receiverState := by
  rcases receive_consumed hresult with ⟨rs, w, hconsumed, rfl⟩
  rw [hconsumed] at hkeeps
  have hclient :
      ((afterConsume client (take sqe now s) rs w).client client).receiverState = rs := by
    rw [afterConsume]
    dsimp only
    rw [Function.update_self]
  rw [hclient]
  constructor
  · intro hheld
    rw [if_pos hheld] at hkeeps
    rcases hkeeps with hlive | hzero | hnone
    · exact Or.inl hlive
    · exact absurd hzero (not_le.mpr hres)
    · exact Or.inr hnone
  · intro hheld
    rw [if_neg hheld] at hkeeps
    exact hkeeps.2

theorem Completes.sorted (hcompletes : Completes build config s cqe now sqe u)
    (h : PacketsSorted config s)
    (hkeeps : KeepsPackets build config s (.complete cqe now)) : PacketsSorted config u := by
  have hregular := hcompletes.before
  have hsent := hcompletes.perm.filterMap Request.buffer
  have htaken : PacketsSorted config (take sqe now s) := by
    refine h.congr rfl rfl rfl fun b hb => ?_
    refine hsent.mem_iff.mpr ?_
    rw [← List.singleton_append, List.filterMap_append]
    exact List.mem_append_right _ hb
  have hbuffer : ∀ b, (s.net.requests sqe.userData).buffer = some b →
      SendBuffer config s.pools b := by
    intro b hb
    refine h.sorted.sent b (hsent.mem_iff.mpr ?_)
    rw [← List.singleton_append, List.filterMap_append]
    exact List.mem_append_left _ (by simp [hb])
  have hhandled := hcompletes.handled
  rw [KeepsPackets, ← hcompletes.user] at hkeeps
  generalize s.net.requests sqe.userData = request at hhandled hkeeps hbuffer
  cases hhandled with
  | refused => exact htaken.congr rfl rfl rfl fun _ hb => hb
  | unarmed _ hrecv _ =>
      have hissued := htaken.issue hrecv hregular.sound hregular.flying rfl
      exact (hissued.newClient hregular.clients_lt).congr rfl rfl rfl fun _ hb => hb
  | connected _ hrecv haccept =>
      have hrecv' := htaken.issue hrecv hregular.sound hregular.flying rfl
      have haccept' := hrecv'.issue haccept (hrecv.sound hregular.sound) hregular.flying rfl
      exact (haccept'.newClient hregular.clients_lt).congr rfl rfl rfl fun _ hb => hb
  | @closed client hres =>
      refine htaken.disconnect hregular.clients_nodup ?_
      by_contra hheld
      have hshort := (if_neg hheld).mp hkeeps
      exact absurd hshort.1 (not_lt.mpr hres)
  | rejected hres hresult =>
      rcases htaken.receive hregular hresult
        (keeps_of_keepsPackets (s := s) hres hresult hkeeps) with ⟨hreceived, hfailed⟩
      refine hreceived.disconnect ?_ (hfailed (by decide))
      rcases receive_cases hresult with ⟨rs, w, -, rfl⟩
      exact hregular.clients_nodup
  | failed hres hresult _ _ =>
      have hreceived := (htaken.receive hregular hresult
        (keeps_of_keepsPackets (s := s) hres hresult hkeeps)).1
      exact hreceived.congr rfl rfl rfl fun _ hb => hb
  | received hres hresult hrecv =>
      have hreceived := (htaken.receive hregular hresult
        (keeps_of_keepsPackets (s := s) hres hresult hkeeps)).1
      rcases receive_sound hregular hresult with ⟨hsound, hflying⟩
      exact hreceived.issue hrecv hsound hflying rfl
  | unsent hres =>
      refine htaken.disconnect hregular.clients_nodup ?_
      exact hkeeps.resolve_left (not_lt.mpr hres)
  | sent =>
      have hsorted := htaken.sorted.giveBack (hbuffer _ rfl)
      exact ⟨hsorted, htaken.gone⟩

end

theorem step_sorted {event : Event} (hregular : Regular config s.kernel s)
    (h : PacketsSorted config s) (hstep : step build config s event = some t)
    (hkeeps : KeepsPackets build config s event) : PacketsSorted config t := by
  cases event with
  | submit =>
      cases (step_cases hstep).2
      refine h.congr rfl rfl rfl fun b hb => ?_
      have hsame : sendBuffers s.submitAndWait.inFlight s.submitAndWait.net =
          sendBuffers s.inFlight s.net := by
        simp [sendBuffers, outstanding, submitAndWait]
      rwa [hsame] at hb
  | complete cqe now =>
      rcases complete_cases hregular hstep with ⟨sqe, u, hcompletes, rfl⟩
      have hsorted := hcompletes.sorted h hkeeps
      rw [finish]
      split
      · exact hsorted.congr rfl rfl rfl fun _ hb => hb
      · exact hsorted

theorem packetsSorted_start (config : ServerConfig) (start₁ start₂ errno : ℕ) (calloc : Bool) :
    PacketsSorted config (start config start₁ start₂ errno calloc) where
  sorted := by
    have hnone := sendBuffers_start config start₁ start₂ errno calloc
    refine ⟨owned_initial _, fun _ h => absurd h List.not_mem_nil, ?_⟩
    rw [hnone]
    exact fun _ h => absurd h List.not_mem_nil
  gone := fun _ _ => rfl

/-- In a run that completes no packet in a buffer and disconnects no client that has one, each
buffer for received packets is in its pool or with one live client, and out of the send pool. -/
theorem packets_kept {start₁ start₂ errno : ℕ} {calloc : Bool}
    {trace : List (Transition Server Event)}
    (h : Run (step build config) (start config start₁ start₂ errno calloc) trace t)
    (hkeeps : ∀ x ∈ trace, KeepsPackets build config x.pre x.event) :
    ∀ x ∈ trace, PacketsKept config x.post := by
  intro x hx
  have hlaw := run_law h (packetsSorted_start ..)
    (fun _ _ _ hregular hs hstep hok => step_sorted hregular hs hstep hok) hkeeps x hx
  exact hlaw.2.2.kept

end

/-- A packet comes in parts, of which the last is missing. -/
theorem packets_kept_half :
    let trace := played defaultConfig
      [.submit, ended 0 5, .submit, chunk 1 [7, 0, 0xF5], .submit, chunk 0 [0x05, 0]]
    ∃ t, Run (step someBuild defaultConfig) (start defaultConfig 0x100000000 0x200000000 0 true)
        trace t ∧ ∀ x ∈ trace, PacketsKept defaultConfig x.post := by
  rcases run_played defaultConfig
    [.submit, ended 0 5, .submit, chunk 1 [7, 0, 0xF5], .submit, chunk 0 [0x05, 0]] with ⟨t, hrun⟩
  refine ⟨t, hrun, packets_kept hrun ?_⟩
  decide +kernel

/-- A handshake in two parts moves its buffer to the senders, where it is too small. -/
theorem packets_mixed :
    ¬ ∀ build config start₁ start₂ errno calloc trace t,
      Run (step build config) (start config start₁ start₂ errno calloc) trace t →
        ∀ x ∈ trace, PacketsKept config x.post := by
  intro h
  rcases run_played { defaultConfig with maxRecvPacketSize := 100 }
    [.submit, ended 0 5, .submit, chunk 1 (handshake.take 3), .submit, chunk 0 (handshake.drop 3)]
    with ⟨t, hrun⟩
  have hmixed : ∃ x ∈ played { defaultConfig with maxRecvPacketSize := 100 }
      [.submit, ended 0 5, .submit, chunk 1 (handshake.take 3), .submit,
        chunk 0 (handshake.drop 3)],
      1 ∈ x.post.pools.free .protocolSend ∧ x.post.pools.capacity 1 = 100 := by
    decide +kernel
  rcases hmixed with ⟨x, hx, hfree, hcapacity⟩
  have hsize := (h _ _ _ _ _ _ _ _ hrun x hx).capacity 1 hfree
  rw [hcapacity] at hsize
  exact absurd hsize (by decide)

end Server

end CmcServer
