import CmcServer.Verification.Server.Connections
import CmcServer.Verification.Server.StaleClients

/-! # Recvs into memory

A recv is into the buffer of its client. While every request names a live client, these buffers are
apart, and the handler of a recv reads what the kernel has written for it. -/

namespace CmcServer

open Runs

section

variable {net net' : Net} {busy : List RequestId} {inFlight : List Sqe} {content : Request}
  {op : Op} {err : Err}

theorem Net.Issue.count_le (hissue : Net.Issue content op net err net') (h : net.Sound busy)
    (hbusy : ∀ sqe ∈ inFlight, sqe.userData ∈ busy) (request : Request) :
    (outstanding inFlight net').count request ≤
      (content :: outstanding inFlight net).count request := by
  rcases hissue.outstanding_cases h hbusy with ⟨-, hout, -⟩ | ⟨hout, -⟩
  · rw [hout, (List.perm_append_singleton _ _).count_eq]
  · rw [hout]
    exact List.count_le_count_cons

end

namespace Server

/-- A recv is into the buffer of its client. -/
def Aimed (s : Server) : Op → Request → Prop
  | .recv _ buffer _, .recv client => buffer = (s.client client).recvBuffer
  | _, _ => True

/-- Live clients have buffers of their own, and each client has at most one recv, which is into its
buffer. `lent` is the request that is handled. -/
structure Buffered (lent : List Request) (s : Server) : Prop where
  owned : Owned .tcpRecv s.pools (s.ofClients Client.recvBuffer)
  lone : ∀ client, (lent ++ outstanding s.inFlight s.net).count (.recv client) ≤ 1
  aimed : ∀ sqe ∈ s.inFlight ++ s.net.queue, Aimed s sqe.op (s.net.requests sqe.userData)

section

variable {build : Build} {config : ServerConfig} {s t : Server} {lent : List Request}
  {busy : List RequestId}

theorem Aimed.congr {op : Op} {request : Request} (h : Aimed s op request)
    (hsame : ∀ client, request.client = some client →
      (t.client client).recvBuffer = (s.client client).recvBuffer) : Aimed t op request := by
  cases op with
  | accept | writev => exact trivial
  | recv =>
      cases request with
      | accept | send => exact trivial
      | recv client => exact Eq.trans h (hsame client rfl).symm

/-- Only what `Buffered` looks at matters to it. -/
theorem Buffered.congr (h : Buffered lent s) (hclients : t.clients = s.clients)
    (hclient : t.client = s.client) (hpools : t.pools = s.pools) (hnet : t.net = s.net)
    (hflying : t.inFlight = s.inFlight) : Buffered lent t := by
  refine ⟨?_, ?_, ?_⟩
  · rw [hpools, ofClients, hclients, hclient]
    exact h.owned
  · rw [hnet, hflying]
    exact h.lone
  · rw [hnet, hflying]
    exact fun sqe hsqe => (h.aimed sqe hsqe).congr fun _ _ => by rw [hclient]

theorem Buffered.done (h : Buffered lent s) : Buffered [] s :=
  ⟨h.owned, fun client => Nat.le_trans
    ((List.sublist_append_right lent _).count_le _) (h.lone client), h.aimed⟩

/-- The request that is handled is made again. -/
theorem Buffered.issue {content : Request} {op : Op} {err : Err} {net : Net}
    (h : Buffered (content :: lent) s) (hissue : Net.Issue content op s.net err net)
    (hsound : s.net.Sound busy) (hbusy : ∀ sqe ∈ s.inFlight, sqe.userData ∈ busy)
    (haimed : Aimed s op content) : Buffered lent { s with net } where
  owned := h.owned
  lone := by
    intro client
    have hlone := h.lone client
    have hcount := hissue.count_le hsound hbusy (.recv client)
    rw [List.cons_append, ← List.perm_middle.count_eq, List.count_append] at hlone
    rw [List.count_append]
    dsimp only
    omega
  aimed := hissue.forall hsound hbusy haimed h.aimed

theorem Buffered.receive {client : ClientId} {data : List UInt8} {now : Conditions} {err : Err}
    (h : Buffered lent s) (hregular : Regular config busy s)
    (hreceive : receive build config client data now s = (err, t)) : Buffered lent t := by
  have hnet := (receive_net (J := fun net => net.Sound busy ∧
      (∀ c, (outstanding s.inFlight net).count (.recv c) ≤
        (outstanding s.inFlight s.net).count (.recv c)) ∧
      ∀ sqe ∈ s.inFlight ++ net.queue, Aimed s sqe.op (net.requests sqe.userData))
    (hregular.resumable client) ?_ ⟨hregular.sound, fun _ => Nat.le_refl _, h.aimed⟩ hreceive).2
  · rcases receive_cases hreceive with ⟨rs, w, hresult, rfl⟩
    have hcall := consume_law (tcpRecvLaw build config (s.ofClients Client.recvBuffer))
      (w := clientWorld client now s) (hregular.resumable client) h.owned data
    rw [hresult] at hcall
    refine ⟨?_, fun c => ?_, fun sqe hsqe => ?_⟩
    · rw [ofClients_afterConsume client s rs w rfl]
      by_cases hok : err = .noError
      · exact (hcall.1 hok).2
      · exact (hcall.2 hok).2
    · have hlone := h.lone c
      have hcount := hnet.2.1 c
      rw [List.count_append] at hlone ⊢
      exact Nat.le_trans (Nat.add_le_add_left hcount _) hlone
    · refine (hnet.2.2 sqe hsqe).congr fun c _ => ?_
      rw [afterConsume]
      dsimp only
      by_cases hc : c = client
      · rw [hc, Function.update_self]
      · rw [Function.update_of_ne hc]
  · intro varintTemp buffer size socket net err net' hissue hJ
    refine ⟨hissue.sound hJ.1, fun c => ?_, hissue.forall hJ.1 hregular.flying trivial hJ.2.2⟩
    have hcount := hissue.count_le hJ.1 hregular.flying (.recv c)
    rw [List.count_cons_of_ne (by simp)] at hcount
    exact Nat.le_trans hcount (hJ.2.1 c)

/-- A live client is disconnected, and its buffer goes back to the pool. -/
theorem Buffered.disconnect {client : ClientId} (h : Buffered lent s)
    (hclient : client ∈ s.clients) : Buffered lent (disconnectClient client s) := by
  have hsame : ∀ c, ((disconnectClient client s).client c).recvBuffer =
      (s.client c).recvBuffer := by
    intro c
    rw [disconnectClient]
    dsimp only
    by_cases hc : c = client
    · rw [hc, Function.update_self]
    · rw [Function.update_of_ne hc]
  refine ⟨?_, h.lone, fun sqe hsqe => (h.aimed sqe hsqe).congr fun c _ => hsame c⟩
  · have hperm : (s.ofClients Client.recvBuffer).Perm ((s.client client).recvBuffer ::
        (disconnectClient client s).ofClients Client.recvBuffer) := by
      have hothers : (disconnectClient client s).ofClients Client.recvBuffer =
          (s.clients.erase client).map fun c => (s.client c).recvBuffer :=
        List.map_congr_left fun c _ => hsame c
      rw [hothers]
      exact (List.perm_cons_erase hclient).map _
    exact (h.owned.perm hperm).giveBack

/-- A client is accepted, with a buffer that no other live client has. -/
theorem Buffered.newClient {socket : ℤ} {request : Request} (h : Buffered [request] s)
    (hregular : Regular config busy s)
    (hrequest : ∀ client, request.client = some client → client < s.allocated) :
    Buffered [.recv s.allocated, request] (newClient config socket s) where
  owned := by
    rw [ofClients_newClient _ hregular.clients_lt]
    exact h.owned.get.perm (List.perm_append_singleton _ _).symm
  lone := by
    intro client
    have hlone := h.lone client
    rw [List.cons_append]
    by_cases hclient : client = s.allocated
    · rw [hclient, List.count_cons_self, List.count_eq_zero_of_not_mem]
      rintro hmem
      rcases List.mem_cons.mp hmem with rfl | hmem
      · exact Nat.lt_irrefl _ (hrequest _ rfl)
      · rcases List.mem_map.mp hmem with ⟨sqe, hsqe, heq⟩
        have hlt := (hregular.fits sqe hsqe).client_lt s.allocated (by
          rw [show s.net.requests sqe.userData = .recv s.allocated from heq]
          rfl)
        exact Nat.lt_irrefl _ hlt
    · rw [List.count_cons_of_ne (by simpa using Ne.symm hclient)]
      exact hlone
  aimed := by
    intro sqe hsqe
    refine (h.aimed sqe hsqe).congr fun c hc => ?_
    have hlt := (hregular.fits sqe hsqe).client_lt c hc
    rw [Server.newClient]
    dsimp only
    rw [Function.update_of_ne (Nat.ne_of_lt hlt)]

/-! ## Handlers -/

section

variable {request : Request} {cqe : Completion} {now : Conditions}

theorem Buffered.connect {socket : ℤ} {err : Err} {net : Net}
    (h : Buffered [.accept] s) (hregular : Regular config busy s)
    (hrecv : Net.Issue (.recv s.allocated)
      (.recv socket (s.pools.bufferPoolGetTcpRecv config).1 config.recvBufferSize) s.net err net) :
    Buffered [.accept] { Server.newClient config socket s with net } := by
  have hnew : Buffered [.recv s.allocated, .accept] (Server.newClient config socket s) :=
    h.newClient hregular fun _ hclient => by cases hclient
  have hclient : (Server.newClient config socket s).client s.allocated =
      connected config socket s := Function.update_self ..
  exact hnew.issue hrecv hregular.sound hregular.flying (congrArg Client.recvBuffer hclient).symm

theorem Handled.buffered (hhandled : Handled build config s cqe now request t)
    (hregular : Regular config busy s) (h : Buffered [request] s)
    (hlive : ∀ client, request.client = some client → client ∈ s.clients) : Buffered [] t := by
  have hreceive : ∀ {client err u}, request = .recv client →
      receive build config client cqe.received now s = (err, u) →
      Buffered [request] u ∧ u.clients = s.clients := by
    rintro client err u rfl hresult
    refine ⟨h.receive hregular hresult, ?_⟩
    rcases receive_cases hresult with ⟨rs, w, -, rfl⟩
    rfl
  cases hhandled with
  | refused => exact h.done.congr rfl rfl rfl rfl rfl
  | unarmed _ hrecv _ => exact (h.connect hregular hrecv).done.congr rfl rfl rfl rfl rfl
  | connected _ hrecv haccept =>
      have hconnected := (h.connect hregular hrecv).issue haccept (hrecv.sound hregular.sound)
        hregular.flying trivial
      exact hconnected.congr rfl rfl rfl rfl rfl
  | closed | unsent => exact (h.disconnect (hlive _ rfl)).done
  | rejected _ hresult =>
      rcases hreceive rfl hresult with ⟨hreceived, hclients⟩
      refine (hreceived.disconnect ?_).done
      rw [hclients]
      exact hlive _ rfl
  | failed _ hresult _ _ => exact (hreceive rfl hresult).1.done.congr rfl rfl rfl rfl rfl
  | received _ hresult hrecv =>
      rcases receive_sound hregular hresult with ⟨hsound, hflying⟩
      exact (hreceive rfl hresult).1.issue hrecv hsound hflying rfl
  | sent => exact ⟨h.owned.giveBack_other (by decide), h.done.lone, h.aimed⟩

end

/-- What a step keeps where every request names a live client. -/
theorem step_buffered {event : Event} (hregular : Regular config s.kernel s) (horderly : Orderly s)
    (h : Buffered [] s) (hstep : step build config s event = some t) : Buffered [] t := by
  cases event with
  | submit =>
      cases (step_cases hstep).2
      have hsqes : s.submitAndWait.inFlight ++ s.submitAndWait.net.queue =
          s.inFlight ++ s.net.queue := by
        simp [submitAndWait]
      refine ⟨h.owned, fun client => ?_, fun sqe hsqe => ?_⟩
      · rw [outstanding, hsqes]
        exact h.lone client
      · rw [hsqes] at hsqe
        exact h.aimed sqe hsqe
  | complete cqe now =>
      rcases complete_cases hregular hstep with ⟨sqe, u, hcompletes, rfl⟩
      have htaken : Buffered [s.net.requests sqe.userData] (take sqe now s) := by
        refine ⟨h.owned, fun client => ?_, fun sqe' hsqe' => ?_⟩
        · have hlone := h.lone client
          rw [List.nil_append, hcompletes.perm.count_eq] at hlone
          exact hlone
        · refine h.aimed sqe' ?_
          rcases List.mem_append.mp hsqe' with hmem | hmem
          · exact List.mem_append_left _ (List.mem_of_mem_erase hmem)
          · exact List.mem_append_right _ hmem
      have hafter := hcompletes.handled.buffered hcompletes.before htaken
        (horderly.live _ (hcompletes.perm.mem_iff.mpr List.mem_cons_self))
      rw [finish]
      split
      · exact ⟨hafter.owned, hafter.lone, hafter.aimed⟩
      · exact hafter

theorem buffered_start (config : ServerConfig) (start₁ start₂ errno : ℕ) (calloc : Bool) :
    Buffered [] (start config start₁ start₂ errno calloc) := by
  have hissue := Net.addAccept_issue { Net.initial (some (ringEntries config)) with errno, calloc }
  have hsound := Net.sound_initial (some (ringEntries config)) errno calloc
  have hnone : ∀ sqe ∈ ([] : List Sqe), sqe.userData ∈ ([] : List RequestId) := by simp
  refine ⟨owned_initial .tcpRecv, fun client => ?_, ?_⟩
  · have hcount := hissue.count_le hsound hnone (.recv client)
    exact Nat.le_trans hcount (by simp [outstanding, Net.initial])
  · exact hissue.forall hsound hnone trivial fun _ h => absurd h List.not_mem_nil

/-! ## Recvs of the kernel -/

theorem Fits.of_recv {bound : ℕ} {op : Op} {client : ClientId}
    (h : Fits config bound op (.recv client)) :
    ∃ socket buffer, op = .recv socket buffer config.recvBufferSize := by
  cases h with
  | @recv _ socket buffer => exact ⟨socket, buffer, rfl⟩

/-- A recv of the kernel is for a live client, into its buffer. -/
theorem Buffered.recv_cases (h : Buffered [] s) (hregular : Regular config s.kernel s)
    (horderly : Orderly s) {sqe : Sqe} (hsqe : sqe ∈ s.inFlight) {socket : ℤ} {buffer : BufId}
    {size : ℕ} (hop : sqe.op = .recv socket buffer size) :
    ∃ client ∈ s.clients, s.net.requests sqe.userData = .recv client ∧
      buffer = (s.client client).recvBuffer := by
  have hmem : sqe ∈ s.inFlight ++ s.net.queue := List.mem_append_left _ hsqe
  have hfits := hregular.fits sqe hmem
  have haimed := h.aimed sqe hmem
  have hlive := horderly.live _ (List.mem_map_of_mem hmem)
  rw [hop] at hfits haimed
  generalize s.net.requests sqe.userData = request at hfits haimed hlive
  cases hfits with
  | @recv client => exact ⟨client, hlive client rfl, rfl, haimed⟩

/-- Two recvs of the kernel are into different buffers. -/
theorem Buffered.buffer_ne (h : Buffered [] s) (hregular : Regular config s.kernel s)
    (horderly : Orderly s) {sqe sqe' : Sqe} (hsqe : sqe ∈ s.inFlight) (hsqe' : sqe' ∈ s.inFlight)
    (hne : sqe' ≠ sqe) {socket socket' : ℤ} {buffer buffer' : BufId} {size size' : ℕ}
    (hop : sqe.op = .recv socket buffer size) (hop' : sqe'.op = .recv socket' buffer' size') :
    buffer' ≠ buffer := by
  rcases h.recv_cases hregular horderly hsqe hop with ⟨c, hc, hrequest, hbuffer⟩
  rcases h.recv_cases hregular horderly hsqe' hop' with ⟨c', hc', hrequest', hbuffer'⟩
  have hclients : c' ≠ c := by
    rintro rfl
    have hlone := h.lone c'
    have hperm : (outstanding s.inFlight s.net).Perm
        (s.net.requests sqe.userData :: outstanding (s.inFlight.erase sqe) s.net) :=
      ((List.perm_cons_erase hsqe).append_right _).map _
    have hother : .recv c' ∈ outstanding (s.inFlight.erase sqe) s.net := by
      rw [← hrequest']
      exact List.mem_map_of_mem (List.mem_append_left _ ((List.mem_erase_of_ne hne).mpr hsqe'))
    have hpos := List.count_pos_iff.mpr hother
    rw [List.nil_append, hperm.count_eq, hrequest, List.count_cons_self] at hlone
    omega
  have hnodup : (s.ofClients Client.recvBuffer).Nodup := (List.nodup_append.mp h.owned.nodup).2.1
  rw [hbuffer, hbuffer']
  exact fun hsame => hclients (List.inj_on_of_nodup_map hnodup hc' hc hsame)

end

end Server

namespace Machine

/-- What the kernel has written for its recvs is in their buffers. -/
structure Written (m : Machine) : Prop where
  unreported : ∀ id ∉ m.server.kernel, m.arrived id = []
  buffer : ∀ sqe ∈ m.server.inFlight, ∀ socket buffer size, sqe.op = .recv socket buffer size →
    (List.range (m.arrived sqe.userData).length).map (m.recvMemory buffer) =
      m.arrived sqe.userData

/-- What holds in every run in which each client that is disconnected has no other request. -/
structure Settled (config : ServerConfig) (m : Machine) : Prop where
  regular : Server.Regular config m.server.kernel m.server
  orderly : Server.Orderly m.server
  buffered : Server.Buffered [] m.server
  written : Written m

section

variable {build : Build} {config : ServerConfig} {m n : Machine} {request : RequestId}
  {bytes : List UInt8}

theorem arrive_cases (h : m.arrive request bytes = some n) :
    ∃ socket buffer size, ∃ sqe ∈ m.server.inFlight, sqe.userData = request ∧
      sqe.op = .recv socket buffer size ∧
      n = { m with
        recvMemory := Function.update m.recvMemory buffer fun i =>
          bytes.getD i (m.recvMemory buffer i)
        arrived := Function.update m.arrived request bytes } := by
  rw [arrive] at h
  split at h
  · rename_i socket buffer size id hfind
    have huser : id = request := by
      have hpred := List.find?_some hfind
      simpa using hpred
    split at h
    · cases h
      exact ⟨socket, buffer, size, _, List.mem_of_find?_eq_some hfind, huser, rfl, rfl⟩
    · cases h
  · cases h

/-- The kernel writes into a buffer that no other recv is into. -/
theorem Settled.arrive (h : Settled config m) (harrive : m.arrive request bytes = some n) :
    Settled config n := by
  rcases arrive_cases harrive with ⟨socket, buffer, size, sqe, hsqe, rfl, hop, rfl⟩
  refine ⟨h.regular, h.orderly, h.buffered, ?_, ?_⟩
  · intro id hid
    have hne : id ≠ sqe.userData := by
      rintro rfl
      exact hid (List.mem_map_of_mem hsqe)
    dsimp only
    rw [Function.update_of_ne hne]
    exact h.written.unreported id hid
  · intro sqe' hsqe' socket' buffer' size' hop'
    dsimp only
    by_cases hsame : sqe' = sqe
    · rw [hsame, hop] at hop'
      cases hop'
      rw [hsame, Function.update_self, Function.update_self]
      refine List.ext_getElem (by simp) fun i _ hi => ?_
      rw [List.getElem_map, List.getElem_range, List.getD_eq_getElem?_getD,
        List.getElem?_eq_getElem hi, Option.getD_some]
    · have hids : sqe'.userData ≠ sqe.userData := by
        have hnodup : m.server.kernel.Nodup := by
          have hsound := h.regular.sound.nodup
          rw [List.append_assoc] at hsound
          exact (List.nodup_append.mp hsound).1
        exact fun heq => hsame (List.inj_on_of_nodup_map hnodup hsqe' hsqe heq)
      have hbuffers := h.buffered.buffer_ne h.regular h.orderly hsqe hsqe' hsame hop hop'
      rw [Function.update_of_ne hids, Function.update_of_ne hbuffers]
      exact h.written.buffer sqe' hsqe' socket' buffer' size' hop'

/-- What a step of the machine is to its server. -/
theorem step_seen {event : Event} (h : m.step build config event = some n) :
    match m.seen event with
    | none => n.server = m.server
    | some e => m.server.step build config e = some n.server := by
  cases event with
  | submit =>
      rcases Option.map_eq_some_iff.mp h with ⟨server, hserver, rfl⟩
      exact hserver
  | arrive request bytes =>
      rcases arrive_cases h with ⟨socket, buffer, size, sqe, -, -, -, rfl⟩
      rfl
  | complete request res family now =>
      rw [step] at h
      split at h
      · rcases Option.map_eq_some_iff.mp h with ⟨server, hserver, rfl⟩
        exact hserver
      · cases h

/-- The handler of a recv reads what the kernel has written for it. -/
theorem Settled.received_eq (h : Settled config m) {sqe : Sqe} (hsqe : sqe ∈ m.server.inFlight)
    {client : ClientId} (hrequest : m.server.net.requests sqe.userData = .recv client) {res : ℤ}
    (hreported : Reported sqe.userData res m) :
    m.received sqe.userData res = m.arrived sqe.userData := by
  have hfits := h.regular.fits sqe (List.mem_append_left _ hsqe)
  rw [hrequest] at hfits
  rcases hfits.of_recv with ⟨socket, buffer, hop⟩
  rcases h.buffered.recv_cases h.regular h.orderly hsqe hop with ⟨c, -, hc, hbuffer⟩
  cases hrequest.symm.trans hc
  rw [Reported, hrequest] at hreported
  rw [received, hrequest]
  dsimp only
  rw [← hreported, ← hbuffer]
  exact h.written.buffer sqe hsqe socket buffer _ hop

/-- The kernel gets requests for which it has written nothing. -/
theorem Written.submit {server : Server} (h : Written m)
    (hregular : Server.Regular config m.server.kernel m.server)
    (hstep : m.server.step build config .submit = some server) : Written { m with server } := by
  cases (Server.step_cases hstep).2
  refine ⟨fun id hid => h.unreported id fun hmem => hid ?_, ?_⟩
  · rw [Server.kernel, Server.submitAndWait, List.map_append]
    exact List.mem_append_left _ hmem
  · intro sqe hsqe socket buffer size hop
    rcases List.mem_append.mp hsqe with hold | hnew
    · exact h.buffer sqe hold socket buffer size hop
    · have hfresh : sqe.userData ∉ m.server.kernel := by
        have hnodup := (List.nodup_append.mp hregular.sound.nodup).1
        intro hmem
        exact (List.nodup_append.mp hnodup).2.2 _ hmem _ (List.mem_map_of_mem hnew) rfl
      dsimp only
      rw [h.unreported _ hfresh]
      rfl

/-- A request that is handled leaves the kernel. -/
theorem Written.complete {server : Server} (h : Written m) {cqe : Completion} {now : Conditions}
    (hregular : Server.Regular config m.server.kernel m.server)
    (hstep : m.server.step build config (.complete cqe now) = some server) :
    Written { m with server, arrived := Function.update m.arrived cqe.userData [] } := by
  rcases Server.complete_cases hregular hstep with ⟨sqe, u, hcompletes, rfl⟩
  have hflying : (Server.finish sqe.userData u).inFlight = m.server.inFlight.erase sqe := by
    have hhandled : u.inFlight = m.server.inFlight.erase sqe := hcompletes.handled.inFlight
    rw [← hhandled, Server.finish]
    split <;> rfl
  have hids : m.server.kernel.Perm
      (sqe.userData :: (m.server.inFlight.erase sqe).map Sqe.userData) :=
    (List.perm_cons_erase hcompletes.mem).map _
  have hnodup : (sqe.userData :: (m.server.inFlight.erase sqe).map Sqe.userData).Nodup := by
    have hsound := hregular.sound.nodup
    rw [List.append_assoc] at hsound
    exact hids.nodup_iff.mp (List.nodup_append.mp hsound).1
  rw [← hcompletes.user]
  refine ⟨?_, ?_⟩
  · intro id hid
    rw [Server.kernel, hflying] at hid
    dsimp only
    by_cases hsame : id = sqe.userData
    · rw [hsame, Function.update_self]
    · rw [Function.update_of_ne hsame]
      refine h.unreported id fun hmem => hid ?_
      exact (List.mem_cons.mp (hids.mem_iff.mp hmem)).resolve_left hsame
  · intro sqe' hsqe' socket buffer size hop
    dsimp only at hsqe' ⊢
    rw [hflying] at hsqe'
    have hne : sqe'.userData ≠ sqe.userData := by
      intro heq
      refine (List.nodup_cons.mp hnodup).1 ?_
      rw [← heq]
      exact List.mem_map_of_mem hsqe'
    rw [Function.update_of_ne hne]
    exact h.buffer sqe' (List.mem_of_mem_erase hsqe') socket buffer size hop

theorem step_settled {event : Event} (h : Settled config m)
    (hstep : m.step build config event = some n)
    (halone : ∀ e ∈ m.seen event, m.server.LeavesAlone build config e) : Settled config n := by
  have hserver : ∀ {e server}, e ∈ m.seen event → m.server.step build config e = some server →
      Server.Regular config server.kernel server ∧ Server.Orderly server ∧
        Server.Buffered [] server := by
    intro e server he hseen
    refine ⟨Server.step_regular h.regular hseen, ?_,
      Server.step_buffered h.regular h.orderly h.buffered hseen⟩
    rcases Server.step_orderly h.regular h.orderly hseen with ⟨-, horderly⟩ | ⟨hnot, -⟩
    · exact horderly
    · exact absurd (halone e he) hnot
  cases event with
  | submit =>
      rcases Option.map_eq_some_iff.mp hstep with ⟨server, hseen, rfl⟩
      rcases hserver rfl hseen with ⟨hregular, horderly, hbuffered⟩
      exact ⟨hregular, horderly, hbuffered, h.written.submit h.regular hseen⟩
  | arrive request bytes => exact h.arrive hstep
  | complete request res family now =>
      rw [step] at hstep
      split at hstep
      · rcases Option.map_eq_some_iff.mp hstep with ⟨server, hseen, rfl⟩
        rcases hserver rfl hseen with ⟨hregular, horderly, hbuffered⟩
        exact ⟨hregular, horderly, hbuffered, h.written.complete h.regular hseen⟩
      · cases hstep

theorem settled_start (config : ServerConfig) (start₁ start₂ errno : ℕ) (calloc : Bool) :
    Settled config (start config start₁ start₂ errno calloc) :=
  ⟨Server.regular_start .., Server.orderly_start .., Server.buffered_start ..,
    fun _ _ => rfl, fun _ h => absurd h List.not_mem_nil⟩

/-! ## Runs -/

/-- The steps of the server in a run of the machine. -/
def served (trace : List (Transition Machine Event)) :
    List (Transition Server Server.Event) :=
  trace.filterMap fun x => (x.pre.seen x.event).map fun e => ⟨x.pre.server, e, x.post.server⟩

/-- The server runs with the bytes that it reads from its recv buffers. -/
theorem run_served {trace : List (Transition Machine Event)}
    (h : Run (step build config) m trace n) :
    Run (Server.step build config) m.server (served trace) n.server := by
  induction h with
  | nil => exact .nil
  | @snoc _ m' event n' _ hstep ih =>
      have hseen := step_seen hstep
      rw [served, List.filterMap_append, List.filterMap_cons, List.filterMap_nil]
      dsimp only
      split at hseen
      · rename_i hnone
        rw [hnone, hseen, Option.map_none, List.append_nil]
        exact ih
      · rename_i e hsome
        rw [hsome, Option.map_some]
        exact ih.snoc hseen

/-- What holds around each step of a run in which each client that is disconnected has no other
request then. -/
theorem run_settled {start₁ start₂ errno : ℕ} {calloc : Bool}
    {trace : List (Transition Machine Event)}
    (h : Run (step build config) (start config start₁ start₂ errno calloc) trace n)
    (halone : ∀ x ∈ served trace, x.pre.LeavesAlone build config x.event) :
    ∀ x ∈ trace, x.pre.step build config x.event = some x.post ∧ Settled config x.pre := by
  intro x hx
  have hboth := h.guarded_transitions (Settled config)
    (fun x => ∀ e ∈ x.pre.seen x.event, x.pre.server.LeavesAlone build config e)
    (settled_start ..) (fun _ _ _ hm hstep hok => step_settled hm hstep hok) ?_ x hx
  · exact ⟨hboth.1, hboth.2.1⟩
  · intro y hy e he
    refine halone ⟨y.pre.server, e, y.post.server⟩ ?_
    exact List.mem_filterMap.mpr ⟨y, hy, by rw [Option.mem_def.mp he]; rfl⟩

end

/-! ## Runs for examples -/

def ended (id : RequestId) (res : ℤ) : Event := .complete id res AF_INET Server.usual

/-- What a machine with the default configuration does when `events` happen. -/
def played (events : List Event) : List (Transition Machine Event) :=
  replay (step Server.someBuild defaultConfig)
    (start defaultConfig 0x100000000 0x200000000 0 true) events

theorem run_played (events : List Event) :
    ∃ m, Run (step Server.someBuild defaultConfig)
      (start defaultConfig 0x100000000 0x200000000 0 true) (played events) m :=
  run_replay _ _ _

end Machine

end CmcServer
