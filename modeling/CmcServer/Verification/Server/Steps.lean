import CmcServer.Lib.Runs
import CmcServer.Model.Server
import CmcServer.Verification.Dispatch.Effects
import CmcServer.Verification.Receiver.Resume

/-! # Steps of the event loop

What a step of the server can do, and what holds in every run of it: a request is in one place,
every receiver resumes, and requests name clients that were allocated. -/

namespace CmcServer

open ReceiverState Runs

namespace Server

variable {build : Build} {config : ServerConfig} {s t : Server}

/-! ## Cases of a step -/

/-- A submission, or the handling of a completion of `sqe`. -/
inductive Stepped (build : Build) (config : ServerConfig) (s : Server) : Event → Server → Prop where
  | submit : Stepped build config s .submit s.submitAndWait
  | complete {sqe cqe now} : sqe ∈ s.inFlight → sqe.userData = cqe.userData →
      Promised s sqe.op cqe →
      Stepped build config s (.complete cqe now) (finish sqe.userData
        (handle build config (s.net.requests sqe.userData) cqe now (take sqe now s)))

theorem step_cases {event : Event} (h : step build config s event = some t) :
    s.stopped = none ∧ Stepped build config s event t := by
  cases event with
  | submit =>
      rw [step] at h
      split at h
      · rename_i hstopped
        cases h
        exact ⟨hstopped, .submit⟩
      · cases h
  | complete cqe now =>
      rw [step] at h
      split at h
      · cases h
      · rename_i sqe hfind
        have huser : sqe.userData = cqe.userData := by
          have hpred := List.find?_some hfind
          simpa using hpred
        split at h
        · rename_i hok
          cases h
          rw [← huser]
          exact ⟨hok.1, .complete (List.mem_of_find?_eq_some hfind) huser hok.2⟩
        · cases h

/-! ## Clients -/

def ofClients {α : Type*} (field : Client → α) (s : Server) : List α :=
  s.clients.map fun client => field (s.client client)

theorem ofClients_congr {α : Type*} {field : Client → α} (hclients : t.clients = s.clients)
    (h : ∀ client ∈ s.clients, field (t.client client) = field (s.client client)) :
    ofClients field t = ofClients field s := by
  rw [ofClients, ofClients, hclients]
  exact List.map_congr_left h

def connected (config : ServerConfig) (socket : ℤ) (s : Server) : Client where
  socket
  receiverState := ReceiverState.initial
  state := PROTOCOL_HANDSHAKING
  recvBuffer := (s.pools.bufferPoolGetTcpRecv config).1

theorem ofClients_newClient {α : Type*} (field : Client → α) {socket : ℤ}
    (hlt : ∀ client ∈ s.clients, client < s.allocated) :
    ofClients field (newClient config socket s) =
      ofClients field s ++ [field (connected config socket s)] := by
  rw [ofClients, newClient, List.map_append]
  congr 1
  · refine List.map_congr_left fun client hclient => ?_
    simp only [Function.update_of_ne (Nat.ne_of_lt (hlt client hclient))]
  · simp only [List.map_cons, List.map_nil, Function.update_self]
    rfl

/-! ## Receiving -/

/-- What `dispatch_packet` works on while a chunk of `client` is received. -/
def clientWorld (client : ClientId) (now : Conditions) (s : Server) : World App where
  pools := s.pools
  app :=
    { client
      socket := (s.client client).socket
      state := (s.client client).state
      arenas := s.arenas
      net := s.net
      surroundings := now.surroundings
      asked := s.asked }

/-- The server after a call of `receiver_consume_data`. -/
def afterConsume (client : ClientId) (s : Server) (rs : ReceiverState) (w : World App) : Server :=
  { s with
    client := Function.update s.client client
      { s.client client with receiverState := rs, state := w.app.state }
    pools := w.pools
    arenas := w.app.arenas
    net := w.app.net
    asked := w.app.asked }

theorem receive_cases {client : ClientId} {data : List UInt8} {now : Conditions} {err : Err}
    (h : receive build config client data now s = (err, t)) :
    ∃ rs w, consume build config (s.client client).receiverState (clientWorld client now s) data =
        (err, rs, w) ∧ t = afterConsume client s rs w := by
  rcases hresult : consume build config (s.client client).receiverState (clientWorld client now s)
    data with ⟨err', rs, w⟩
  have hreceive : receive build config client data now s = (err', afterConsume client s rs w) := by
    have heq : receive build config client data now s =
        ((consume build config (s.client client).receiverState (clientWorld client now s) data).1,
          afterConsume client s (consume build config (s.client client).receiverState
            (clientWorld client now s) data).2.1 (consume build config
            (s.client client).receiverState (clientWorld client now s) data).2.2) := rfl
    rw [heq, hresult]
  rw [hreceive] at h
  cases h
  exact ⟨rs, w, rfl, rfl⟩

theorem ofClients_afterConsume {α : Type*} {field : Client → α} (client : ClientId) (s : Server)
    (rs : ReceiverState) (w : World App)
    (h : field { s.client client with receiverState := rs, state := w.app.state } =
      field (s.client client)) :
    ofClients field (afterConsume client s rs w) = ofClients field s := by
  refine ofClients_congr rfl fun c _ => ?_
  rw [afterConsume]
  by_cases hc : c = client
  · rw [hc]
    simpa only [Function.update_self] using h
  · simp only [Function.update_of_ne hc]

/-- A law of the world that is kept by what the receiver does to it. -/
theorem consume_law {I : Option BufId → World App → Prop}
    {F : Option BufId → Err → World App → Prop}
    (h : BufferLaw config (dispatcher build config false) I F) {rs : ReceiverState} {w : World App}
    (hrs : Resumable config rs) (hw : I rs.held w) (data : List UInt8) :
    CallOk config I F (consume build config rs w data) := by
  rw [consume, hrs.plain.compression]
  exact h.receiverConsumeData hrs hw data

/-- A law of the requests that a send keeps. -/
theorem sendLaw (build : Build) (config : ServerConfig) {J : Net → Prop} {client : ClientId}
    (h : ∀ varintTemp buffer size socket net err net',
      Net.Issue (.send client varintTemp buffer size) (.writev socket varintTemp buffer size) net
        err net' → J net → J net') :
    DispatchLaw (dispatcher build config false) (fun w => w.app.client = client ∧ J w.app.net)
      fun _ => True where
  pools := fun _ _ hw => hw
  dispatch := by
    intro bytes n w hw _
    have heffect := dispatcher_effect build config bytes n w
    refine ⟨trivial, heffect.client.trans hw.1, ?_⟩
    cases heffect.work with
    | kept _ hnet _ =>
        rw [hnet]
        exact hw.2
    | unwritten _ _ _ hnet _ =>
        rw [hnet]
        exact hw.2
    | issued _ varintTemp size _ hissue _ _ =>
        rw [hw.1] at hissue
        exact h _ _ _ _ _ _ _ hissue hw.2

/-- What sends keep, receiving keeps. -/
theorem receive_net {J : Net → Prop} {client : ClientId} {data : List UInt8} {now : Conditions}
    {err : Err} (hrs : Resumable config (s.client client).receiverState)
    (h : ∀ varintTemp buffer size socket net err net',
      Net.Issue (.send client varintTemp buffer size) (.writev socket varintTemp buffer size) net
        err net' → J net → J net')
    (hs : J s.net) (hreceive : receive build config client data now s = (err, t)) :
    Resumable config (t.client client).receiverState ∧ J t.net := by
  rcases receive_cases hreceive with ⟨rs, w, hresult, rfl⟩
  have hcall := consume_law (sendLaw build config h).bufferLaw
    (w := clientWorld client now s) hrs ⟨rfl, hs⟩ data
  rw [hresult] at hcall
  dsimp only [afterConsume]
  refine ⟨?_, ?_⟩
  · rw [Function.update_self]
    exact hcall.resumable
  · by_cases hok : err = .noError
    · exact (hcall.1 hok).2.2
    · exact (hcall.2 hok).2.2.2

/-- What the receiver makes of the bytes of a completion for `client`. -/
def consumed (build : Build) (config : ServerConfig) (client : ClientId) (cqe : Completion)
    (now : Conditions) (s : Server) : Err × ReceiverState × World App :=
  consume build config (s.client client).receiverState (clientWorld client now
    { s with net := { s.net with errno := now.errno, calloc := now.calloc } }) cqe.received

/-- The client that the completion of `request` disconnects. -/
def disconnectedBy (build : Build) (config : ServerConfig) (request : Request) (cqe : Completion)
    (now : Conditions) (s : Server) : Option ClientId :=
  match request with
  | .accept => none
  | .recv client =>
      if cqe.res ≤ 0 ∨ (consumed build config client cqe now s).1 = .protocol then some client
      else none
  | .send client _ _ _ => if cqe.res ≤ 0 then some client else none

def disconnects (build : Build) (config : ServerConfig) (s : Server) : Event → Option ClientId
  | .submit => none
  | .complete cqe now => disconnectedBy build config (s.net.requests cqe.userData) cqe now s

theorem receive_consumed {client : ClientId} {cqe : Completion} {now : Conditions} {err : Err}
    {sqe : Sqe} (h : receive build config client cqe.received now (take sqe now s) = (err, t)) :
    ∃ rs w, consumed build config client cqe now s = (err, rs, w) ∧
      t = afterConsume client (take sqe now s) rs w :=
  receive_cases h

theorem disconnectedBy_closed {client : ClientId} {cqe : Completion} {now : Conditions}
    (hres : cqe.res ≤ 0) :
    disconnectedBy build config (.recv client) cqe now s = some client :=
  if_pos (Or.inl hres)

theorem disconnectedBy_received {client : ClientId} {cqe : Completion} {now : Conditions}
    {err : Err} {sqe : Sqe} (hres : 0 < cqe.res)
    (h : receive build config client cqe.received now (take sqe now s) = (err, t)) :
    disconnectedBy build config (.recv client) cqe now s =
      if err = .protocol then some client else none := by
  rcases receive_consumed h with ⟨rs, w, hconsumed, -⟩
  rw [disconnectedBy, hconsumed]
  simp [not_le.mpr hres]

theorem disconnectedBy_unsent {client : ClientId} {varintTemp : List UInt8} {buffer : BufId}
    {size : ℤ} {cqe : Completion} {now : Conditions} (hres : cqe.res ≤ 0) :
    disconnectedBy build config (.send client varintTemp buffer size) cqe now s = some client :=
  if_pos hres

theorem disconnectedBy_sent {client : ClientId} {varintTemp : List UInt8} {buffer : BufId}
    {size : ℤ} {cqe : Completion} {now : Conditions} (hres : 0 < cqe.res) :
    disconnectedBy build config (.send client varintTemp buffer size) cqe now s = none :=
  if_neg (not_le.mpr hres)

/-! ## Handling a completion -/

/-- What the handler of a completion can do. -/
inductive Handled (build : Build) (config : ServerConfig) (s : Server) (cqe : Completion)
    (now : Conditions) : Request → Server → Prop where
  | refused (code : ℤ) : Handled build config s cqe now .accept { s with stopped := some code }
  | unarmed {err net} : 0 ≤ cqe.res →
      Net.Issue (.recv s.allocated)
        (.recv cqe.res (s.pools.bufferPoolGetTcpRecv config).1 config.recvBufferSize) s.net err
        net → err ≠ .noError →
      Handled build config s cqe now .accept
        { newClient config cqe.res s with net, stopped := some err.code }
  | connected {net₁ err net₂} : 0 ≤ cqe.res →
      Net.Issue (.recv s.allocated)
        (.recv cqe.res (s.pools.bufferPoolGetTcpRecv config).1 config.recvBufferSize) s.net
        .noError net₁ →
      Net.Issue .accept .accept net₁ err net₂ →
      Handled build config s cqe now .accept
        { newClient config cqe.res s with
          net := net₂, stopped := if err = .noError then s.stopped else some err.code }
  | closed {client} : cqe.res ≤ 0 →
      Handled build config s cqe now (.recv client) (disconnectClient client s)
  | rejected {client t} : 0 < cqe.res →
      receive build config client cqe.received now s = (.protocol, t) →
      Handled build config s cqe now (.recv client) (disconnectClient client t)
  | failed {client err t} : 0 < cqe.res →
      receive build config client cqe.received now s = (err, t) → err ≠ .protocol →
      err ≠ .noError → Handled build config s cqe now (.recv client)
        { t with stopped := some err.code }
  | received {client t err net} : 0 < cqe.res →
      receive build config client cqe.received now s = (.noError, t) →
      Net.Issue (.recv client)
        (.recv (t.client client).socket (t.client client).recvBuffer config.recvBufferSize) t.net
        err net →
      Handled build config s cqe now (.recv client) { t with net }
  | unsent {client varintTemp buffer size} : cqe.res ≤ 0 →
      Handled build config s cqe now (.send client varintTemp buffer size)
        (disconnectClient client s)
  | sent {client varintTemp buffer size} : 0 < cqe.res →
      Handled build config s cqe now (.send client varintTemp buffer size)
        { s with pools := s.pools.bufferPoolReturnProtocolSend buffer }

theorem handle_handled (build : Build) (config : ServerConfig) (request : Request)
    (cqe : Completion) (now : Conditions) (s : Server) :
    Handled build config s cqe now request (handle build config request cqe now s) := by
  cases request with
  | accept =>
      rw [handle, handleAccept]
      split
      · exact .refused _
      · rename_i hres
        split
        · exact .refused _
        · have hrecv := Net.addRecv_issue config s.allocated cqe.res
            (s.pools.bufferPoolGetTcpRecv config).1 s.net
          have hnet : addRecvFor config s.allocated (newClient config cqe.res s) =
              s.net.addRecv config s.allocated cqe.res (s.pools.bufferPoolGetTcpRecv config).1 := by
            simp [addRecvFor, newClient]
          dsimp only
          rw [hnet, rethrow]
          split
          · rename_i hok
            rw [hok] at hrecv
            rw [rethrowAddAccept, rethrow]
            have haccept := Net.addAccept_issue
              (s.net.addRecv config s.allocated cqe.res (s.pools.bufferPoolGetTcpRecv config).1).2
            have hconnected : Handled build config s cqe now .accept _ :=
              .connected (not_lt.mp hres) hrecv haccept
            split
            · rename_i hok'
              rwa [if_pos hok'] at hconnected
            · rename_i hfail
              rwa [if_neg hfail] at hconnected
          · rename_i hfail
            exact .unarmed (not_lt.mp hres) hrecv hfail
  | recv client =>
      rw [handle, handleRecv]
      split
      · rename_i hres
        exact .closed hres
      · rename_i hres
        rcases hreceive : receive build config client cqe.received now s with ⟨err, t⟩
        dsimp only
        split
        · rename_i hprotocol
          rw [hprotocol] at hreceive
          exact .rejected (not_le.mp hres) hreceive
        · rename_i hprotocol
          rw [rethrow]
          split
          · rename_i hok
            rw [hok] at hreceive
            exact .received (not_le.mp hres) hreceive (Net.addRecv_issue _ _ _ _ _)
          · rename_i hfail
            exact .failed (not_le.mp hres) hreceive hprotocol hfail
  | send client varintTemp buffer size =>
      rw [handle, handleSend]
      split
      · rename_i hres
        exact .unsent hres
      · rename_i hres
        exact .sent (not_le.mp hres)

/-- The requests that are made while another one is handled. -/
inductive MadeFor (config : ServerConfig) (s : Server) : Request → Op → Request → Prop where
  | accept : MadeFor config s .accept .accept .accept
  | first {socket buffer} : MadeFor config s .accept
      (.recv socket buffer config.recvBufferSize) (.recv s.allocated)
  | again {client socket buffer} : MadeFor config s (.recv client)
      (.recv socket buffer config.recvBufferSize) (.recv client)
  | send {client socket varintTemp buffer size} : MadeFor config s (.recv client)
      (.writev socket varintTemp buffer size) (.send client varintTemp buffer size)

/-- What the requests that it makes keep, a handler keeps. -/
theorem Handled.net_law {J : Net → Prop} {request : Request} {cqe : Completion} {now : Conditions}
    (hhandled : Handled build config s cqe now request t)
    (hrs : ∀ client, Resumable config (s.client client).receiverState)
    (h : ∀ content op net err net', MadeFor config s request op content →
      Net.Issue content op net err net' → J net → J net')
    (hs : J s.net) : J t.net := by
  have hreceive : ∀ {client err u}, request = .recv client →
      receive build config client cqe.received now s = (err, u) → J u.net := by
    rintro client err u rfl hresult
    exact (receive_net (hrs client) (fun _ _ _ _ _ _ _ hissue hJ => h _ _ _ _ _ .send hissue hJ) hs
      hresult).2
  cases hhandled with
  | refused => exact hs
  | unarmed _ hrecv _ => exact h _ _ _ _ _ .first hrecv hs
  | connected _ hrecv haccept => exact h _ _ _ _ _ .accept haccept (h _ _ _ _ _ .first hrecv hs)
  | closed => exact hs
  | rejected _ hresult =>
      have hu := hreceive rfl hresult
      exact hu
  | failed _ hresult _ _ =>
      have hu := hreceive rfl hresult
      exact hu
  | received _ hresult hrecv => exact h _ _ _ _ _ .again hrecv (hreceive rfl hresult)
  | unsent => exact hs
  | sent => exact hs

/-! ## Every run -/

def kernel (s : Server) : List RequestId := s.inFlight.map Sqe.userData

/-- What an sqe asks for and what its request says. Clients are below `bound`. -/
inductive Fits (config : ServerConfig) (bound : ℕ) : Op → Request → Prop where
  | accept : Fits config bound .accept .accept
  | recv {client socket buffer} : client < bound →
      Fits config bound (.recv socket buffer config.recvBufferSize) (.recv client)
  | send {client socket varintTemp buffer size} : client < bound →
      Fits config bound (.writev socket varintTemp buffer size)
        (.send client varintTemp buffer size)

theorem Fits.mono {bound bound' : ℕ} {op : Op} {content : Request}
    (h : Fits config bound op content) (hle : bound ≤ bound') : Fits config bound' op content := by
  cases h with
  | accept => exact .accept
  | recv hlt => exact .recv (Nat.lt_of_lt_of_le hlt hle)
  | send hlt => exact .send (Nat.lt_of_lt_of_le hlt hle)

theorem Fits.client_lt {bound : ℕ} {op : Op} {content : Request} (h : Fits config bound op content)
    (client : ClientId) (hclient : content.client = some client) : client < bound := by
  cases h with
  | accept => cases hclient
  | recv hlt | send hlt =>
      cases hclient
      exact hlt

/-- What holds in every state of the server. `busy` are the requests of the kernel and the one that
is handled. -/
structure Regular (config : ServerConfig) (busy : List RequestId) (s : Server) : Prop where
  sound : s.net.Sound busy
  flying : ∀ sqe ∈ s.inFlight, sqe.userData ∈ busy
  resumable : ∀ client, Resumable config (s.client client).receiverState
  fits : ∀ sqe ∈ s.inFlight ++ s.net.queue,
    Fits config s.allocated sqe.op (s.net.requests sqe.userData)
  clients_nodup : s.clients.Nodup
  clients_lt : ∀ client ∈ s.clients, client < s.allocated

theorem resumable_initial (config : ServerConfig) : Resumable config ReceiverState.initial :=
  Or.inl Idle.initial

section

variable {busy : List RequestId} {request : Request} {cqe : Completion} {now : Conditions}

theorem Handled.inFlight (h : Handled build config s cqe now request t) :
    t.inFlight = s.inFlight := by
  cases h with
  | rejected _ hresult | failed _ hresult _ _ | received _ hresult _ =>
      rcases receive_cases hresult with ⟨rs, w, -, rfl⟩
      rfl
  | _ => rfl

/-- The clients of a server after a handler, and their number. -/
theorem Handled.clients (h : Handled build config s cqe now request t) :
    (t.clients = s.clients ++ [s.allocated] ∧ t.allocated = s.allocated + 1) ∨
      t.clients.Sublist s.clients ∧ t.allocated = s.allocated := by
  cases h with
  | unarmed | connected => exact Or.inl ⟨rfl, rfl⟩
  | refused | sent => exact Or.inr ⟨List.Sublist.refl _, rfl⟩
  | closed | unsent => exact Or.inr ⟨List.erase_sublist, rfl⟩
  | rejected _ hresult =>
      rcases receive_cases hresult with ⟨rs, w, -, rfl⟩
      exact Or.inr ⟨List.erase_sublist, rfl⟩
  | failed _ hresult _ _ | received _ hresult _ =>
      rcases receive_cases hresult with ⟨rs, w, -, rfl⟩
      exact Or.inr ⟨List.Sublist.refl _, rfl⟩

theorem receive_resumable {client : ClientId} {data : List UInt8} {err : Err}
    (hrs : ∀ client, Resumable config (s.client client).receiverState)
    (h : receive build config client data now s = (err, t)) (c : ClientId) :
    Resumable config (t.client c).receiverState := by
  have hreceived := (receive_net (J := fun _ => True) (hrs client)
    (fun _ _ _ _ _ _ _ _ _ => trivial) trivial h).1
  rcases receive_cases h with ⟨rs, w, -, rfl⟩
  by_cases hc : c = client
  · rw [hc]
    exact hreceived
  · rw [afterConsume]
    dsimp only
    rw [Function.update_of_ne hc]
    exact hrs c

/-- The requests after a chunk was received. -/
theorem receive_sound {client : ClientId} {data : List UInt8} {err : Err}
    (h : Regular config busy s) (hreceive : receive build config client data now s = (err, t)) :
    t.net.Sound busy ∧ ∀ sqe ∈ t.inFlight, sqe.userData ∈ busy := by
  have hsound := (receive_net (h.resumable client)
    (fun _ _ _ _ _ _ _ hissue hs => hissue.sound hs) h.sound hreceive).2
  rcases receive_cases hreceive with ⟨rs, w, -, rfl⟩
  exact ⟨hsound, h.flying⟩

theorem resumable_disconnect {client : ClientId}
    (hrs : ∀ client, Resumable config (s.client client).receiverState) (c : ClientId) :
    Resumable config ((disconnectClient client s).client c).receiverState := by
  rw [disconnectClient]
  by_cases hc : c = client
  · rw [hc]
    simp only [Function.update_self]
    exact hrs client
  · simp only [Function.update_of_ne hc]
    exact hrs c

theorem resumable_newClient {socket : ℤ}
    (hrs : ∀ client, Resumable config (s.client client).receiverState) (c : ClientId) :
    Resumable config ((newClient config socket s).client c).receiverState := by
  rw [newClient]
  by_cases hc : c = s.allocated
  · rw [hc]
    simp only [Function.update_self]
    exact resumable_initial config
  · simp only [Function.update_of_ne hc]
    exact hrs c

theorem Handled.resumable (h : Handled build config s cqe now request t)
    (hrs : ∀ client, Resumable config (s.client client).receiverState) (c : ClientId) :
    Resumable config (t.client c).receiverState := by
  cases h with
  | refused | sent => exact hrs c
  | unarmed | connected => exact resumable_newClient hrs c
  | closed | unsent => exact resumable_disconnect hrs c
  | rejected _ hresult => exact resumable_disconnect (receive_resumable hrs hresult) c
  | failed _ hresult _ _ | received _ hresult _ => exact receive_resumable hrs hresult c

theorem Handled.fits_law {bound : ℕ} (hhandled : Handled build config s cqe now request t)
    (h : Regular config busy s) (hbound : s.allocated ≤ bound)
    (hmade : ∀ content op, MadeFor config s request op content → Fits config bound op content) :
    ∀ sqe ∈ t.inFlight ++ t.net.queue, Fits config bound sqe.op (t.net.requests sqe.userData) := by
  have hlaw := hhandled.net_law (J := fun net => net.Sound busy ∧
    ∀ sqe ∈ s.inFlight ++ net.queue, Fits config bound sqe.op (net.requests sqe.userData))
    h.resumable
  rw [hhandled.inFlight]
  refine (hlaw ?_ ⟨h.sound, ?_⟩).2
  · intro content op net err net' hcontent hissue hs
    exact ⟨hissue.sound hs.1, hissue.forall hs.1 h.flying (hmade content op hcontent) hs.2⟩
  · exact fun sqe hsqe => (h.fits sqe hsqe).mono hbound

theorem Handled.fits (hhandled : Handled build config s cqe now request t)
    (h : Regular config busy s)
    (hrequest : ∀ client, request.client = some client → client < s.allocated) :
    ∀ sqe ∈ t.inFlight ++ t.net.queue,
      Fits config t.allocated sqe.op (t.net.requests sqe.userData) := by
  rcases hhandled.clients with ⟨-, hallocated⟩ | ⟨-, hallocated⟩
  · rw [hallocated]
    refine hhandled.fits_law h (Nat.le_succ _) ?_
    intro content op hmade
    cases hmade with
    | accept => exact .accept
    | first => exact .recv (Nat.lt_succ_self _)
    | again => exact .recv (Nat.lt_succ_of_lt (hrequest _ rfl))
    | send => exact .send (Nat.lt_succ_of_lt (hrequest _ rfl))
  · cases request with
    | accept =>
        cases hhandled with
        | refused => exact h.fits
        | unarmed | connected => exact absurd hallocated (Nat.succ_ne_self _)
    | recv =>
        rw [hallocated]
        refine hhandled.fits_law h (Nat.le_refl _) ?_
        intro content op hmade
        cases hmade with
        | again => exact .recv (hrequest _ rfl)
        | send => exact .send (hrequest _ rfl)
    | send =>
        rw [hallocated]
        refine hhandled.fits_law h (Nat.le_refl _) ?_
        intro content op hmade
        cases hmade

theorem Handled.regular (hhandled : Handled build config s cqe now request t)
    (h : Regular config busy s)
    (hrequest : ∀ client, request.client = some client → client < s.allocated) :
    Regular config busy t where
  sound := hhandled.net_law h.resumable (fun _ _ _ _ _ _ hissue hs => hissue.sound hs) h.sound
  flying := by
    rw [hhandled.inFlight]
    exact h.flying
  resumable := hhandled.resumable h.resumable
  fits := hhandled.fits h hrequest
  clients_nodup := by
    rcases hhandled.clients with ⟨hclients, -⟩ | ⟨hsub, -⟩
    · rw [hclients]
      refine List.nodup_append.mpr ⟨h.clients_nodup, List.nodup_singleton _, ?_⟩
      intro c hc c' hc'
      rw [List.mem_singleton.mp hc']
      exact Nat.ne_of_lt (h.clients_lt c hc)
    · exact h.clients_nodup.sublist hsub
  clients_lt := by
    rcases hhandled.clients with ⟨hclients, hallocated⟩ | ⟨hsub, hallocated⟩
    · rw [hclients, hallocated]
      intro c hc
      rcases List.mem_append.mp hc with hc | hc
      · exact Nat.lt_succ_of_lt (h.clients_lt c hc)
      · rw [List.mem_singleton.mp hc]
        exact Nat.lt_succ_self _
    · rw [hallocated]
      exact fun c hc => h.clients_lt c (hsub.subset hc)

/-- A completion is taken: its request is the one that is handled. -/
theorem regular_take {sqe : Sqe} (h : Regular config s.kernel s) (hsqe : sqe ∈ s.inFlight)
    (now : Conditions) :
    Regular config (sqe.userData :: (s.inFlight.erase sqe).map Sqe.userData) (take sqe now s) := by
  have hperm : s.inFlight.Perm (sqe :: s.inFlight.erase sqe) := List.perm_cons_erase hsqe
  have hids : s.kernel.Perm (sqe.userData :: (s.inFlight.erase sqe).map Sqe.userData) :=
    hperm.map _
  have hsub : ∀ sqe' ∈ s.inFlight.erase sqe ++ s.net.queue, sqe' ∈ s.inFlight ++ s.net.queue := by
    intro sqe' hmem
    rcases List.mem_append.mp hmem with hmem | hmem
    · exact List.mem_append_left _ (List.mem_of_mem_erase hmem)
    · exact List.mem_append_right _ hmem
  refine ⟨⟨?_, ?_⟩, ?_, h.resumable, ?_, h.clients_nodup, h.clients_lt⟩
  · exact ((hids.append_right _).append_right _).nodup_iff.mp h.sound.nodup
  · intro id hid
    exact h.sound.lt id (((hids.append_right _).append_right _).mem_iff.mpr hid)
  · exact fun sqe' hmem => List.mem_cons_of_mem _ (List.mem_map_of_mem hmem)
  · exact fun sqe' hsqe' => h.fits sqe' (hsub sqe' hsqe')

/-- At the end of the loop body the request is in the pool again, or lost. -/
theorem regular_finish {id : RequestId}
    (h : Regular config (id :: s.kernel) s) : Regular config s.kernel (finish id s) := by
  have hflying : ∀ sqe ∈ s.inFlight, sqe.userData ∈ s.kernel :=
    fun sqe hsqe => List.mem_map_of_mem hsqe
  have hsub : (s.kernel ++ s.net.queue.map Sqe.userData ++ s.net.requestsPool).Sublist
      (id :: s.kernel ++ s.net.queue.map Sqe.userData ++ s.net.requestsPool) :=
    List.sublist_cons_self _ _
  rw [finish]
  split
  · have hperm : (id :: s.kernel ++ s.net.queue.map Sqe.userData ++ s.net.requestsPool).Perm
        (s.kernel ++ s.net.queue.map Sqe.userData ++ (id :: s.net.requestsPool)) :=
      List.perm_middle.symm
    exact ⟨⟨hperm.nodup_iff.mp h.sound.nodup, fun i hi => h.sound.lt i (hperm.mem_iff.mpr hi)⟩,
      hflying, h.resumable, h.fits, h.clients_nodup, h.clients_lt⟩
  · exact ⟨⟨h.sound.nodup.sublist hsub, fun i hi => h.sound.lt i (hsub.subset hi)⟩,
      hflying, h.resumable, h.fits, h.clients_nodup, h.clients_lt⟩

theorem regular_submit (h : Regular config s.kernel s) :
    Regular config s.submitAndWait.kernel s.submitAndWait := by
  have hids : s.kernel ++ s.net.queue.map Sqe.userData =
      s.submitAndWait.kernel ++ s.submitAndWait.net.queue.map Sqe.userData := by
    simp [kernel, submitAndWait]
  have hsqes : s.submitAndWait.inFlight ++ s.submitAndWait.net.queue =
      s.inFlight ++ s.net.queue := by
    simp [submitAndWait]
  refine ⟨⟨?_, ?_⟩, ?_, h.resumable, ?_, h.clients_nodup, h.clients_lt⟩
  · rw [← hids]
    exact h.sound.nodup
  · rw [← hids]
    exact h.sound.lt
  · exact fun sqe hsqe => List.mem_map_of_mem hsqe
  · rw [hsqes]
    exact h.fits

/-- The request of a completion, while it is handled. -/
theorem Regular.named {sqe : Sqe} (h : Regular config s.kernel s) (hsqe : sqe ∈ s.inFlight)
    (client : ClientId) (hclient : (s.net.requests sqe.userData).client = some client) :
    client < s.allocated :=
  (h.fits sqe (List.mem_append_left _ hsqe)).client_lt client hclient

theorem kernel_finish (id : RequestId) (s : Server) : (finish id s).kernel = s.kernel := by
  rw [finish]
  split <;> rfl

/-- The handling of a completion: the request leaves the kernel, its handler runs and it goes back
to the pool. -/
structure Completes (build : Build) (config : ServerConfig) (s : Server) (cqe : Completion)
    (now : Conditions) (sqe : Sqe) (u : Server) : Prop where
  mem : sqe ∈ s.inFlight
  user : sqe.userData = cqe.userData
  promised : Promised s sqe.op cqe
  fits : Fits config s.allocated sqe.op (s.net.requests sqe.userData)
  handled : Handled build config (take sqe now s) cqe now (s.net.requests sqe.userData) u
  before : Regular config (sqe.userData :: u.kernel) (take sqe now s)
  after : Regular config (sqe.userData :: u.kernel) u
  perm : (outstanding s.inFlight s.net).Perm
    (s.net.requests sqe.userData :: outstanding (s.inFlight.erase sqe) s.net)

theorem complete_cases {cqe : Completion} {now : Conditions} (h : Regular config s.kernel s)
    (hstep : step build config s (.complete cqe now) = some t) :
    ∃ sqe u, Completes build config s cqe now sqe u ∧ t = finish sqe.userData u := by
  cases (step_cases hstep).2 with
  | @complete sqe _ _ hsqe huser hpromised =>
      have hhandled := handle_handled build config (s.net.requests sqe.userData) cqe now
        (take sqe now s)
      refine ⟨sqe, _, ?_, rfl⟩
      have hbefore := regular_take h hsqe now
      have hafter := hhandled.regular hbefore (h.named hsqe)
      have hkernel : (s.inFlight.erase sqe).map Sqe.userData = kernel (handle build config
          (s.net.requests sqe.userData) cqe now (take sqe now s)) := by
        rw [kernel, hhandled.inFlight]
        rfl
      rw [hkernel] at hbefore hafter
      exact ⟨hsqe, huser, hpromised, h.fits sqe (List.mem_append_left _ hsqe), hhandled, hbefore,
        hafter, ((List.perm_cons_erase hsqe).append_right _).map _⟩

theorem step_regular {event : Event} (h : Regular config s.kernel s)
    (hstep : step build config s event = some t) : Regular config t.kernel t := by
  cases event with
  | submit =>
      cases (step_cases hstep).2
      exact regular_submit h
  | complete cqe now =>
      rcases complete_cases h hstep with ⟨sqe, u, hcompletes, rfl⟩
      rw [kernel_finish]
      have hfinish := regular_finish hcompletes.after
      exact hfinish

theorem regular_start (config : ServerConfig) (start₁ start₂ errno : ℕ) (calloc : Bool) :
    Regular config (start config start₁ start₂ errno calloc).kernel
      (start config start₁ start₂ errno calloc) := by
  have hissue := Net.addAccept_issue { Net.initial (some (ringEntries config)) with errno, calloc }
  have hsound := Net.sound_initial (some (ringEntries config)) errno calloc
  refine ⟨hissue.sound hsound, by simp [start], fun _ => resumable_initial config, ?_,
    List.nodup_nil, fun _ h => absurd h List.not_mem_nil⟩
  have hnone : ∀ sqe ∈ ([] : List Sqe), sqe.userData ∈ ([] : List RequestId) := by simp
  exact hissue.forall hsound hnone .accept fun _ h => absurd h List.not_mem_nil

end

/-- What the steps that satisfy `ok` keep of regular servers, a run of such steps keeps. -/
theorem run_law {P : Server → Prop} {ok : Transition Server Event → Prop}
    {start₁ start₂ errno : ℕ} {calloc : Bool} {trace : List (Transition Server Event)}
    (h : Run (step build config) (start config start₁ start₂ errno calloc) trace t)
    (hstart : P (start config start₁ start₂ errno calloc))
    (hstep : ∀ s event t, Regular config s.kernel s → P s → step build config s event = some t →
      ok ⟨s, event, t⟩ → P t)
    (hok : ∀ x ∈ trace, ok x) :
    ∀ x ∈ trace, step build config x.pre x.event = some x.post ∧
      (Regular config x.pre.kernel x.pre ∧ P x.pre) ∧ P x.post := by
  intro x hx
  have hboth := h.guarded_transitions (fun s => Regular config s.kernel s ∧ P s) ok
    ⟨regular_start .., hstart⟩ (fun s event t hs hst hokst =>
      ⟨step_regular hs.1 hst, hstep s event t hs.1 hs.2 hst hokst⟩) hok x hx
  exact ⟨hboth.1, hboth.2.1, hboth.2.2.2⟩

/-! ## Runs for examples -/

/-- Nothing fails and nobody else is at work. -/
def usual : Conditions where
  errno := 0
  calloc := true
  surroundings := fun _ => ⟨id, fun _ => 0, fun _ => 0, 0⟩

def ended (id : RequestId) (res : ℤ) : Event := .complete ⟨id, res, AF_INET, []⟩ usual

def chunk (id : RequestId) (bytes : List UInt8) : Event :=
  .complete ⟨id, bytes.length, AF_INET, bytes⟩ usual

/-- The frame of a handshake to status. -/
def handshake : List UInt8 := [7, 0, 0xF5, 0x05, 0, 0, 0, 1]

def ping : List UInt8 := [9, 1, 1, 2, 3, 4, 5, 6, 7, 8]

/-- A server for one connection, with two entries in its queue. -/
def smallConfig : ServerConfig := { defaultConfig with maxConnections := 1 }

def someBuild : Build := ⟨fun _ k => k, fun _ => 1⟩

/-- What a server with the given configuration does when `events` happen. -/
def played (config : ServerConfig) (events : List Event) : List (Transition Server Event) :=
  replay (step someBuild config) (start config 0x100000000 0x200000000 0 true) events

theorem run_played (config : ServerConfig) (events : List Event) :
    ∃ t, Run (step someBuild config) (start config 0x100000000 0x200000000 0 true)
      (played config events) t :=
  run_replay _ _ _

end Server

end CmcServer
