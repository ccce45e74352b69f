import CmcServer.Model.Dispatch

/-! # The event loop

`server_start` hands the queue to the kernel and handles the completions it gets back. One step is
a submission or the handling of one completion; the kernel chooses which requests complete, in
which order and with which result. -/

namespace CmcServer

def AF_INET : ℕ := 2

/-- The value of an `err_t`. -/
def Err.code : Err → ℤ
  | .noError => 0
  | .checkFailed => 1
  | .protocol => 2
  | .errno e => -e

/-- `client_t`. The address is only logged. -/
structure Client where
  socket : ℤ
  receiverState : ReceiverState
  state : ℤ
  recvBuffer : BufId
  deriving DecidableEq

/-- The server. `clients` are the clients that are not freed; the records of the others are kept,
as if memory were not used again. `allocated` counts the clients and `inFlight` are the requests
of the kernel. The code does not keep the clients that were `disconnected`, the descriptors that
accept returned and that are open, and `asked`. -/
structure Server where
  clients : List ClientId
  client : ClientId → Client
  allocated : ℕ
  disconnected : List ClientId
  descriptors : List ℤ
  pools : BufferPools
  arenas : TickArenas
  net : Net
  inFlight : List Sqe
  asked : List SendCall
  stopped : Option ℤ

/-- `struct io_uring_cqe`, the address family that an accept stores in its request, and the bytes
that the handler of a recv reads from the recv buffer of its client. These are any bytes here, and
those in the memory of `Machine` there. -/
structure Completion where
  userData : RequestId
  res : ℤ
  family : ℕ
  received : List UInt8

/-- What the system decides while one completion is handled. -/
structure Conditions where
  errno : ℕ
  calloc : Bool
  surroundings : ℕ → Surroundings

namespace Server

variable (build : Build) (config : ServerConfig)

/-- The number of entries that `io_uring_queue_init` makes of the number it is asked for. -/
def ringEntries : ℕ := Nat.nextPowerOfTwo (config.maxConnections + 1)

/-- `server_start` in front of its loop, after `init_server` and `init_tick_arenas`. -/
def start (start₁ start₂ errno : ℕ) (calloc : Bool) : Server where
  clients := []
  client := fun _ => ⟨0, ReceiverState.initial, PROTOCOL_HANDSHAKING, 0⟩
  allocated := 0
  disconnected := []
  descriptors := []
  pools := BufferPools.initial
  arenas := TickArenas.initTickArenas start₁ start₂
  net := { Net.initial (some (ringEntries config)) with errno, calloc }.addAccept.2
  inFlight := []
  asked := []
  stopped := none

/-- `io_uring_submit_and_wait`. -/
def submitAndWait (s : Server) : Server :=
  { s with inFlight := s.inFlight ++ s.net.queue, net := { s.net with queue := [] } }

/-! ## Clients -/

def disconnectClient (client : ClientId) (s : Server) : Server :=
  { s with
    clients := s.clients.erase client
    client := Function.update s.client client { s.client client with socket := -1 }
    disconnected := s.disconnected ++ [client]
    pools := s.pools.bufferPoolReturnTcpRecv (s.client client).recvBuffer }

/-- `CHECK_AND_RETHROW`, in front of `next`. -/
def rethrow (err : Err) (next : Server → Server) (s : Server) : Server :=
  if err = .noError then next s else { s with stopped := some err.code }

/-- `add_accept`, with its result rethrown. -/
def rethrowAddAccept (s : Server) : Server :=
  rethrow s.net.addAccept.1 id { s with net := s.net.addAccept.2 }

/-- The result of `add_recv`, for a client. -/
def addRecvFor (client : ClientId) (s : Server) : Err × Net :=
  s.net.addRecv config client (s.client client).socket (s.client client).recvBuffer

/-- The client that an accept makes. A `calloc` that finds no memory for it crashes the server. -/
def newClient (socket : ℤ) (s : Server) : Server :=
  { s with
    clients := s.clients ++ [s.allocated]
    client := Function.update s.client s.allocated
      { socket
        receiverState := ReceiverState.initial
        state := PROTOCOL_HANDSHAKING
        recvBuffer := (s.pools.bufferPoolGetTcpRecv config).1 }
    allocated := s.allocated + 1
    descriptors := s.descriptors ++ [socket]
    pools := (s.pools.bufferPoolGetTcpRecv config).2 }

/-! ## Completions -/

/-- The case `REQUEST_ACCEPT`. -/
def handleAccept (cqe : Completion) (s : Server) : Server :=
  if cqe.res < 0 then { s with stopped := some (-cqe.res) }
  else if cqe.family ≠ AF_INET then { s with stopped := some Err.checkFailed.code }
  else
    let client := s.allocated
    let s := newClient config cqe.res s
    rethrow (addRecvFor config client s).1 rethrowAddAccept
      { s with net := (addRecvFor config client s).2 }

/-- `receiver_consume_data` on what a client sent: its result and the server it leaves. -/
def receive (client : ClientId) (data : List UInt8) (now : Conditions) (s : Server) :
    Err × Server :=
  let w : World App :=
    { pools := s.pools
      app :=
        { client
          socket := (s.client client).socket
          state := (s.client client).state
          arenas := s.arenas
          net := s.net
          surroundings := now.surroundings
          asked := s.asked } }
  let (err, receiverState, w) := consume build config (s.client client).receiverState w data
  (err,
    { s with
      client := Function.update s.client client
        { s.client client with receiverState, state := w.app.state }
      pools := w.pools
      arenas := w.app.arenas
      net := w.app.net
      asked := w.app.asked })

/-- The case `REQUEST_RECV`. The result of `add_recv` is dropped. -/
def handleRecv (client : ClientId) (cqe : Completion) (now : Conditions) (s : Server) : Server :=
  if cqe.res ≤ 0 then disconnectClient client s
  else
    let (err, s) := receive build config client cqe.received now s
    if err = .protocol then disconnectClient client s
    else rethrow err (fun s => { s with net := (addRecvFor config client s).2 }) s

/-- The case `REQUEST_SEND`. -/
def handleSend (client : ClientId) (buffer : BufId) (cqe : Completion) (s : Server) : Server :=
  if cqe.res ≤ 0 then disconnectClient client s
  else { s with pools := s.pools.bufferPoolReturnProtocolSend buffer }

/-- The `switch` on the type of the request. -/
def handle (request : Request) (cqe : Completion) (now : Conditions) (s : Server) : Server :=
  match request with
  | .accept => handleAccept config cqe s
  | .recv client => handleRecv build config client cqe now s
  | .send client _ buffer _ => handleSend client buffer cqe s

/-- A completion is taken from the kernel. -/
def take (sqe : Sqe) (now : Conditions) (s : Server) : Server :=
  { s with
    inFlight := s.inFlight.erase sqe
    net := { s.net with errno := now.errno, calloc := now.calloc } }

/-- The end of the loop body: the request goes back to the pool, unless the loop was left. -/
def finish (request : RequestId) (s : Server) : Server :=
  if s.stopped = none then { s with net := s.net.returnRequest request } else s

/-! ## Steps -/

/-- What the kernel promises about the completion of a request. The descriptor of a new connection
is not open yet, a recv fills at most its buffer, and a writev writes at most its vectors. -/
def Promised (s : Server) (op : Op) (cqe : Completion) : Prop :=
  match op with
  | .accept => 0 ≤ cqe.res → cqe.family = AF_INET ∧ cqe.res ∉ s.descriptors
  | .recv _ _ size => 0 < cqe.res → cqe.received.length = cqe.res ∧ cqe.res ≤ size
  | .writev _ varintTemp _ size => cqe.res ≤ varintTemp.length + size

instance (s : Server) (op : Op) (cqe : Completion) : Decidable (Promised s op cqe) := by
  unfold Promised
  split <;> infer_instance

/-- The kernel gets what was queued, or a request of the kernel completes. -/
inductive Event where
  | submit
  | complete (cqe : Completion) (now : Conditions)

def step (s : Server) : Event → Option Server
  | .submit => if s.stopped = none then some s.submitAndWait else none
  | .complete cqe now =>
      match s.inFlight.find? fun sqe => sqe.userData = cqe.userData with
      | none => none
      | some sqe =>
          if s.stopped = none ∧ Promised s sqe.op cqe then
            some (finish cqe.userData
              (handle build config (s.net.requests cqe.userData) cqe now (take sqe now s)))
          else none

end Server

/-! ## Recv buffers -/

/-- The server and the bytes of its recv buffers, which go back to no pool but their own. The code
does not keep `arrived`, what the kernel has written for the recvs that it has not reported. -/
structure Machine where
  server : Server
  recvMemory : BufId → ℕ → UInt8
  arrived : RequestId → List UInt8

namespace Machine

/-- The kernel writes the bytes of a recv when it has them, and reports the recv later. -/
inductive Event where
  | submit
  | arrive (request : RequestId) (bytes : List UInt8)
  | complete (request : RequestId) (res : ℤ) (family : ℕ) (now : Conditions)

variable (build : Build) (config : ServerConfig)

def start (start₁ start₂ errno : ℕ) (calloc : Bool) : Machine where
  server := Server.start config start₁ start₂ errno calloc
  recvMemory := fun _ _ => 0
  arrived := fun _ => []

/-- The kernel writes to the buffer that the sqe of a recv names, once. -/
def arrive (request : RequestId) (bytes : List UInt8) (m : Machine) : Option Machine :=
  match m.server.inFlight.find? fun sqe => sqe.userData = request with
  | some ⟨.recv _ buffer size, _⟩ =>
      if bytes.length ≤ size ∧ m.arrived request = [] then
        some
          { m with
            recvMemory := Function.update m.recvMemory buffer fun i =>
              bytes.getD i (m.recvMemory buffer i)
            arrived := Function.update m.arrived request bytes }
      else none
  | _ => none

/-- What the handler of a completion reads: the recv buffer of its client, as it is then. -/
def received (request : RequestId) (res : ℤ) (m : Machine) : List UInt8 :=
  match m.server.net.requests request with
  | .recv client =>
      (List.range res.toNat).map (m.recvMemory (m.server.client client).recvBuffer)
  | _ => []

/-- The result of a recv is the number of bytes that were written for it. -/
def Reported (request : RequestId) (res : ℤ) (m : Machine) : Prop :=
  match m.server.net.requests request with
  | .recv _ => (m.arrived request).length = res.toNat
  | _ => True

instance (request : RequestId) (res : ℤ) (m : Machine) : Decidable (Reported request res m) := by
  unfold Reported
  split <;> infer_instance

/-- What the server sees of an event. -/
def seen (m : Machine) : Event → Option Server.Event
  | .submit => some .submit
  | .arrive _ _ => none
  | .complete request res family now =>
      some (.complete ⟨request, res, family, m.received request res⟩ now)

def step (m : Machine) : Event → Option Machine
  | .submit => (m.server.step build config .submit).map fun server => { m with server }
  | .arrive request bytes => m.arrive request bytes
  | .complete request res family now =>
      if Reported request res m then
        (m.server.step build config
          (.complete ⟨request, res, family, m.received request res⟩ now)).map fun server =>
            { m with server, arrived := Function.update m.arrived request [] }
      else none

end Machine

end CmcServer
