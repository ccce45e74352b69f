import CmcServer.Model.BufferPool
import CmcServer.Model.Varint

/-! # Requests to the ring

The requests of `server.c`, the pool they are reused from and the submission queue that they are
put into. -/

namespace CmcServer

/-- The vectors that `server_send_packet` fills: the length of the packet as a varint, and the
packet itself. -/
def sendVecs (buffer : List UInt8) (size : ℤ) : Option (List (List UInt8)) :=
  (protocolWriteVarint size).map fun varintTemp => [varintTemp, buffer]

abbrev ClientId := ℕ

abbrev RequestId := ℕ

/-- `request_type_t`. -/
inductive RequestType where
  | accept
  | recv
  | send
  deriving DecidableEq, Repr

/-- `request_t`. The vectors of a send are its varint and its buffer. -/
inductive Request where
  | accept
  | recv (client : ClientId)
  | send (client : ClientId) (varintTemp : List UInt8) (buffer : BufId) (size : ℤ)
  deriving DecidableEq, Repr

def Request.type : Request → RequestType
  | .accept => .accept
  | .recv _ => .recv
  | .send _ _ _ _ => .send

/-- The client that a request names. -/
def Request.client : Request → Option ClientId
  | .accept => none
  | .recv client => some client
  | .send client _ _ _ => some client

/-- What an sqe asks the kernel for. -/
inductive Op where
  | accept
  | recv (socket : ℤ) (buffer : BufId) (size : ℕ)
  | writev (socket : ℤ) (varintTemp : List UInt8) (buffer : BufId) (size : ℤ)
  deriving DecidableEq, Repr

structure Sqe where
  op : Op
  userData : RequestId
  deriving DecidableEq, Repr

/-- A request that was not queued: there was no memory for it, or no sqe. -/
inductive Refusal where
  | noRequest (type : RequestType)
  | noSqe (type : RequestType) (errno : ℕ)
  deriving DecidableEq, Repr

/-- The requests made so far, those that are free, and the submission queue. `entries` is the
size of the queue, if it has one. `errno` and `calloc`, whether `calloc` finds memory, are up to
the system. The code does not keep `refused`. -/
structure Net where
  requests : RequestId → Request
  made : ℕ
  requestsPool : List RequestId
  queue : List Sqe
  entries : Option ℕ
  errno : ℕ
  calloc : Bool
  refused : List Refusal

namespace Net

/-- No request was made yet. -/
def initial (entries : Option ℕ) : Net where
  requests := fun _ => .accept
  made := 0
  requestsPool := []
  queue := []
  entries
  errno := 0
  calloc := true
  refused := []

def ENOMEM : ℕ := 12

/-- `get_request`. The type of a request from `calloc` is `REQUEST_ACCEPT`. -/
def getRequest (net : Net) : Option RequestId × Net :=
  match net.requestsPool with
  | [] =>
      if net.calloc then
        (some net.made,
          { net with
            requests := Function.update net.requests net.made .accept
            made := net.made + 1 })
      else (none, { net with errno := ENOMEM })
  | request :: rest => (some request, { net with requestsPool := rest })

/-- Whether `io_uring_get_sqe` returns `NULL`. It leaves `errno` alone. -/
def isFull (net : Net) : Bool :=
  match net.entries with
  | none => false
  | some n => n ≤ net.queue.length

def fill (net : Net) (request : RequestId) (content : Request) : Net :=
  { net with requests := Function.update net.requests request content }

def refuse (net : Net) (refusal : Refusal) : Net :=
  { net with refused := net.refused ++ [refusal] }

/-- The part that the requests share: `io_uring_get_sqe`, its check and the preparation. A
request that gets no sqe is dropped. -/
def submit (net : Net) (request : RequestId) (op : Op) : Err × Net :=
  if net.isFull then
    (.ofErrno net.errno, net.refuse (.noSqe (net.requests request).type net.errno))
  else (.noError, { net with queue := net.queue ++ [⟨op, request⟩] })

def addAccept (net : Net) : Err × Net :=
  match net.getRequest with
  | (none, net) => (.ofErrno net.errno, net.refuse (.noRequest .accept))
  | (some request, net) => (net.fill request .accept).submit request .accept

def addRecv (config : ServerConfig) (client : ClientId) (socket : ℤ) (recvBuffer : BufId)
    (net : Net) : Err × Net :=
  match net.getRequest with
  | (none, net) => (.ofErrno net.errno, net.refuse (.noRequest .recv))
  | (some request, net) =>
      (net.fill request (.recv client)).submit request
        (.recv socket recvBuffer config.recvBufferSize)

/-- `server_send_packet`, for a client with the given flag for compression. `none` is a run that
does not end. -/
def serverSendPacket (compression : Bool) (client : ClientId) (socket : ℤ) (buffer : BufId)
    (size : ℤ) (net : Net) : Option (Err × Net) :=
  match net.getRequest with
  | (none, net) => some (.ofErrno net.errno, net.refuse (.noRequest .send))
  | (some request, net) =>
      if compression then some (.checkFailed, net.fill request (.send client [] buffer size))
      else
        (protocolWriteVarint size).map fun varintTemp =>
          let net := net.fill request (.send client varintTemp buffer size)
          if ¬ 0 < varintTemp.length then (.checkFailed, net)
          else net.submit request (.writev socket varintTemp buffer size)

/-- A request goes back to the pool. -/
def returnRequest (request : RequestId) (net : Net) : Net :=
  { net with requestsPool := request :: net.requestsPool }

end Net

end CmcServer
