import CmcServer.Model.Server
import Mathlib.Data.PNat.Notation

/-! # Server initialisation

`init_server` with the calls that may fail. An `err_t` is given here by its value, since `errno`
may hold any `int` when the server starts. -/

namespace CmcServer

def EBADF : ℤ := 9

def SOL_SOCKET : ℤ := 1
def SO_REUSEADDR : ℤ := 2
def INADDR_ANY : ℕ := 0

/-- `htons`. -/
def htons (x : ℕ) : ℕ := x % 256 * 256 + x / 256 % 256

/-- `struct sockaddr_in`. -/
structure SockaddrIn where
  sinFamily : ℕ
  sinPort : ℕ
  sinAddr : ℕ
  deriving DecidableEq, Repr

/-- What the system returns for each call. A failed call of the C library stores its number in
`errno`, a failed `io_uring_queue_init` returns it with a minus and stores nothing. -/
structure StartupCalls where
  socket : Except ℕ+ ℕ
  setsockopt : (fd : ℤ) → (level optname enable : ℤ) → Except ℕ+ Unit
  bind : (fd : ℤ) → SockaddrIn → Except ℕ+ Unit
  listen : (fd : ℤ) → (backlog : ℕ) → Except ℕ+ Unit
  ioUringQueueInit : (entries : ℕ) → Except ℕ+ Unit

/-- The globals that `init_server` changes, `errno`, and the descriptors that are open. -/
structure ServerProcess where
  mServerSocket : ℤ
  gServerConfig : ServerConfig
  errno : ℤ
  descriptors : List ℕ
  deriving DecidableEq, Repr

namespace ServerProcess

/-- The globals when the program starts. -/
def initial (errno : ℤ) (descriptors : List ℕ) : ServerProcess where
  mServerSocket := -1
  gServerConfig := ⟨0, 0, 0, 0, 0, 0⟩
  errno := errno
  descriptors := descriptors

/-- `close`. -/
def close (p : ServerProcess) (fd : ℤ) : ServerProcess :=
  if 0 ≤ fd ∧ fd.toNat ∈ p.descriptors then
    { p with descriptors := p.descriptors.filter fun d => d ≠ fd.toNat }
  else { p with errno := EBADF }

/-- `SAFE_CLOSE(m_server_socket)`. -/
def safeClose (p : ServerProcess) : ServerProcess :=
  if p.mServerSocket < 0 then { p.close p.mServerSocket with mServerSocket := -1 } else p

/-- `CHECK_ERRNO` of a check that failed. -/
def checkErrno (p : ServerProcess) : ℤ × ServerProcess := (-p.errno, p)

/-- `CHECK_ERRNO(0 == call)` for a call that sets `errno` when it fails. -/
def checkCall (p : ServerProcess) (result : Except ℕ+ Unit)
    (rest : ServerProcess → ℤ × ServerProcess) : ℤ × ServerProcess :=
  match result with
  | .error e => { p with errno := (e : ℕ) }.checkErrno
  | .ok _ => rest p

end ServerProcess

/-- `init_server` up to `cleanup`. -/
def initServerSteps (config : ServerConfig) (calls : StartupCalls) (p : ServerProcess) :
    ℤ × ServerProcess :=
  match calls.socket with
  | .error e => { p with mServerSocket := -1, errno := (e : ℕ) }.checkErrno
  | .ok fd =>
      let p := { p with mServerSocket := fd, descriptors := fd :: p.descriptors }
      p.checkCall (calls.setsockopt p.mServerSocket SOL_SOCKET SO_REUSEADDR 1) fun p =>
        let serverAddress : SockaddrIn :=
          { sinFamily := AF_INET, sinPort := htons config.port, sinAddr := htons INADDR_ANY }
        p.checkCall (calls.bind p.mServerSocket serverAddress) fun p =>
          p.checkCall (calls.listen p.mServerSocket config.maxServerListPending) fun p =>
            match calls.ioUringQueueInit (config.maxConnections + 1) with
            | .error _ => p.checkErrno
            | .ok _ => (Err.noError.code, { p with gServerConfig := config })

/-- The config that `init_server` uses. -/
def chosenConfig (config : Option ServerConfig) : ServerConfig := config.getD defaultConfig

/-- `init_server`. -/
def initServer (config : Option ServerConfig) (calls : StartupCalls) (p : ServerProcess) :
    ℤ × ServerProcess :=
  let (err, p) := initServerSteps (chosenConfig config) calls p
  (err, if err ≠ Err.noError.code then p.safeClose else p)

/-- The check in front of `server_start`. -/
def serverStartCheck (p : ServerProcess) : Err :=
  if p.mServerSocket ≠ -1 then .noError else .checkFailed

end CmcServer
