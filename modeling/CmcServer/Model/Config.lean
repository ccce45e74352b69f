import Mathlib.Data.Int.Basic

/-! # Error codes and the server configuration -/

namespace CmcServer

/-- `err_t`, with the negated `errno` values that `CHECK_ERRNO` stores in it. -/
inductive Err where
  | noError
  | checkFailed
  | protocol
  | errno (e : ℕ)
  deriving DecidableEq, Repr

/-- `err = -errno`, which is `NO_ERROR` when `errno` is zero. -/
def Err.ofErrno : ℕ → Err
  | 0 => .noError
  | e + 1 => .errno (e + 1)

/-- `server_config_t`. -/
structure ServerConfig where
  port : ℕ
  maxConnections : ℕ
  maxServerListPending : ℕ
  recvBufferSize : ℕ
  maxRecvPacketSize : ℕ
  maxSendPacketSize : ℕ
  deriving DecidableEq, Repr

/-- `m_default_config`. -/
def defaultConfig : ServerConfig where
  port := 25565
  maxConnections := 4096
  maxServerListPending := 512
  recvBufferSize := 4096
  maxRecvPacketSize := 65536
  maxSendPacketSize := 65536

end CmcServer
