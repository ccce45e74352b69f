import CmcServer.Model.Config
import Mathlib.Logic.Function.Basic

/-! # Buffer pools

Three stacks of reusable mappings. A buffer is a mapping's number, `mmap` hands out the next
one and is taken to succeed. `madvise` is left out. -/

namespace CmcServer

abbrev BufId := ℕ

inductive PoolKind where
  | protocolRecv
  | tcpRecv
  | protocolSend
  deriving DecidableEq, Repr

/-- The free buffers of each pool, the number of mappings made, and their sizes and bytes. The
code does not keep `origin`, the pool that a buffer was mapped for. -/
structure BufferPools where
  free : PoolKind → List BufId
  mapped : ℕ
  capacity : BufId → ℕ
  origin : BufId → PoolKind
  memory : BufId → ℕ → UInt8

namespace BufferPools

/-- No buffer is mapped yet. -/
def initial : BufferPools where
  free := fun _ => []
  mapped := 0
  capacity := fun _ => 0
  origin := fun _ => .protocolRecv
  memory := fun _ _ => 0

/-- Pop a free buffer of the pool, or map a new one of the given size. -/
def get (p : BufferPools) (kind : PoolKind) (size : ℕ) : BufId × BufferPools :=
  match p.free kind with
  | [] =>
      (p.mapped,
        { p with
          mapped := p.mapped + 1
          capacity := Function.update p.capacity p.mapped size
          origin := Function.update p.origin p.mapped kind })
  | b :: rest => (b, { p with free := Function.update p.free kind rest })

/-- Push a buffer on the pool. -/
def giveBack (p : BufferPools) (kind : PoolKind) (b : BufId) : BufferPools :=
  { p with free := Function.update p.free kind (b :: p.free kind) }

variable (config : ServerConfig)

def bufferPoolGetProtocolRecv (p : BufferPools) : BufId × BufferPools :=
  p.get .protocolRecv config.maxRecvPacketSize

def bufferPoolReturnProtocolRecv (p : BufferPools) (b : BufId) : BufferPools :=
  p.giveBack .protocolRecv b

def bufferPoolGetTcpRecv (p : BufferPools) : BufId × BufferPools :=
  p.get .tcpRecv config.recvBufferSize

def bufferPoolReturnTcpRecv (p : BufferPools) (b : BufId) : BufferPools :=
  p.giveBack .tcpRecv b

def bufferPoolGetProtocolSend (p : BufferPools) : BufId × BufferPools :=
  p.get .protocolSend config.maxSendPacketSize

def bufferPoolReturnProtocolSend (p : BufferPools) (b : BufId) : BufferPools :=
  p.giveBack .protocolSend b

/-- `memcpy` of `bytes` to `offset` in a buffer. -/
def memcpy (p : BufferPools) (b : BufId) (offset : ℕ) (bytes : List UInt8) : BufferPools :=
  { p with memory := Function.update p.memory b fun i =>
      if offset ≤ i ∧ i < offset + bytes.length then bytes.getD (i - offset) 0
      else p.memory b i }

/-- The first `n` bytes of a buffer. -/
def contents (p : BufferPools) (b : BufId) (n : ℕ) : List UInt8 :=
  (List.range n).map (p.memory b)

end BufferPools

end CmcServer
