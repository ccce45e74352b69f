import CmcServer.Model.Config
import CmcServer.Model.ProtoDef.Semantics

/-! # Generated senders

What a `send` function does between taking a buffer of the pool and queueing it. -/

namespace CmcServer

open Bytes ProtoDef

/-- The result of a `send` function before it queues its packet: the error, or the length of the
packet in the buffer. `touched` bounds the offsets that were written. -/
structure Serialized where
  err : Err
  length : ℤ
  buffer : ℕ → UInt8
  touched : ℕ

/-- The check of `packet_len`. -/
def checkPacketLen (pidLen : ℕ) (result : ℤ × Core) : Serialized where
  err := if result.1 < 0 then .protocol else .noError
  length := toInt32 ((pidLen : ℤ) + result.1)
  buffer := result.2.buffer
  touched := result.2.touched

/-- The packet id and the packet are written into `buffer`. The size of what is left is a
`size_t` that is passed as an `int`, and writers do not use the arena. -/
def serializePacket (sizeof : Ty → ℕ) (rnd : String → ℕ → ℕ) (config : ServerConfig)
    (packetId : ℤ) (name : String) (t : Ty) (packet : Loc) (mem : Loc → ℤ)
    (buffer : ℕ → UInt8) : Option Serialized :=
  match protocolWriteVarint packetId with
  | none => none
  | some pid =>
      (callFunction sizeof (generateWrite rnd name t) packet
        { buffer := store buffer 0 pid
          data := pid.length
          size := toInt32 (sizeSub config.maxSendPacketSize pid.length)
          arena := TickArena.initArena 0
          mem
          touched := pid.length
          counts := [] }).map (checkPacketLen pid.length)

end CmcServer
