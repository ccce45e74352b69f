import CmcServer.Model.Packets
import CmcServer.Model.Receiver
import CmcServer.Model.Request
import CmcServer.Model.Sender

/-! # Dispatching packets

The generated `dispatch` and `send` functions with the handlers of the protocol. A result of
`none` stands for a run that does not end, or that is ended by a read of memory that is not
mapped. -/

namespace CmcServer

open Bytes ProtoDef

/-! ## The state of a client -/

def PROTOCOL_HANDSHAKING : ℤ := 0
def PROTOCOL_STATUS : ℤ := 1
def PROTOCOL_LOGIN : ℤ := 2

/-- What the generator drew and the sizes that the C compiler gave the types. -/
structure Build where
  rnd : String → ℕ → ℕ
  sizeof : Ty → ℕ

/-- What a packet finds that neither the client nor the packets before it decide: the work of
other threads on the tick arenas, old contents of an arena, and the bytes behind the packet with
the number of those that are mapped. -/
structure Surroundings where
  arenas : TickArenas → TickArenas
  stale : Loc → ℤ
  beyond : ℕ → UInt8
  mapped : ℕ

/-- A call of `server_send_packet`: its client, and the first `size` bytes of its buffer. -/
structure SendCall where
  client : ClientId
  packet : List UInt8
  deriving DecidableEq, Repr

/-- What `dispatch_packet` works on, for one client: the client's `state` and `socket`, the tick
arenas, the requests, and the surroundings of the packets to come. The code does not keep
`asked`, the calls of `server_send_packet` so far. -/
structure App where
  client : ClientId
  socket : ℤ
  state : ℤ
  arenas : TickArenas
  net : Net
  surroundings : ℕ → Surroundings
  asked : List SendCall

section

variable (build : Build) (config : ServerConfig)

/-! ## Sending -/

/-- The `send` function that is generated for a packet. -/
def sendPacket (compression : Bool) (packetId : ℤ) (name : String) (t : Ty) (packet : Loc → ℤ)
    (w : World App) : Option (Err × World App) :=
  let (buffer, pools) := w.pools.bufferPoolGetProtocolSend config
  match serializePacket build.sizeof build.rnd config packetId name t [] packet
      (pools.memory buffer) with
  | none => none
  | some packed =>
      let pools := { pools with memory := Function.update pools.memory buffer packed.buffer }
      let call : SendCall := ⟨w.app.client, (List.range packed.length.toNat).map packed.buffer⟩
      let sent :=
        if packed.err ≠ .noError then some (packed.err, w.app.net)
        else
          w.app.net.serverSendPacket compression w.app.client w.app.socket buffer packed.length
      sent.map fun (err, net) =>
        (err,
          { pools := if err ≠ .noError then pools.bufferPoolReturnProtocolSend buffer else pools
            app := { w.app with
              net
              asked := w.app.asked ++ if packed.err ≠ .noError then [] else [call] } })

/-- `send_status_packet_pong`. -/
def sendStatusPacketPong (compression : Bool) (time : ℤ) :
    World App → Option (Err × World App) :=
  sendPacket build config compression 0x01 "status_packet_pong" Packets.statusPong fun l =>
    if l = [.field "time"] then time else 0

/-- A string in memory, with its NUL. -/
def stringAt (chars : List Char) (l : Loc) (place : Loc) : ℤ :=
  match place with
  | .index j :: place =>
      if place = .field "elements" :: l then ((chars.map Char.toNat)[j.toNat]?.getD 0 : ℕ) else 0
  | _ => if place = .field "length" :: l then chars.length + 1 else 0

/-- `send_status_packet_server_info`. -/
def sendStatusPacketServerInfo (compression : Bool) (response : List Char) :
    World App → Option (Err × World App) :=
  sendPacket build config compression 0x00 "status_packet_server_info" Packets.statusServerInfo
    (stringAt response [.field "response"])

/-! ## Handlers -/

def PROTOCOL_VERSION : ℤ := 757

def processHandshakingPacketSetProtocol (packet : Loc → ℤ) (w : World App) : Err × World App :=
  let advance := { w with app := { w.app with state := packet [.field "next_state"] } }
  if packet [.field "next_state"] = PROTOCOL_STATUS then (.noError, advance)
  else if packet [.field "next_state"] = PROTOCOL_LOGIN then
    if packet [.field "protocol_version"] ≠ PROTOCOL_VERSION then (.protocol, w)
    else (.noError, advance)
  else (.protocol, w)

def processStatusPacketPing (compression : Bool) (packet : Loc → ℤ) :
    World App → Option (Err × World App) :=
  sendStatusPacketPong build config compression (packet [.field "time"])

def mServerInfo : List Char :=
  "\x7b\"version\":\x7b\"name\":\"1.18.1\",\"protocol\":757\x7d,".toList ++
    "\"description\": \x7b\"text\":\"Hello World!\"\x7d\x7d".toList

def processStatusPacketPingStart (compression : Bool) (_packet : Loc → ℤ) :
    World App → Option (Err × World App) :=
  sendStatusPacketServerInfo build config compression mServerInfo

def processLoginPacketLoginStart (_packet : Loc → ℤ) (w : World App) : Err × World App :=
  (.noError, w)

def processLoginPacketEncryptionResponse (_packet : Loc → ℤ) (w : World App) : Err × World App :=
  (.protocol, w)

def processLoginPacketLoginPluginResponse (_packet : Loc → ℤ) (w : World App) :
    Err × World App :=
  (.protocol, w)

/-! ## Dispatching -/

/-- The `packet` of a `dispatch` function is zero, the elements of its arrays are in an arena. -/
def packetMemory (stale : Loc → ℤ) (l : Loc) : ℤ := if l.any Sel.isIndex then stale l else 0

/-- The `dispatch` function that is generated for a packet, with its handler. -/
def dispatchTyped (name : String) (t : Ty)
    (process : (Loc → ℤ) → World App → Option (Err × World App)) (data : List UInt8) (size : ℤ)
    (w : World App) : Option (Err × World App) :=
  let now := w.app.surroundings 0
  let (arena, arenas) := (now.arenas w.app.arenas).getTickArena
  let start : Core :=
    { buffer := ofList data now.beyond
      data := 0
      size
      arena := arenas.arena arena
      mem := packetMemory now.stale
      touched := 0
      counts := [] }
  match (callFunction build.sizeof (generateRead build.rnd name t) [] start).filter
      (fun result => result.2.touched ≤ size + now.mapped) with
  | none => none
  | some (readSize, s) =>
      let w := { w with app := { w.app with
        arenas := arenas.modify arena fun _ => s.arena
        surroundings := fun n => w.app.surroundings (n + 1) } }
      let result := if readSize ≠ size then some (.protocol, w) else process s.mem w
      result.map fun (err, w) =>
        (err, { w with app := { w.app with arenas := w.app.arenas.returnTickArena arena } })

def dispatchHandshakingPacketSetProtocol :
    List UInt8 → ℤ → World App → Option (Err × World App) :=
  dispatchTyped build "handshaking_packet_set_protocol" Packets.handshakingSetProtocol
    fun packet w => some (processHandshakingPacketSetProtocol packet w)

def dispatchStatusPacketPingStart (compression : Bool) :
    List UInt8 → ℤ → World App → Option (Err × World App) :=
  dispatchTyped build "status_packet_ping_start" Packets.statusPingStart
    (processStatusPacketPingStart build config compression)

def dispatchStatusPacketPing (compression : Bool) :
    List UInt8 → ℤ → World App → Option (Err × World App) :=
  dispatchTyped build "status_packet_ping" Packets.statusPing
    (processStatusPacketPing build config compression)

def dispatchLoginPacketLoginStart : List UInt8 → ℤ → World App → Option (Err × World App) :=
  dispatchTyped build "login_packet_login_start" Packets.loginStart
    fun packet w => some (processLoginPacketLoginStart packet w)

def dispatchLoginPacketEncryptionResponse :
    List UInt8 → ℤ → World App → Option (Err × World App) :=
  dispatchTyped build "login_packet_encryption_response" Packets.loginEncryptionResponse
    fun packet w => some (processLoginPacketEncryptionResponse packet w)

def dispatchLoginPacketLoginPluginResponse :
    List UInt8 → ℤ → World App → Option (Err × World App) :=
  dispatchTyped build "login_packet_login_plugin_response" Packets.loginPluginResponse
    fun packet w => some (processLoginPacketLoginPluginResponse packet w)

/-- `dispatch_packet`, for a client with the given flag for compression. -/
def dispatchPacket (compression : Bool) (data : List UInt8) (size : ℤ) (w : World App) :
    Option (Err × World App) :=
  let read := protocolReadVarint (ofList data (w.app.surroundings 0).beyond) size 0
  let packetId := read.value
  let rest := data.drop read.ret.toNat
  let left := toInt32 (size - read.ret)
  if ¬ read.ret ≥ 0 then some (.protocol, w)
  else if w.app.state = PROTOCOL_HANDSHAKING then
    if packetId = 0x00 then dispatchHandshakingPacketSetProtocol build rest left w
    else some (.protocol, w)
  else if w.app.state = PROTOCOL_STATUS then
    if packetId = 0x00 then dispatchStatusPacketPingStart build config compression rest left w
    else if packetId = 0x01 then dispatchStatusPacketPing build config compression rest left w
    else some (.protocol, w)
  else if w.app.state = PROTOCOL_LOGIN then
    if packetId = 0x00 then dispatchLoginPacketLoginStart build rest left w
    else if packetId = 0x01 then dispatchLoginPacketEncryptionResponse build rest left w
    else if packetId = 0x02 then dispatchLoginPacketLoginPluginResponse build rest left w
    else some (.protocol, w)
  else some (.checkFailed, w)

/-- `dispatch_packet` as the receiver calls it. A run that does not end or that is ended counts as a
failed check. -/
def dispatcher (compression : Bool) : Dispatch App := fun data size w =>
  (dispatchPacket build config compression data size w).getD (.checkFailed, w)

/-- `receiver_consume_data` of a client. -/
def consume (rs : ReceiverState) (w : World App) (data : List UInt8) :
    Err × ReceiverState × World App :=
  receiverConsumeData config (dispatcher build config rs.compression) rs w data

end

end CmcServer
