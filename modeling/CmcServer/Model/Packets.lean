import CmcServer.Model.ProtoDef.Types

/-! # Packets

The packets of the handshaking, status and login phases in `protocol.json`, under the names that
`PROTOCOL_RENAMING` gives them. -/

namespace CmcServer

open ProtoDef

/-- A table of the packets of one phase and side, by their ids. -/
abbrev PacketTable := List (ℤ × String × Ty)

namespace Packets

/-! ## Types they are made of -/

def varint : Ty := .native .varint

/-- A `pstring` of `char`s. -/
def string : Ty := Ty.typedef "string" (.array varint (.native .i8))

/-- A `buffer` that is counted by a varint. -/
def buffer : Ty := .array varint (.native .u8)

def restBuffer : Ty := .rest (.native .u8)

/-- A container, from the list of its fields. -/
def container (fields : List (String × Ty)) : Ty :=
  .container (fields.foldr (fun field rest => .cons field.1 field.2 rest) .nil)

/-! ## To the server -/

def handshakingSetProtocol : Ty :=
  container [("protocol_version", varint), ("server_host", string),
    ("server_port", .native .u16), ("next_state", varint)]

def statusPingStart : Ty := container []

def statusPing : Ty := container [("time", .native .i64)]

def loginStart : Ty := container [("username", string)]

def loginEncryptionResponse : Ty :=
  container [("shared_secret", buffer), ("verify_token", buffer)]

def loginPluginResponse : Ty :=
  container [("message_id", varint), ("data", .option restBuffer)]

/-- The packets that `dispatch_packet` knows. The legacy ping is skipped. -/
def handshakingToServer : PacketTable :=
  [(0x00, "handshaking_packet_set_protocol", handshakingSetProtocol)]

def statusToServer : PacketTable :=
  [(0x00, "status_packet_ping_start", statusPingStart), (0x01, "status_packet_ping", statusPing)]

def loginToServer : PacketTable :=
  [(0x00, "login_packet_login_start", loginStart),
    (0x01, "login_packet_encryption_response", loginEncryptionResponse),
    (0x02, "login_packet_login_plugin_response", loginPluginResponse)]

/-! ## To the client -/

def statusServerInfo : Ty := container [("response", string)]

def statusPong : Ty := container [("time", .native .i64)]

def loginDisconnect : Ty := container [("reason", string)]

def loginEncryptionRequest : Ty :=
  container [("server_id", string), ("public_key", buffer), ("verify_token", buffer)]

def loginSuccess : Ty := container [("uuid", .native .uuid), ("username", string)]

def loginCompress : Ty := container [("threshold", varint)]

def loginPluginRequest : Ty :=
  container [("message_id", varint), ("channel", string), ("data", restBuffer)]

/-- The packets that a `send` function is generated for. The handshaking phase has none. -/
def toClient : PacketTable :=
  [(0x00, "status_packet_server_info", statusServerInfo), (0x01, "status_packet_pong", statusPong),
    (0x00, "login_packet_disconnect", loginDisconnect),
    (0x01, "login_packet_encryption_request", loginEncryptionRequest),
    (0x02, "login_packet_success", loginSuccess),
    (0x03, "login_packet_compress", loginCompress),
    (0x04, "login_packet_login_plugin_request", loginPluginRequest)]

end Packets

namespace ProtoDef

/-- The type `tags`, an array of names with their entries. -/
def tags : Ty :=
  .array (.native .varint) (Packets.container [("tag_name", Packets.string),
    ("entries", .array (.native .varint) (.native .varint))])

end ProtoDef

end CmcServer
