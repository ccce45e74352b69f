import CmcServer.Model.ProtoDef.Text
import Mathlib.Data.List.DropRight

/-! # The pretty-printer

`beautify` and the functions of `protodef.py` that hand a string to it. -/

namespace CmcServer.ProtoDef

/-! ## Beautify -/

/-- The local variables of `beautify`, the string as the list of its characters. -/
structure Printer where
  fs : List Char
  depth : ℤ

namespace Printer

/-- The indentation at a depth, none at a negative one. -/
def indentation (depth : ℤ) : List Char := List.replicate (4 * depth.toNat) ' '

/-- One round of the loop. `fs[:-4]` of a shorter string is the empty string. -/
def step (p : Printer) (c : Char) : Printer :=
  if c = '\x7b' then
    ⟨p.fs ++ [c] ++ ['\n'] ++ indentation (p.depth + 1), p.depth + 1⟩
  else if c = '\x7d' then
    ⟨p.fs.rdrop 4 ++ [c], p.depth - 1⟩
  else if c = ';' then
    ⟨p.fs ++ [c] ++ ['\n'] ++ indentation p.depth, p.depth⟩
  else if c = '\n' then
    ⟨p.fs ++ [c] ++ indentation p.depth, p.depth⟩
  else
    ⟨p.fs ++ [c], p.depth⟩

def run (p : Printer) (cs : List Char) : Printer := cs.foldl step p

end Printer

def beautify (s : String) : String := String.ofList (Printer.run ⟨[], 0⟩ s.toList).fs

/-! ## The generated functions -/

/-- The parameter of the function of a type, as the methods see it. -/
def sourceText : TypeTree → String
  | .switch _ _ _ _ | .container _ | .bitfield _ _ => "packet"
  | _ => "(*packet)"

/-- What `generate_definition` beautifies. -/
def definitionCode (name : String) (t : TypeTree) : Option String := do
  let code ← t.definitionText
  return "typedef " ++ code ++ s!" {name}_t;"

/-- What `generate_write` beautifies. -/
def writeCode (rnd : ℕ → ℕ) (name : String) (t : TypeTree) : Option String := do
  let (code, _) ← t.genText .write rnd [] (sourceText t) 0
  if t.isVariable then
    return s!"int protocol_write_{name}(uint8_t* data, int size, {name}_t* packet) " ++ "\x7b" ++
      ("int original_size = size;int write_size = 0;(void)write_size;" ++ code ++
        "return original_size - size;") ++
      "\x7d"
  else
    return s!"void protocol_write_{name}(uint8_t* data, {name}_t* packet) " ++ "\x7b" ++ code ++
      "\x7d"

/-- What `generate_read` beautifies. -/
def readCode (rnd : ℕ → ℕ) (name : String) (t : TypeTree) : Option String := do
  let source := if t.isVariable then sourceText t else "(&packet)"
  let (code, _) ← t.genText .read rnd [] source 0
  if t.isVariable then
    return s!"int protocol_read_{name}(tick_arena_t* arena, uint8_t* data, int size, " ++
      s!"{name}_t* packet) " ++ "\x7b" ++
      ("(void)arena;int original_size = size;int read_size = 0;(void)read_size;" ++ code ++
        "return original_size - size;") ++
      "\x7d"
  else
    return s!"{name}_t protocol_read_{name}(uint8_t* data) " ++ "\x7b" ++
      (s!"{name}_t packet;" ++ code ++ "return packet;") ++ "\x7d"

/-- The `dispatch_*` function that `generate_packet_parser` beautifies. -/
def dispatchCode (name : String) (t : TypeTree) : String :=
  s!"err_t dispatch_{name}(client_t* client, uint8_t* data, int size)" ++ "\x7b" ++
    ("err_t err = NO_ERROR;" ++
      (s!"{name}_t packet = " ++ "\x7b" ++ " 0 " ++ "\x7d" ++ ";") ++
      ("tick_arena_t* arena = get_tick_arena();" ++
        (if t.isVariable then
          s!"int read_size = protocol_read_{name}(arena, data, size, &packet);" ++
          "CHECK_ERROR(read_size == size, ERROR_PROTOCOL, " ++
          "\"Got a packet that is bigger than expected!\");"
        else s!"packet = protocol_read_{name}(data, size);") ++
        "\n" ++
        s!"CHECK_AND_RETHROW(process_{name}(arena, client, &packet));" ++
        "\n" ++
        "cleanup:\n" ++
        "return_tick_arena(arena);" ++
        "return err;")) ++
    "\x7d"

/-- The calls of a `send_*` function that write the packet and send it. -/
def sendCalls (name : String) (t : TypeTree) : String :=
  if t.isVariable then
    s!"int packet_len = protocol_write_{name}(buffer + pid_len, " ++
    "g_server_config.max_send_packet_size - pid_len, packet);" ++
    "CHECK_ERROR(packet_len >= 0, ERROR_PROTOCOL, \"Not enough space for packet!\");" ++
    "\n" ++
    "CHECK_AND_RETHROW(server_send_packet(client, buffer, pid_len + packet_len));"
  else
    s!"CHECK_ERROR(g_server_config.max_send_packet_size - pid_len >= {t.getSize}, " ++
    "ERROR_PROTOCOL, \"Not enough space for packet!\");" ++
    s!"protocol_write_{name}(buffer + pid_len, packet);" ++
    "\n" ++
    s!"CHECK_AND_RETHROW(server_send_packet(client, buffer, {t.getSize}));"

/-- The `send_*` function that `generate_packet_sender` beautifies. -/
def sendCode (name packetId : String) (t : TypeTree) : String :=
  s!"err_t send_{name}(client_t* client, {name}_t* packet)" ++ "\x7b" ++
    ("err_t err = NO_ERROR;" ++
      "uint8_t* buffer = buffer_pool_get_protocol_send();" ++
      "\n" ++
      (s!"int pid_len = protocol_write_varint(buffer, " ++
        s!"g_server_config.max_send_packet_size, {packetId});") ++
      "CHECK_ERROR(pid_len >= 0, ERROR_PROTOCOL, \"Not enough space for packet!\");" ++
      "\n" ++
      sendCalls name t ++
      "\n" ++
      "cleanup:\n" ++
      ("if (IS_ERROR(err)) " ++ "\x7b" ++ "buffer_pool_return_protocol_send(buffer);" ++
        "\x7d\n") ++
      "return err;") ++
    "\x7d"

/-- The cases of `dispatch_packet` for the packets of a phase, from their ids to their names. -/
def mapperCode (phase : String) : List (String × String) → String
  | [] => ""
  | (id, name) :: mapper =>
      (if name = "legacy_server_list_ping" then ""
        else s!"case {id}: " ++ "\x7b" ++
          s!"CHECK_AND_RETHROW(dispatch_{phase}_packet_{name}(client, data, size));" ++
          "\x7d break;") ++
      mapperCode phase mapper

/-- The case of a phase in `dispatch_packet`. -/
def phaseCode (phase state : String) (mapper : List (String × String)) : String :=
  s!"case PROTOCOL_{state}: " ++ "\x7b" ++
    ("switch (packet_id) " ++ "\x7b" ++
      (mapperCode phase mapper ++
        "default: CHECK_FAIL_ERROR(ERROR_PROTOCOL, \"Got unknown packet id: %d\", packet_id);") ++
      "\x7d\n") ++
    "\x7d break;"

/-- The function `dispatch_packet` that `generate_dispatcher` beautifies. -/
def dispatcherCode (handshaking status login : List (String × String)) : String :=
  "err_t dispatch_packet(client_t* client, uint8_t* data, int size) " ++ "\x7b" ++
    ("err_t err = NO_ERROR;" ++
      "\n" ++
      "int packet_id = 0;" ++
      "int read_size = protocol_read_varint(data, size, &packet_id);" ++
      "CHECK_ERROR(read_size >= 0, ERROR_PROTOCOL, \"Packet id was not a valid varint\");" ++
      "data += read_size;" ++
      "size -= read_size;" ++
      "\n" ++
      ("switch (client->state) " ++ "\x7b" ++
        (phaseCode "handshaking" "HANDSHAKING" handshaking ++
          phaseCode "status" "STATUS" status ++
          phaseCode "login" "LOGIN" login ++
          "default: CHECK_FAIL(\"Got to invalid state: %d\", client->state);") ++
        "\x7d\n") ++
      "cleanup:\n" ++
      "return err;") ++
    "\x7d"

/-- A string that is handed to `beautify`, by what it is generated from. -/
inductive Emitted where
  | definition (name : String) (t : TypeTree)
  | read (rnd : ℕ → ℕ) (name : String) (t : TypeTree)
  | write (rnd : ℕ → ℕ) (name : String) (t : TypeTree)
  | dispatch (name : String) (t : TypeTree)
  | send (name packetId : String) (t : TypeTree)
  | dispatchPacket (handshaking status login : List (String × String))

/-- The string itself, if no exception is raised before. -/
def Emitted.code : Emitted → Option String
  | .definition name t => definitionCode name t
  | .read rnd name t => readCode rnd name t
  | .write rnd name t => writeCode rnd name t
  | .dispatch name t => some (dispatchCode name t)
  | .send name packetId t => some (sendCode name packetId t)
  | .dispatchPacket handshaking status login => some (dispatcherCode handshaking status login)

end CmcServer.ProtoDef
