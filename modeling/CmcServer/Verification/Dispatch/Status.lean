import CmcServer.Verification.Dispatch.Calls
import CmcServer.Verification.Dispatch.Results
import CmcServer.Verification.ProtoDef.RoundTrip

/-! # Status requests

What a client in the status phase is answered, as a function of its packet, and that
`dispatch_packet` answers so. -/

namespace CmcServer

open Bytes ProtoDef

/-! ## Answers -/

/-- The server info behind its packet id: the length of the string, which counts the NUL, and the
string. -/
def serverInfoPacket : List UInt8 :=
  0x00 :: UInt8.ofNat (mServerInfo.length + 1) ::
    (mServerInfo.map fun c => UInt8.ofNat c.toNat) ++ [0]

/-- The packet that answers a packet. The id is a varint of at most five bytes, an empty packet
with the id 0 asks for the server info, and eight bytes with the id 1 are sent back. -/
def statusReply (payload : List UInt8) : Option (List UInt8) :=
  match Base128.split 5 payload with
  | none => none
  | some (id, body) =>
      if toInt32 (Base128.value id) = 0 ∧ body = [] then some serverInfoPacket
      else if toInt32 (Base128.value id) = 1 ∧ body.length = 8 then some (0x01 :: body)
      else none

/-- The server info fits the largest packet, of which the length is an `int32_t`. -/
structure SendsStatus (config : ServerConfig) : Prop where
  le : serverInfoPacket.length ≤ config.maxSendPacketSize
  lt : config.maxSendPacketSize < 2 ^ 31

/-! ## Sending -/

section

variable (build : Build) {config : ServerConfig} {w : World App}

/-- A sender with enough room has a packet of its id and the encoding. -/
theorem serializePacket_encode {packetId : ℕ} (hid : packetId < 128) {name : String} {t : Ty}
    (hacc : t.Accepted false []) (hvar : t.isVariable = true)
    (hfresh : t.Fresh build.rnd name [] 0) {m : Loc → ℤ} (hvalue : t.IsValue m ⟨[], []⟩)
    {bytes : List UInt8} (hbytes : t.encode (fun _ => []) m ⟨[], []⟩ = bytes)
    (hfit : 1 + bytes.length ≤ config.maxSendPacketSize)
    (hmax : config.maxSendPacketSize < 2 ^ 31) (buffer : ℕ → UInt8) :
    ∃ packed, serializePacket build.sizeof build.rnd config packetId name t [] m buffer =
        some packed ∧ packed.err = .noError ∧ packed.length = (1 + bytes.length : ℕ) ∧
      At packed.buffer 0 (UInt8.ofNat packetId :: bytes) := by
  have hpid : protocolWriteVarint packetId = some [UInt8.ofNat packetId] := by
    rw [protocolWriteVarint_nat (by omega), Base128.encode_of_lt hid]
  have hsync := sync_sender (m := m) hmax buffer [UInt8.ofNat packetId]
    (by rw [List.length_singleton]; omega)
  rcases call_encodes hmax build.sizeof build.rnd (fun _ => []) name t hacc hvar hfresh [] hvalue
    hsync rfl (by rw [hbytes]; simpa using hfit) with ⟨s, hcall, hbuffer, -⟩
  rw [hbytes] at hcall hbuffer
  refine ⟨checkPacketLen 1 (bytes.length, s), ?_, ?_, ?_, ?_⟩
  · rw [serializePacket, hpid]
    simp only [List.length_singleton] at hcall ⊢
    rw [hcall, Option.map_some]
  · have hnonneg : ¬ (bytes.length : ℤ) < 0 := by omega
    simp [checkPacketLen, hnonneg]
  · rw [checkPacketLen, toInt32_of_range (by omega) (by omega)]
    push_cast
    rfl
  · have hstored := store_append buffer 0 [UInt8.ofNat packetId] bytes
    rw [Nat.zero_add] at hstored
    rw [checkPacketLen, hbuffer]
    dsimp only
    rw [hstored]
    exact at_store _ _ _

structure Sent (w : World App) (packet : List UInt8) (w' : World App) : Prop where
  client : w'.app.client = w.app.client
  state : w'.app.state = w.app.state
  asked : w'.app.asked = w.app.asked ++ [⟨w.app.client, packet⟩]
  ample : w'.app.net.Ample

theorem sendPacket_encode {packetId : ℕ} (hid : packetId < 128) {name : String} {t : Ty}
    (hacc : t.Accepted false []) (hvar : t.isVariable = true)
    (hfresh : t.Fresh build.rnd name [] 0) {m : Loc → ℤ} (hvalue : t.IsValue m ⟨[], []⟩)
    {bytes : List UInt8} (hbytes : t.encode (fun _ => []) m ⟨[], []⟩ = bytes)
    (hfit : 1 + bytes.length ≤ config.maxSendPacketSize)
    (hmax : config.maxSendPacketSize < 2 ^ 31) (hw : w.app.net.Ample) :
    ∃ w', sendPacket build config false packetId name t m w = some (.noError, w') ∧
      Sent w (UInt8.ofNat packetId :: bytes) w' := by
  rcases hget : w.pools.bufferPoolGetProtocolSend config with ⟨buffer, pools⟩
  rcases serializePacket_encode build hid hacc hvar hfresh hvalue hbytes hfit hmax
    (pools.memory buffer) with ⟨packed, hpacked, herr, hlength, hat⟩
  rcases hw.serverSendPacket w.app.client w.app.socket buffer packed.length
    (by omega) (by omega) with ⟨net', hsend, hnet'⟩
  have hpacket : (List.range packed.length.toNat).map packed.buffer =
      UInt8.ofNat packetId :: bytes := by
    have hload := load_eq_of_at hat
    simp only [load, Nat.zero_add, List.length_cons] at hload
    rw [hlength, Int.toNat_natCast, Nat.add_comm, hload]
  rw [sendPacket, hget]
  simp only [hpacked, herr, hsend]
  refine ⟨_, rfl, rfl, rfl, ?_, hnet'⟩
  simp [hpacket]

/-! ## The two answers -/

theorem emod_twosComplement (w n : ℕ) (h : n < 256 ^ w) :
    (twosComplement w n % 256 ^ w).toNat = n := by
  have hmod : twosComplement w n % (256 ^ w : ℕ) = n := by
    rw [twosComplement, Int.bmod_emod, Int.emod_eq_of_lt (by omega) (by exact_mod_cast h)]
  have hcast : ((256 ^ w : ℕ) : ℤ) = 256 ^ w := by push_cast; rfl
  rw [← hcast, hmod, Int.toNat_natCast]

theorem sendStatusPacketPong_encode (hconfig : SendsStatus config) (hw : w.app.net.Ample)
    {body : List UInt8} (hbody : body.length = 8) :
    ∃ w', sendStatusPacketPong build config false (twosComplement 8 (ofBe body)) w =
        some (.noError, w') ∧ Sent w (0x01 :: body) w' := by
  have hlt := ofBe_lt body
  rw [hbody] at hlt
  have hle := hconfig.le
  have hinfo : 9 ≤ serverInfoPacket.length := by decide
  refine sendPacket_encode build (t := Packets.statusPong) (by decide) ?_
    (Ty.isVariable_container _) ?_ ?_ ?_ (by rw [hbody]; omega) hconfig.lt hw
  · simp [Packets.statusPong, Packets.container, Ty.Accepted, Fields.Accepted, IsMember,
      Fields.names]
  · simp [Packets.statusPong, Packets.container, Ty.Fresh, Fields.Fresh]
  · have hlo : -(256 ^ 8 : ℤ) ≤ 2 * twosComplement 8 (ofBe body) := by
      have := Int.le_bmod (x := ofBe body) (m := 256 ^ 8) (by decide)
      rw [twosComplement]
      omega
    have hhi : 2 * twosComplement 8 (ofBe body) < (256 ^ 8 : ℤ) := by
      have := Int.bmod_lt (x := ofBe body) (m := 256 ^ 8) (by decide)
      rw [twosComplement]
      omega
    simpa [Packets.statusPong, Packets.container, Ty.IsValue, Fields.IsValue, Native.InRange,
      Spot.sub, Loc.sub, Spot.loc, Native.size] using ⟨hlo, hhi⟩
  · have hbytes : be 8 (ofBe body) = body := by
      have hbe := be_ofBe body
      rwa [hbody] at hbe
    have hencode : Native.i64.encode (twosComplement 8 (ofBe body)) = body := by
      have hnumber : (twosComplement 8 (ofBe body) % 256 ^ 8).toNat = ofBe body :=
        emod_twosComplement 8 (ofBe body) hlt
      calc Native.i64.encode (twosComplement 8 (ofBe body))
          = be 8 (twosComplement 8 (ofBe body) % 256 ^ 8).toNat := rfl
        _ = body := by rw [hnumber, hbytes]
    simpa [Packets.statusPong, Packets.container, Ty.encode, Fields.encode, Native.bytes,
      Spot.sub, Loc.sub, Spot.loc] using hencode

theorem stringAt_length (chars : List Char) (l : Loc) :
    stringAt chars l (.field "length" :: l) = chars.length + 1 := by
  simp [stringAt]

theorem stringAt_element (chars : List Char) (l : Loc) (j : ℕ) :
    stringAt chars l (.index j :: .field "elements" :: l) =
      ((chars.map Char.toNat)[j]?.getD 0 : ℕ) := by
  simp [stringAt]

theorem encode_i8 (n : ℕ) : Native.i8.encode n = [UInt8.ofNat n] := by
  have hbyte : UInt8.ofNat ((n : ℤ) % 256).toNat = UInt8.ofNat n := by
    rw [← UInt8.toNat_inj, UInt8.toNat_ofNat', UInt8.toNat_ofNat']
    omega
  simp [Native.encode, Native.size, be, hbyte]

theorem encode_serverInfo (nbt : Loc → List UInt8) {response : List Char}
    (hlength : response.length < 127) :
    Packets.statusServerInfo.encode nbt (stringAt response [.field "response"]) ⟨[], []⟩ =
      UInt8.ofNat (response.length + 1) ::
        (response.map fun c => UInt8.ofNat c.toNat) ++ [0] := by
  have hcount := stringAt_length response [.field "response"]
  have hnat : ((response.length : ℤ) + 1).toNat = response.length + 1 := by omega
  have helements : (List.range (response.length + 1)).flatMap (fun j : ℕ =>
      Native.i8.encode (stringAt response [.field "response"]
        [.index j, .field "elements", .field "response"])) =
      (response.map fun c => UInt8.ofNat c.toNat) ++ [0] := by
    simp only [stringAt_element, encode_i8]
    rw [← List.map_eq_flatMap]
    apply List.ext_getElem
    · simp
    · intro i hi _
      by_cases hlt : i < response.length
      · simp [List.getElem_append_left, hlt]
      · have heq : i = response.length := by
          simp only [List.length_map, List.length_range] at hi
          omega
        simp [heq]
  simp [Packets.statusServerInfo, Packets.container, Packets.string, Packets.varint, Ty.encode,
    Fields.encode, Native.bytes, Spot.sub, Loc.sub, Spot.loc, Spot.elem, countAt, hcount, hnat,
    helements, Base128.encode_of_lt (show response.length + 1 < 128 by omega)]

theorem sendStatusPacketServerInfo_encode (hconfig : SendsStatus config) (hw : w.app.net.Ample) :
    ∃ w', sendStatusPacketServerInfo build config false mServerInfo w = some (.noError, w') ∧
      Sent w serverInfoPacket w' := by
  have hlength : mServerInfo.length < 127 := by decide
  have hascii : ∀ c ∈ mServerInfo, c.toNat < 128 := by
    have hall : mServerInfo.all (fun c => c.toNat < 128) = true := by decide
    simpa using hall
  have hle := hconfig.le
  have hbytes := encode_serverInfo (fun _ => []) hlength
  refine sendPacket_encode build (t := Packets.statusServerInfo) (by decide) ?_
    (Ty.isVariable_container _) ?_ ?_ hbytes ?_ hconfig.lt hw
  · simp [Packets.statusServerInfo, Packets.container, Packets.string, Packets.varint,
      Ty.Accepted, Fields.Accepted, IsMember, Fields.names]
  · simp [Packets.statusServerInfo, Packets.container, Packets.string, Packets.varint,
      Ty.Fresh, Fields.Fresh]
  · have hcount := stringAt_length mServerInfo [.field "response"]
    have helement : ∀ j : ℕ, Native.InRange .i8 (stringAt mServerInfo [.field "response"]
        [.index j, .field "elements", .field "response"]) := by
      intro j
      rw [stringAt_element]
      have hlt : (mServerInfo.map Char.toNat)[j]?.getD 0 < 128 := by
        cases hget : (mServerInfo.map Char.toNat)[j]? with
        | none => decide
        | some n =>
            rcases List.mem_map.mp (List.mem_of_getElem? hget) with ⟨c, hc, rfl⟩
            exact hascii c hc
      change -(256 ^ 1 : ℤ) ≤ 2 * _ ∧ 2 * _ < (256 ^ 1 : ℤ)
      omega
    have hvarint : Native.InRange .varint (mServerInfo.length + 1) := ⟨by omega, by omega⟩
    have hrange : CountInRange false (mServerInfo.length + 1) := ⟨by omega, by simp; omega⟩
    simp [Packets.statusServerInfo, Packets.container, Packets.string, Packets.varint,
      Ty.IsValue, Fields.IsValue, Spot.sub, Loc.sub, Spot.loc, Spot.elem, hcount, helement,
      Ty.isWide, hvarint, hrange]
  · exact hle

/-! ## Packets without room -/

/-- The room behind the packet id in a buffer that is too small. -/
theorem room_lt {n : ℕ} (h : config.maxSendPacketSize < n) (hn : n < 2 ^ 31) :
    -1 ≤ toInt32 (sizeSub config.maxSendPacketSize 1) ∧
      toInt32 (sizeSub config.maxSendPacketSize 1) < n - 1 := by
  by_cases hzero : config.maxSendPacketSize = 0
  · have hwrap : toInt32 (sizeSub 0 1 : ℕ) = -1 := by decide
    rw [hzero, hwrap]
    omega
  · rw [sizeSub_of_le (by omega) (by omega), toInt32_of_range (by omega) (by omega)]
    omega

/-- A sender whose writer fails leaves the requests alone. -/
theorem sendPacket_refused {packetId : ℕ} (hid : packetId < 128) {name : String} {t : Ty}
    {m : Loc → ℤ}
    (h : ∀ s : Core, s.mem = m → s.size = toInt32 (sizeSub config.maxSendPacketSize 1) →
      ∃ s', callFunction build.sizeof (generateWrite build.rnd name t) [] s = some (-1, s')) :
    ∃ w', sendPacket build config false packetId name t m w = some (.protocol, w') ∧
      w'.app = w.app := by
  have hpid : protocolWriteVarint packetId = some [UInt8.ofNat packetId] := by
    rw [protocolWriteVarint_nat (by omega), Base128.encode_of_lt hid]
  have hpacked : ∀ buffer, ∃ packed, serializePacket build.sizeof build.rnd config packetId name t
      [] m buffer = some packed ∧ packed.err = .protocol := by
    intro buffer
    let start : Core :=
      { buffer := store buffer 0 [UInt8.ofNat packetId]
        data := 1
        size := toInt32 (sizeSub config.maxSendPacketSize 1)
        arena := TickArena.initArena 0
        mem := m
        touched := 1
        counts := [] }
    have hmem : start.mem = m := rfl
    have hsize : start.size = toInt32 (sizeSub config.maxSendPacketSize 1) := by
      dsimp only [start]
    rcases h start hmem hsize with ⟨s', hcall⟩
    rw [serializePacket, hpid]
    simp only [List.length_singleton]
    rw [hcall]
    exact ⟨_, rfl, rfl⟩
  rcases hget : w.pools.bufferPoolGetProtocolSend config with ⟨buffer, pools⟩
  rcases hpacked (pools.memory buffer) with ⟨packed, hserialize, herr⟩
  rw [sendPacket, hget]
  simp [hserialize, herr]

theorem sendStatusPacketPong_refused (h : config.maxSendPacketSize < 9) (time : ℤ) :
    ∃ w', sendStatusPacketPong build config false time w = some (.protocol, w') ∧
      w'.app = w.app := by
  refine sendPacket_refused build (by decide) ?_
  intro s _ hsize
  have hlt := room_lt h (by decide)
  have hcode : generateWrite build.rnd "status_packet_pong" Packets.statusPong =
      .seq (.checkSize 8) (.seq (.fixed .write .i64 ⟨.packet, [.arrow "time"]⟩) (.subSize 8)) := rfl
  rw [callFunction, hcode]
  have hshort : s.size < 8 := by omega
  exact ⟨s, by simp [exec, hshort, finish]⟩

/-- A string of which the characters do not fit. -/
theorem exec_string_refused (rest : Cmd) (env : Env) {s : Core} {n : ℕ} (hn : n < 128)
    (hlength : s.mem (.field "length" :: env.packet) = n) (hshort : s.size < n + 1)
    (hlo : -1 ≤ s.size) :
    ∃ s', exec build.sizeof (.seq .skip (.seq (.variable .write .varint ⟨.deref, [.dot "length"]⟩)
      (.seq (.seq (.checkCount ⟨⟨.deref, [.dot "length"]⟩, false⟩ 1)
        (.subCount ⟨⟨.deref, [.dot "length"]⟩, false⟩ 1)) rest))) env s = .ret s' := by
  have hlength' : s.mem ((⟨.deref, [.dot "length"]⟩ : LVal).loc env) = n := hlength
  have hvarint := writeVariable_varint (n := .varint) (by decide)
    (l := (⟨.deref, [.dot "length"]⟩ : LVal).loc env) (s := s) (by omega) (by omega)
  rw [hlength', Int.toNat_natCast, Base128.encode_of_lt hn, List.length_singleton] at hvarint
  have hsize : toInt32 (s.size - 1) = s.size - 1 := toInt32_of_range (by omega) (by omega)
  have hcount : toInt32 (n : ℤ) = n := toInt32_of_range (by omega) (by omega)
  have hrefused : s.size - 1 < n := by omega
  simp [exec, hvarint, EarlyReturn.Outcome.bind, Len.product, Len.value, hlength', hcount, hsize,
    hrefused]

theorem sendStatusPacketServerInfo_refused
    (h : config.maxSendPacketSize < serverInfoPacket.length) :
    ∃ w', sendStatusPacketServerInfo build config false mServerInfo w = some (.protocol, w') ∧
      w'.app = w.app := by
  refine sendPacket_refused build (by decide) ?_
  rintro s hmem hsize
  have hlt := room_lt h (by decide)
  rw [← hsize] at hlt
  have htotal : serverInfoPacket.length = mServerInfo.length + 3 := by decide
  have hlength : s.mem [.field "length", .field "response"] = (mServerInfo.length + 1 : ℕ) := by
    rw [hmem]
    exact stringAt_length _ _
  have hcode : ∃ rest, generateWrite build.rnd "status_packet_server_info"
      Packets.statusServerInfo = .seq .skip (.seq (.call (.seq .skip (.seq
        (.variable .write .varint ⟨.deref, [.dot "length"]⟩)
        (.seq (.seq (.checkCount ⟨⟨.deref, [.dot "length"]⟩, false⟩ 1)
          (.subCount ⟨⟨.deref, [.dot "length"]⟩, false⟩ 1)) rest)))
        ⟨.packet, [.arrow "response"]⟩) .skip) := by
    refine ⟨.seq .skip (.loop (build.rnd "string" 0) ⟨⟨.deref, [.dot "length"]⟩, false⟩ 
      (.fixed .write .i8 ((accessField ⟨.deref, []⟩ "elements").at (build.rnd "string" 0)))), rfl⟩
  rcases hcode with ⟨rest, hcode⟩
  rcases exec_string_refused build rest ⟨[.field "response"], fun _ => 0⟩
    (by decide) hlength (by omega) hlt.1 with ⟨s', hs'⟩
  rw [callFunction, hcode]
  have hloc : (⟨.packet, [.arrow "response"]⟩ : LVal).loc ⟨[], fun _ => 0⟩ =
      [.field "response"] := rfl
  rw [exec, exec, EarlyReturn.Outcome.bind, exec, exec, hloc, hs']
  exact ⟨_, rfl⟩

/-! ## Reading -/

theorem readPacket_pingStart (data : List UInt8) {size : ℤ} (hsize : 0 ≤ size) :
    readPacket build "status_packet_ping_start" Packets.statusPingStart data size w =
      some (0, readerStart data size w) := by
  have hzero : toInt32 (size - size) = 0 := by
    rw [sub_self]
    rfl
  rw [← hzero]
  exact readPacket_of_touched build rfl hsize

theorem readPacket_ping {data : List UInt8} (hlength : data.length < 2 ^ 31) :
    ∃ ret s, readPacket build "status_packet_ping" Packets.statusPing data data.length w =
        some (ret, s) ∧
      (data.length ≠ 8 → ret ≠ data.length) ∧
      (data.length = 8 → ret = data.length ∧
        s.mem [.field "time"] = twosComplement 8 (ofBe data)) := by
  set start := readerStart data data.length w with hstart
  have hsize : start.size = data.length := rfl
  have hload : data.length = 8 → load start.buffer start.data 8 = data := by
    intro height
    have hat := load_eq_of_at (at_ofList data (w.app.surroundings 0).beyond)
    rwa [height] at hat
  have hcode : generateRead build.rnd "status_packet_ping" Packets.statusPing =
      .seq (.checkSize 8) (.seq (.fixed .read .i64 ⟨.packet, [.arrow "time"]⟩) (.subSize 8)) := rfl
  by_cases hshort : start.size < 8
  · refine ⟨-1, start, readPacket_of_touched build ?_ (Int.natCast_nonneg _), by omega, by omega⟩
    rw [callFunction, hcode, ← hstart]
    simp [exec, hshort, finish]
  · have hleft : toInt32 (start.size - 8) = start.size - 8 :=
      toInt32_of_range (by omega) (by omega)
    have hused : toInt32 8 = 8 := rfl
    refine ⟨8, { readFixed .i64 [.field "time"] start with size := start.size - 8 },
      readPacket_of_touched build ?_ ?_, fun hne => by omega, fun height => ⟨by omega, ?_⟩⟩
    · rw [callFunction, hcode, ← hstart]
      have hread : (readFixed .i64 [.field "time"] start).size = start.size := rfl
      simp [exec, hshort, finish, LVal.loc, locOfSteps, hread, hleft, hused]
    · have htouched : (readFixed .i64 [.field "time"] start).touched = 8 := rfl
      rw [htouched]
      omega
    · have hvalue : (readFixed .i64 [.field "time"] start).mem [.field "time"] =
          Native.i64.decode (load start.buffer start.data 8) := by
        simp [readFixed, Native.size]
      rw [hvalue, hload height, Native.decode, height]

/-! ## Dispatching -/

/-- What a call for a client in the status phase leaves: the answer was passed to
`server_send_packet`, or the packet was refused and nothing happened. -/
structure Replies (w : World App) (payload : List UInt8) (err : Err) (w' : World App) : Prop where
  client : w'.app.client = w.app.client
  state : w'.app.state = w.app.state
  ample : w'.app.net.Ample
  answered : ∀ reply, statusReply payload = some reply →
    err = .noError ∧ w'.app.asked = w.app.asked ++ [⟨w.app.client, reply⟩]
  refused : statusReply payload = none →
    err = .protocol ∧ w'.app.asked = w.app.asked ∧ w'.app.net = w.app.net

theorem Replies.of_none {payload : List UInt8} (h : statusReply payload = none)
    (hw : w.app.net.Ample) : Replies w payload .protocol w where
  client := rfl
  state := rfl
  ample := hw
  answered := by
    intro reply hreply
    cases h.symm.trans hreply
  refused := fun _ => ⟨rfl, rfl, rfl⟩

theorem replies_of_sent {payload reply : List UInt8} {s : Core} {w' : World App}
    (h : statusReply payload = some reply) (hsent : Sent (handlerWorld s w) reply w') :
    Replies w payload .noError (releaseArena w w') where
  client := hsent.client
  state := hsent.state
  ample := hsent.ample
  answered := by
    intro reply' hreply
    cases h.symm.trans hreply
    exact ⟨rfl, hsent.asked⟩
  refused := by
    intro hnone
    cases h.symm.trans hnone

/-- A reader that takes another number of bytes than there are. -/
theorem replies_of_size {payload : List UInt8} {s : Core} (h : statusReply payload = none)
    (hw : w.app.net.Ample) :
    Replies w payload .protocol (releaseArena w (handlerWorld s w)) where
  client := rfl
  state := rfl
  ample := hw
  answered := by
    intro reply hreply
    cases h.symm.trans hreply
  refused := fun _ => ⟨rfl, rfl, rfl⟩

variable (config) in
/-- The calls for a client in the status phase: a packet is refused, or it is answered. -/
inductive StatusCall (w : World App) (payload : List UInt8) : Option (Err × World App) → Prop where
  | unknown : statusReply payload = none → StatusCall w payload (some (.protocol, w))
  | misread {s} : statusReply payload = none →
      StatusCall w payload (some (.protocol, releaseArena w (handlerWorld s w)))
  | serverInfo {s} : statusReply payload = some serverInfoPacket →
      StatusCall w payload
        ((sendStatusPacketServerInfo build config false mServerInfo (handlerWorld s w)).map
          fun result => (result.1, releaseArena w result.2))
  | pong {s body} : body.length = 8 → statusReply payload = some (0x01 :: body) →
      StatusCall w payload
        ((sendStatusPacketPong build config false (twosComplement 8 (ofBe body))
          (handlerWorld s w)).map fun result => (result.1, releaseArena w result.2))

variable (config) in
theorem dispatchPingStart_call {payload body : List UInt8}
    (hreply : statusReply payload = if body = [] then some serverInfoPacket else none) :
    StatusCall build config w payload
      (dispatchStatusPacketPingStart build config false body body.length w) := by
  rw [dispatchStatusPacketPingStart, dispatchTyped_eq,
    readPacket_pingStart build body (Int.natCast_nonneg _)]
  dsimp only
  by_cases hbody : body = []
  · have hall : (0 : ℤ) = body.length := by
      rw [hbody]
      rfl
    rw [if_pos hbody] at hreply
    rw [if_neg (not_not.mpr hall), processStatusPacketPingStart]
    exact .serverInfo hreply
  · have hne : (0 : ℤ) ≠ body.length := by
      have := List.length_pos_iff.mpr hbody
      omega
    rw [if_neg hbody] at hreply
    rw [if_pos hne]
    exact .misread hreply

variable (config) in
theorem dispatchPing_call {payload body : List UInt8} (hlength : body.length < 2 ^ 31)
    (hreply : statusReply payload = if body.length = 8 then some (0x01 :: body) else none) :
    StatusCall build config w payload
      (dispatchStatusPacketPing build config false body body.length w) := by
  rcases readPacket_ping build (w := w) hlength with ⟨ret, s, hread, hother, height⟩
  rw [dispatchStatusPacketPing, dispatchTyped_eq, hread]
  dsimp only
  by_cases hbody : body.length = 8
  · rcases height hbody with ⟨hret, htime⟩
    rw [if_pos hbody] at hreply
    rw [if_neg (not_not.mpr hret), processStatusPacketPing, htime]
    exact .pong hbody hreply
  · rw [if_neg hbody] at hreply
    rw [if_pos (hother hbody)]
    exact .misread hreply

variable (config) in
theorem dispatchPacket_status (hstate : w.app.state = PROTOCOL_STATUS) {payload : List UInt8}
    (hlength : payload.length < 2 ^ 31) :
    StatusCall build config w payload
      (dispatchPacket build config false payload payload.length w) := by
  have hphase : ¬ w.app.state = PROTOCOL_HANDSHAKING := by
    rw [hstate]
    decide
  have hread := protocolReadVarint_split payload (w.app.surroundings 0).beyond
  rw [dispatchPacket]
  cases hsplit : Base128.split 5 payload with
  | none =>
      rw [hsplit] at hread
      simp only [hread]
      exact .unknown (by rw [statusReply, hsplit])
  | some parts =>
      rw [hsplit] at hread
      rcases parts with ⟨id, body⟩
      rcases hread with ⟨hpayload, hread⟩
      have hshort : body.length < 2 ^ 31 := by
        rw [hpayload, List.length_append] at hlength
        omega
      have hleft : toInt32 ((payload.length : ℤ) - (id.length : ℕ)) = (body.length : ℕ) := by
        rw [hpayload, List.length_append, toInt32_of_range (by omega) (by omega)]
        omega
      have hrest : payload.drop id.length = body := by
        rw [hpayload, List.drop_left]
      have hret : ((id.length : ℕ) : ℤ) ≥ 0 := by omega
      simp only [hread, Int.toNat_natCast, hrest, hleft]
      rw [if_neg (not_not.mpr hret), if_neg hphase, if_pos hstate]
      by_cases hzero : toInt32 (Base128.value id) = 0
      · rw [if_pos hzero]
        apply dispatchPingStart_call build config
        simp [statusReply, hsplit, hzero]
      · rw [if_neg hzero]
        by_cases hone : toInt32 (Base128.value id) = 1
        · rw [if_pos hone]
          apply dispatchPing_call build config hshort
          simp [statusReply, hsplit, hone]
        · rw [if_neg hone]
          exact .unknown (by simp [statusReply, hsplit, hzero, hone])

variable (config) in
/-- A client in the status phase gets its answers. -/
theorem dispatcher_replies (hconfig : SendsStatus config) (hw : w.app.net.Ample)
    (hstate : w.app.state = PROTOCOL_STATUS) {payload : List UInt8}
    (hlength : payload.length < 2 ^ 31) :
    Replies w payload (dispatcher build config false payload payload.length w).1
      (dispatcher build config false payload payload.length w).2 := by
  have hcall := dispatchPacket_status build config hstate hlength
  rw [dispatcher]
  generalize dispatchPacket build config false payload payload.length w = result at hcall
  cases hcall with
  | unknown hreply => exact Replies.of_none hreply hw
  | misread hreply => exact replies_of_size hreply hw
  | @serverInfo s hreply =>
      rcases sendStatusPacketServerInfo_encode build hconfig (w := handlerWorld s w) hw with
        ⟨w', hsend, hsent⟩
      rw [hsend]
      exact replies_of_sent hreply hsent
  | @pong s body hbody hreply =>
      rcases sendStatusPacketPong_encode build hconfig (w := handlerWorld s w) hw hbody with
        ⟨w', hsend, hsent⟩
      rw [hsend]
      exact replies_of_sent hreply hsent

/-- The answer to a packet, if it fits a packet that the server sends. -/
def fittingReply (config : ServerConfig) (payload : List UInt8) : Option (List UInt8) :=
  (statusReply payload).filter fun reply => reply.length ≤ config.maxSendPacketSize

theorem lt_of_fittingReply {payload reply : List UInt8} (hreply : statusReply payload = some reply)
    (h : fittingReply config payload = none) : config.maxSendPacketSize < reply.length := by
  rw [fittingReply, hreply] at h
  simpa [Option.filter] using h

variable (config) in
/-- A packet without an answer that fits asks for nothing, and is refused. -/
theorem dispatcher_refuses (hstate : w.app.state = PROTOCOL_STATUS) {payload : List UInt8}
    (hlength : payload.length < 2 ^ 31) (hnone : fittingReply config payload = none) :
    (dispatcher build config false payload payload.length w).1 = .protocol ∧
      (dispatcher build config false payload payload.length w).2.app.net = w.app.net := by
  have hcall := dispatchPacket_status build config hstate hlength
  rw [dispatcher]
  generalize dispatchPacket build config false payload payload.length w = result at hcall
  cases hcall with
  | unknown | misread => exact ⟨rfl, rfl⟩
  | @serverInfo s hreply =>
      rcases sendStatusPacketServerInfo_refused build (w := handlerWorld s w)
        (lt_of_fittingReply hreply hnone) with ⟨w', hsend, happ⟩
      have hnet : w'.app.net = w.app.net := by rw [happ, handlerWorld_net]
      rw [hsend]
      exact ⟨rfl, hnet⟩
  | @pong s body hbody hreply =>
      have hlt := lt_of_fittingReply hreply hnone
      rw [List.length_cons, hbody] at hlt
      rcases sendStatusPacketPong_refused build (w := handlerWorld s w) hlt
        (twosComplement 8 (ofBe body)) with ⟨w', hsend, happ⟩
      have hnet : w'.app.net = w.app.net := by rw [happ, handlerWorld_net]
      rw [hsend]
      exact ⟨rfl, hnet⟩

end

end CmcServer
