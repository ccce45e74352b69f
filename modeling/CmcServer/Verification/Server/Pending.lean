import CmcServer.Lib.Channel
import CmcServer.Verification.Server.SendBuffers

/-! # Bytes that wait for a client

The calls of `server_send_packet` leave frames in the requests, in the order of the calls, while
nothing else is written to their buffers. -/

namespace CmcServer

open Channel

/-- What a call of `server_send_packet` is to send. -/
def SendCall.frame (call : SendCall) : List UInt8 :=
  Base128.encode call.packet.length ++ call.packet

def framesFor (client : ClientId) (asked : List SendCall) : List UInt8 :=
  (asked.filter fun call => call.client = client).flatMap SendCall.frame

/-- The bytes in the vectors of a request, if they are for `client`. -/
def Request.bytesFor (pools : BufferPools) (client : ClientId) : Request → List UInt8
  | .accept => []
  | .recv _ => []
  | .send c varintTemp buffer size =>
      if c = client then varintTemp ++ pools.contents buffer size.toNat else []

/-- The bytes that wait for a client, first those that the kernel has. -/
def pendingFor (client : ClientId) (inFlight : List Sqe) (pools : BufferPools) (net : Net) :
    List UInt8 :=
  (outstanding inFlight net).flatMap (Request.bytesFor pools client)

section

variable {client c : ClientId} {asked asked' : List SendCall} {call : SendCall}

theorem framesFor_append (client : ClientId) (asked asked' : List SendCall) :
    framesFor client (asked ++ asked') = framesFor client asked ++ framesFor client asked' := by
  rw [framesFor, List.filter_append, List.flatMap_append]
  rfl

theorem framesFor_mono (client : ClientId) (h : asked <+: asked') :
    framesFor client asked <+: framesFor client asked' := by
  rcases h with ⟨rest, rfl⟩
  rw [framesFor_append]
  exact List.prefix_append _ _

theorem framesFor_self (call : SendCall) (h : call.client = client) :
    framesFor client [call] = call.frame := by
  simp [framesFor, h]

theorem framesFor_other (h : call.client ≠ client) : framesFor client [call] = [] := by
  simp [framesFor, h]

end

section

variable {client : ClientId} {inFlight : List Sqe} {pools pools' : BufferPools} {net net' : Net}

theorem pendingFor_eq (client : ClientId) (inFlight : List Sqe) (pools : BufferPools) (net : Net) :
    pendingFor client inFlight pools net =
      inFlight.flatMap (fun sqe => (net.requests sqe.userData).bytesFor pools client) ++
        net.queue.flatMap fun sqe => (net.requests sqe.userData).bytesFor pools client := by
  rw [pendingFor, outstanding, List.flatMap_map, List.flatMap_append]

/-- Requests have bytes for the client that they name, if they are sends. -/
theorem bytesFor_ne_nil {request : Request} (h : request.bytesFor pools client ≠ []) :
    request.type = .send ∧ request.client = some client := by
  cases request with
  | accept | recv => exact absurd rfl h
  | send c varintTemp buffer size =>
      rw [Request.bytesFor] at h
      split at h
      · rename_i hc
        exact ⟨rfl, congrArg some hc⟩
      · exact absurd rfl h

theorem contents_congr {b : BufId} (h : pools'.memory b = pools.memory b) (n : ℕ) :
    pools'.contents b n = pools.contents b n := by
  rw [BufferPools.contents, BufferPools.contents, h]

/-- Only the buffers that are being sent matter. -/
theorem pendingFor_congr
    (h : ∀ b ∈ sendBuffers inFlight net, pools'.memory b = pools.memory b) :
    pendingFor client inFlight pools' net = pendingFor client inFlight pools net := by
  refine List.flatMap_congr fun request hrequest => ?_
  cases request with
  | accept | recv => rfl
  | send c varintTemp buffer size =>
      have hbuffer : buffer ∈ sendBuffers inFlight net :=
        List.mem_filterMap.mpr ⟨_, hrequest, rfl⟩
      rw [Request.bytesFor, Request.bytesFor, contents_congr (h buffer hbuffer)]

theorem pendingFor_queued {content : Request}
    (hout : outstanding inFlight net' = outstanding inFlight net ++ [content])
    (h : ∀ b ∈ sendBuffers inFlight net, pools'.memory b = pools.memory b) :
    pendingFor client inFlight pools' net' =
      pendingFor client inFlight pools net ++ content.bytesFor pools' client := by
  rw [← pendingFor_congr h, pendingFor, pendingFor, hout, List.flatMap_append,
    List.flatMap_singleton]

theorem pendingFor_refused (hout : outstanding inFlight net' = outstanding inFlight net)
    (h : ∀ b ∈ sendBuffers inFlight net, pools'.memory b = pools.memory b) :
    pendingFor client inFlight pools' net' = pendingFor client inFlight pools net := by
  rw [← pendingFor_congr h, pendingFor, pendingFor, hout]

theorem bytesFor_other {c : ClientId} {varintTemp : List UInt8} {buffer : BufId} {size : ℤ}
    (h : c ≠ client) : (Request.send c varintTemp buffer size).bytesFor pools client = [] :=
  if_neg h

theorem bytesFor_of_buffer {content : Request} (h : content.buffer = none) :
    content.bytesFor pools client = [] := by
  cases content with
  | accept | recv => rfl
  | send => cases h

/-- A request that is no send does not change what waits. -/
theorem Net.Issue.pendingFor_eq {content : Request} {op : Op} {err : Err}
    {busy : List RequestId} (hissue : Net.Issue content op net err net') (h : net.Sound busy)
    (hbusy : ∀ sqe ∈ inFlight, sqe.userData ∈ busy) (hcontent : content.buffer = none) :
    pendingFor client inFlight pools net' = pendingFor client inFlight pools net := by
  rcases hissue.outstanding_cases h hbusy with ⟨-, hout, -⟩ | ⟨hout, -⟩
  · rw [pendingFor_queued hout fun _ _ => rfl, bytesFor_of_buffer hcontent, List.append_nil]
  · exact pendingFor_refused hout fun _ _ => rfl

end

/-! ## Packets -/

section

variable {config : ServerConfig} {w : World App} {err : Err} {owners : List BufId}

theorem Apart.written (h : Apart w.pools owners) (bytes : ℕ → UInt8) :
    Apart (written config bytes w) (sendBuffer config w :: owners) :=
  (h.get (by decide)).memory _

/-- A send that fails gives its buffer back, another one keeps it out. -/
theorem Apart.released (h : Apart w.pools owners) (err : Err) (bytes : ℕ → UInt8) :
    Apart (released config err bytes w) owners := by
  rw [CmcServer.released]
  split
  · exact (h.written bytes).giveBack (by decide)
  · exact (h.written bytes).sublist (List.sublist_cons_self _ _)

theorem Apart.kept_out (h : Apart w.pools owners) (bytes : ℕ → UInt8) :
    Apart (CmcServer.released config .noError bytes w) (sendBuffer config w :: owners) := by
  rw [CmcServer.released, if_neg (not_not.mpr rfl)]
  exact h.written bytes

theorem memory_released (config : ServerConfig) (err : Err) (bytes : ℕ → UInt8) (w : World App) :
    (released config err bytes w).memory =
      Function.update w.pools.memory (sendBuffer config w) bytes := by
  have hget : (w.pools.bufferPoolGetProtocolSend config).2.memory = w.pools.memory :=
    memory_get _ _ _
  rw [← hget, released]
  split <;> rfl

/-- A send leaves the buffers of its owners alone. -/
theorem Apart.memory_released (h : Apart w.pools owners) (err : Err) (bytes : ℕ → UInt8)
    {b : BufId} (hb : b ∈ owners) :
    (CmcServer.released config err bytes w).memory b = w.pools.memory b := by
  have hnodup : (sendBuffer config w :: owners).Nodup := (h.written bytes).nodup
  have hne : b ≠ sendBuffer config w := by
    rintro rfl
    exact (List.nodup_cons.mp hnodup).1 hb
  rw [CmcServer.memory_released, Function.update_of_ne hne]

end

/-! ## Receiving -/

/-- What `client` got, what waits for it and what was sent to it agree. `stream` are the bytes that
each client got. -/
def Delivers (stream : ClientId → List UInt8) (inFlight : List Sqe) (pools : BufferPools)
    (net : Net) (asked : List SendCall) (client : ClientId) : Prop :=
  Intact (stream client) (pendingFor client inFlight pools net) (framesFor client asked)

/-- The parts of the world that stay the same while a chunk of a client is received: the requests
of the kernel, the buffers of other receivers and what clients got. `Good` are the clients that lost
no bytes, of `asked` calls and `known` unreported refusals. -/
structure Scene where
  busy : List RequestId
  inFlight : List Sqe
  others : List BufId
  stream : ClientId → List UInt8
  Good : ClientId → Prop
  client : ClientId
  asked : List SendCall
  known : ℕ

/-- The world while a chunk is received. The other clients lose nothing. -/
structure Outgoing (scene : Scene) (held : Option BufId) (w : World App) : Prop where
  sound : w.app.net.Sound scene.busy
  client : w.app.client = scene.client
  apart : Apart w.pools (held.toList ++ scene.others ++ sendBuffers scene.inFlight w.app.net)
  known : scene.known ≤ unreported w.app.net
  asked : ∃ calls, w.app.asked = scene.asked ++ calls ∧ ∀ call ∈ calls, call.client = scene.client
  others : ∀ c, scene.Good c → c ≠ scene.client →
    Delivers scene.stream scene.inFlight w.pools w.app.net w.app.asked c

/-- ... and as long as every refusal is reported, nor does the client of the chunk. -/
def Delivering (scene : Scene) (held : Option BufId) (w : World App) : Prop :=
  Outgoing scene held w ∧ (scene.Good scene.client → unreported w.app.net = scene.known →
    Delivers scene.stream scene.inFlight w.pools w.app.net w.app.asked scene.client)

section

variable {config : ServerConfig} {scene : Scene} {held : Option BufId} {w w' : World App}
  {err : Err}

/-- Buffers that are not being sent change hands or contents. -/
theorem Outgoing.pools (h : Outgoing scene held w) {held' : Option BufId} {pools : BufferPools}
    (hapart : Apart pools
      (held'.toList ++ scene.others ++ sendBuffers scene.inFlight w.app.net))
    (hmemory : ∀ b ∈ sendBuffers scene.inFlight w.app.net,
      pools.memory b = w.pools.memory b) : Outgoing scene held' { w with pools } := by
  refine ⟨h.sound, h.client, hapart, h.known, h.asked, ?_⟩
  intro c hgood hc
  have hdelivers := h.others c hgood hc
  rw [Delivers] at hdelivers ⊢
  rwa [pendingFor_congr hmemory]

theorem Delivering.pools (h : Delivering scene held w) {held' : Option BufId}
    {pools : BufferPools}
    (hapart : Apart pools
      (held'.toList ++ scene.others ++ sendBuffers scene.inFlight w.app.net))
    (hmemory : ∀ b ∈ sendBuffers scene.inFlight w.app.net,
      pools.memory b = w.pools.memory b) : Delivering scene held' { w with pools } := by
  refine ⟨h.1.pools hapart hmemory, ?_⟩
  intro hgood hknown
  have hdelivers := h.2 hgood hknown
  rw [Delivers] at hdelivers ⊢
  rwa [pendingFor_congr hmemory]

theorem Outgoing.memcpy {b : BufId} (h : Outgoing scene (some b) w) (offset : ℕ)
    (bytes : List UInt8) {b' : BufId} (hb : b' ∈ sendBuffers scene.inFlight w.app.net) :
    (w.pools.memcpy b offset bytes).memory b' = w.pools.memory b' := by
  have hnodup := h.apart.nodup
  rw [List.append_assoc, Option.toList_some, List.singleton_append] at hnodup
  have hne : b' ≠ b := by
    rintro rfl
    exact (List.nodup_cons.mp hnodup).1 (List.mem_append_right _ hb)
  rw [BufferPools.memcpy]
  exact Function.update_of_ne hne _ _

theorem Outgoing.apart_queued (h : Outgoing scene held w) (bytes : ℕ → UInt8) :
    Apart (released config .noError bytes w) (held.toList ++ scene.others ++
      (sendBuffers scene.inFlight w.app.net ++ [sendBuffer config w])) := by
  rw [← List.append_assoc]
  exact (h.apart.kept_out bytes).perm (List.perm_append_singleton _ _).symm

theorem Outgoing.memory_released (h : Outgoing scene held w) (err : Err) (bytes : ℕ → UInt8)
    {b : BufId} (hb : b ∈ sendBuffers scene.inFlight w.app.net) :
    (released config err bytes w).memory b = w.pools.memory b :=
  h.apart.memory_released err bytes (List.mem_append_right _ hb)

theorem bytesFor_call {bytes : ℕ → UInt8} {varintTemp : List UInt8} {size : ℤ}
    (hvarint : protocolWriteVarint size = some varintTemp) (client : ClientId) :
    (Request.send client varintTemp (sendBuffer config w) size).bytesFor
        (released config err bytes w) client =
      (SendCall.mk client ((List.range size.toNat).map bytes)).frame := by
  rw [Request.bytesFor, if_pos rfl, (protocolWriteVarint_some hvarint).2, SendCall.frame,
    BufferPools.contents, memory_released, Function.update_self, List.length_map,
    List.length_range]

theorem Outgoing.congr (h : Outgoing scene held w) (hclient : w'.app.client = w.app.client)
    (hpools : w'.pools = w.pools) (hnet : w'.app.net = w.app.net)
    (hasked : w'.app.asked = w.app.asked) : Outgoing scene held w' := by
  refine ⟨?_, hclient.trans h.client, ?_, ?_, ?_, ?_⟩
  · rw [hnet]
    exact h.sound
  · rw [hpools, hnet]
    exact h.apart
  · rw [hnet]
    exact h.known
  · rw [hasked]
    exact h.asked
  · rw [hpools, hnet, hasked]
    exact h.others

/-- A call of `server_send_packet` for the client of the chunk. -/
theorem Outgoing.ask (h : Outgoing scene held w) (call : SendCall)
    (hcall : call.client = scene.client) :
    ∃ calls, w.app.asked ++ [call] = scene.asked ++ calls ∧
      ∀ call ∈ calls, call.client = scene.client := by
  rcases h.asked with ⟨calls, hasked, hcalls⟩
  refine ⟨calls ++ [call], ?_, ?_⟩
  · rw [hasked, List.append_assoc]
  · intro call' hcall'
    rcases List.mem_append.mp hcall' with hcall' | hcall'
    · exact hcalls call' hcall'
    · rw [List.mem_singleton.mp hcall']
      exact hcall

/-- A packet for the client of the chunk is nothing to the others. -/
theorem Outgoing.effect (h : Outgoing scene held w)
    (hbusy : ∀ sqe ∈ scene.inFlight, sqe.userData ∈ scene.busy)
    (heffect : Effect config w err w') : Outgoing scene held w' := by
  have hclient := heffect.client
  cases heffect.work with
  | kept hpools hnet hasked => exact h.congr hclient hpools hnet hasked
  | unwritten bytes _ hpools hnet hasked =>
      have hreleased : Outgoing scene held { w with pools := released config err bytes w } :=
        h.pools (h.apart.released err bytes) fun b hb => h.memory_released err bytes hb
      exact hreleased.congr hclient hpools hnet hasked
  | issued bytes varintTemp size _ hissue hpools hasked =>
      have hmemory : ∀ b ∈ sendBuffers scene.inFlight w.app.net,
          w'.pools.memory b = w.pools.memory b := by
        rw [hpools]
        exact fun b hb => h.memory_released err bytes hb
      have hframes : ∀ c, c ≠ scene.client →
          framesFor c w'.app.asked = framesFor c w.app.asked := by
        intro c hc
        rw [hasked, framesFor_append, framesFor_other, List.append_nil]
        rw [h.client]
        exact hc.symm
      have hasked' := h.ask ⟨w.app.client, (List.range size.toNat).map bytes⟩ h.client
      rw [← hasked] at hasked'
      refine ⟨hissue.sound h.sound, hclient.trans h.client, ?_,
        h.known.trans hissue.unreported_le, hasked', ?_⟩
      · rw [hpools]
        rcases hissue.outstanding_cases h.sound hbusy with ⟨herr, hout, -⟩ | ⟨hout, -⟩
        · rw [herr, sendBuffers, hout, List.filterMap_append]
          exact h.apart_queued bytes
        · rw [sendBuffers, hout]
          exact h.apart.released err bytes
      · intro c hgood hc
        have hdelivers := h.others c hgood hc
        rw [Delivers] at hdelivers ⊢
        rw [hframes c hc]
        rcases hissue.outstanding_cases h.sound hbusy with ⟨-, hout, -⟩ | ⟨hout, -⟩
        · rw [h.client] at hout
          rwa [pendingFor_queued hout hmemory, bytesFor_other hc.symm, List.append_nil]
        · rwa [pendingFor_refused hout hmemory]

/-- A packet for the client of the chunk waits behind those before it. -/
theorem Delivering.effect (h : Delivering scene held w)
    (hbusy : ∀ sqe ∈ scene.inFlight, sqe.userData ∈ scene.busy)
    (heffect : Effect config w .noError w') : Delivering scene held w' := by
  refine ⟨h.1.effect hbusy heffect, ?_⟩
  intro hgood hknown
  cases heffect.work with
  | kept hpools hnet hasked =>
      rw [hnet] at hknown
      rw [hpools, hnet, hasked]
      exact h.2 hgood hknown
  | unwritten _ herr => exact absurd rfl herr
  | issued bytes varintTemp size hvarint hissue hpools hasked =>
      have hold : unreported w.app.net = scene.known := by
        have hle := hissue.unreported_le
        have hle' := h.1.known
        omega
      have hdelivers := h.2 hgood hold
      rcases hissue.outstanding_cases h.1.sound hbusy with ⟨-, hout, -⟩ |
        ⟨-, refusal, hrefused, hloss⟩
      · have hframe := framesFor_self ⟨w.app.client, (List.range size.toNat).map bytes⟩ h.1.client
        rw [Delivers, hpools, hasked, pendingFor_queued hout fun b hb =>
          h.1.memory_released .noError bytes hb, framesFor_append, hframe, ← h.1.client,
          bytesFor_call (hvarint rfl) w.app.client, h.1.client]
        exact Intact.send hdelivers _
      · rw [unreported, hrefused, hloss rfl, List.count_append] at hknown
        rw [unreported] at hold
        simp [Request.type] at hknown
        omega

theorem deliveringLaw (build : Build) (config : ServerConfig)
    (hbusy : ∀ sqe ∈ scene.inFlight, sqe.userData ∈ scene.busy) :
    BufferLaw config (dispatcher build config false) (Delivering scene)
      fun held _ => Outgoing scene held where
  take := by
    intro w hw
    have hmemory : (w.pools.bufferPoolGetProtocolRecv config).2.memory = w.pools.memory :=
      memory_get _ _ _
    refine hw.pools (hw.1.apart.get (by decide)) fun b _ => ?_
    rw [hmemory]
  copy := fun _ offset bytes _ hw =>
    hw.pools (hw.1.apart.memory _) fun _ hb => hw.1.memcpy offset bytes hb
  large := fun _ _ hw => hw.1
  dispatched := by
    intro held bytes n w hw _
    have heffect := dispatcher_effect build config bytes n w
    refine ⟨?_, fun _ => hw.1.effect hbusy heffect⟩
    intro hok
    rw [hok] at heffect
    exact hw.effect hbusy heffect
  give := fun _ _ hw => hw.pools (hw.1.apart.giveBack (by decide)) fun _ _ => rfl
  giveFailed := fun _ _ _ hw => hw.pools (hw.apart.giveBack (by decide)) fun _ _ => rfl

end

end CmcServer
