import CmcServer.Verification.Dispatch.Effects
import CmcServer.Verification.Dispatch.Status
import CmcServer.Verification.ProtoDef.ParsedReads

/-! # Dialogues

What the bytes of a client make of it: its phase, its answers and whether it is refused. The
dispatcher does what the dialogue says, as long as it accepts packets. -/

namespace CmcServer

open Deframer ProtoDef Parsers

/-! ## Verdicts -/

/-- What becomes of a packet: the next state and an answer. Nothing is said about packets that the
grammar leaves undefined. -/
inductive Verdict where
  | accepted (state : ℤ) (reply : Option (List UInt8))
  | refused
  | unspecified
  deriving DecidableEq, Repr

/-- A packet without its id, from its grammar and its handler. -/
def verdictOf (t : Ty) (process : (Loc → ℤ) → Verdict) (body : List UInt8) : Verdict :=
  match t.parse (fun _ => 1) ⟨[], []⟩ ⟨fun _ => 0, 0⟩ body with
  | .parsed d [] => process d.mem
  | .parsed _ _ => .refused
  | .malformed => .refused
  | .undefined => .unspecified

def setProtocolVerdict (packet : Loc → ℤ) : Verdict :=
  if packet [.field "next_state"] = PROTOCOL_STATUS then .accepted PROTOCOL_STATUS none
  else if packet [.field "next_state"] = PROTOCOL_LOGIN ∧
      packet [.field "protocol_version"] = PROTOCOL_VERSION then
    .accepted PROTOCOL_LOGIN none
  else .refused

def statusVerdict (payload : List UInt8) : Verdict :=
  match statusReply payload with
  | some reply => .accepted PROTOCOL_STATUS (some reply)
  | none => .refused

/-- A packet of a client in a phase. In the login phase only the first packet is accepted. -/
def verdict (state : ℤ) (payload : List UInt8) : Verdict :=
  match Base128.split 5 payload with
  | none => .refused
  | some (id, body) =>
      if state = PROTOCOL_HANDSHAKING then
        if toInt32 (Base128.value id) = 0 then
          verdictOf Packets.handshakingSetProtocol setProtocolVerdict body
        else .refused
      else if state = PROTOCOL_STATUS then statusVerdict payload
      else if state = PROTOCOL_LOGIN then
        if toInt32 (Base128.value id) = 0 then
          verdictOf Packets.loginStart (fun _ => .accepted PROTOCOL_LOGIN none) body
        else .refused
      else .refused

/-! ## Reading -/

/-- Drafts with the same scalars outside of arrays. -/
def SameFields (d d' : Draft) : Prop := ∀ l : Loc, l.any Sel.isIndex = false → d.mem l = d'.mem l

theorem SameFields.assign {d d' : Draft} (h : SameFields d d') (l : Loc) (value : ℤ) :
    SameFields (d.assign l value) (d'.assign l value) := by
  intro l' hl'
  simp only [Draft.assign, Function.update_apply]
  split
  · rfl
  · exact h l' hl'

theorem SameFields.take {d d' : Draft} (h : SameFields d d') (n n' : ℕ) :
    SameFields (d.take n) (d'.take n') := h

theorem sameFields_packetMemory (stale : Loc → ℤ) :
    SameFields ⟨packetMemory stale, 0⟩ ⟨fun _ => 0, 0⟩ := by
  intro l hl
  simp [packetMemory, hl]

theorem corresponds_varint {l : Loc} (hl : l.any Sel.isIndex = false) :
    Corresponds SameFields (Native.varint.parse l) (Native.varint.parse l) := by
  intro d d' bytes hd
  rw [Native.parse, parseVarint, parseVarint, hd l hl]
  split
  · exact .undefined
  · split
    · exact .malformed
    · exact .parsed (hd.assign l _)

theorem corresponds_fixed {n : Native} (h : (Ty.native n).isVariable = false) (l : Loc) :
    Corresponds SameFields (n.parse l) (n.parse l) := by
  rw [native_parse_fixed h]
  exact corresponds_take fun bytes d d' hd => hd.assign l _

section

variable (sizeof sizeof' : Ty → ℕ)

theorem corresponds_string {p : Spot} (hp : p.loc.any Sel.isIndex = false) :
    Corresponds SameFields (Packets.string.parse sizeof p) (Packets.string.parse sizeof' p) := by
  have hlength : ((Spot.mk p.loc []).sub "length").loc.any Sel.isIndex = false := by
    simpa [Spot.loc_sub, Loc.sub, Spot.loc_mk_nil, Sel.isIndex] using hp
  simp only [Packets.string, Packets.varint, Ty.parse]
  refine (corresponds_varint hlength).seq (.choose fun d d' hd => ?_)
  dsimp only [countAt]
  rw [hd _ hlength]
  split
  · refine (corresponds_modify fun d d' hd => hd.take _ _).seq (.rounds (fun j => ?_) _ _)
    exact corresponds_fixed rfl _
  · exact corresponds_unknown

theorem corresponds_setProtocol :
    Corresponds SameFields (Packets.handshakingSetProtocol.parse sizeof ⟨[], []⟩)
      (Packets.handshakingSetProtocol.parse sizeof' ⟨[], []⟩) := by
  simp only [Packets.handshakingSetProtocol, Packets.container, Packets.varint, List.foldr,
    Ty.parse, Fields.parse]
  exact (corresponds_varint rfl).seq <| (corresponds_string sizeof sizeof' rfl).seq <|
    (corresponds_fixed rfl _).seq <| (corresponds_varint rfl).seq corresponds_skip

theorem corresponds_loginStart :
    Corresponds SameFields (Packets.loginStart.parse sizeof ⟨[], []⟩)
      (Packets.loginStart.parse sizeof' ⟨[], []⟩) := by
  simp only [Packets.loginStart, Packets.container, List.foldr, Ty.parse, Fields.parse]
  exact (corresponds_string sizeof sizeof' rfl).seq corresponds_skip

end

/-! ## Dispatching -/

section

variable {build : Build} {config : ServerConfig} {w w' : World App}

/-- A verdict that a packet was accepted with, if the grammar answer anything about it. -/
def Verdict.Allows (v : Verdict) (w w' : World App) : Prop :=
  v = .unspecified ∨ ∃ state reply, v = .accepted state reply ∧ w'.app.state = state ∧
    w'.app.asked = w.app.asked ++ reply.toList.map fun packet => ⟨w.app.client, packet⟩

theorem dispatchTyped_allows (hsizeof : ∀ t, build.sizeof t < 2 ^ 32) {name : String} {t : Ty}
    (ht : Readable build.rnd name t)
    (hsame : Corresponds SameFields (t.parse build.sizeof ⟨[], []⟩) (t.parse (fun _ => 1) ⟨[], []⟩))
    {process : (Loc → ℤ) → World App → Option (Err × World App)} {answer : (Loc → ℤ) → Verdict}
    (hprocess : ∀ packet packet' v v', v.app.state = w.app.state →
      (∀ l : Loc, l.any Sel.isIndex = false → packet l = packet' l) →
      process packet v = some (.noError, v') → (answer packet').Allows v v')
    {data : List UInt8} (hdata : data.length < 2 ^ 31)
    (h : dispatchTyped build name t process data data.length w = some (.noError, w')) :
    (verdictOf t answer data).Allows w w' := by
  rw [dispatchTyped_eq] at h
  split at h
  · cases h
  · rename_i readSize s hread
    rcases Option.map_eq_some_iff.mp h with ⟨⟨err, w''⟩, hresult, heq⟩
    cases heq
    split at hresult
    · cases hresult
    · rename_i hsize
      rw [not_not.mp hsize] at hread
      have hparse := call_accepts hsizeof ht.isVariable ht.fresh hdata
        (callFunction_of_readPacket build hread) (Int.natCast_nonneg _)
      have hrel := hsame _ _ data (sameFields_packetMemory (w.app.surroundings 0).stale)
      rw [verdictOf]
      generalize t.parse (fun _ => 1) ⟨[], []⟩ ⟨fun _ => 0, 0⟩ data = result at hrel ⊢
      rcases hparse with hundefined | ⟨d, rest, hparsed, hrest, hmem⟩
      · rw [hundefined] at hrel
        cases hrel
        exact Or.inl rfl
      · rw [hparsed] at hrel
        cases hrel with
        | @parsed _ d' _ hd =>
            have hnil : rest = [] := List.length_eq_zero_iff.mp (by omega)
            rw [hnil]
            rw [hmem] at hresult
            have hallowed := hprocess d.mem d'.mem (handlerWorld s w) w'' rfl hd hresult
            exact hallowed

theorem processHandshakingPacketSetProtocol_allows {packet packet' : Loc → ℤ}
    (hsame : ∀ l : Loc, l.any Sel.isIndex = false → packet l = packet' l)
    (h : processHandshakingPacketSetProtocol packet w = (.noError, w')) :
    (setProtocolVerdict packet').Allows w w' := by
  have hstate := hsame [.field "next_state"] rfl
  have hversion := hsame [.field "protocol_version"] rfl
  rw [processHandshakingPacketSetProtocol, hstate, hversion] at h
  rw [setProtocolVerdict]
  by_cases hstatus : packet' [.field "next_state"] = PROTOCOL_STATUS
  · rw [if_pos hstatus] at h ⊢
    cases h
    exact Or.inr ⟨_, _, rfl, hstatus, (List.append_nil _).symm⟩
  · rw [if_neg hstatus] at h ⊢
    by_cases hlogin : packet' [.field "next_state"] = PROTOCOL_LOGIN
    · rw [if_pos hlogin] at h
      split at h
      · cases h
      · rename_i hright
        rw [if_pos ⟨hlogin, not_not.mp hright⟩]
        cases h
        exact Or.inr ⟨_, _, rfl, hlogin, (List.append_nil _).symm⟩
    · rw [if_neg hlogin] at h
      cases h

/-- What a send asks for does not depend on the requests. -/
theorem sendPacket_asked {packetId : ℤ} {name : String} {t : Ty} {packet : Loc → ℤ}
    {err err' : Err} {net : Net} {v : World App}
    (h : sendPacket build config false packetId name t packet w = some (err, w'))
    (h' : sendPacket build config false packetId name t packet
      { w with app := { w.app with net } } = some (err', v)) :
    w'.app.asked = v.app.asked ∧ w'.app.state = w.app.state := by
  simp only [sendPacket] at h h'
  split at h
  · cases h
  · rename_i packed hpacked
    rw [hpacked] at h'
    rcases Option.map_eq_some_iff.mp h with ⟨sent, -, heq⟩
    rcases Option.map_eq_some_iff.mp h' with ⟨sent', -, heq'⟩
    cases heq
    cases heq'
    exact ⟨rfl, rfl⟩

/-- An answer that would be sent if there were requests for it. -/
theorem allows_of_sent {packetId : ℤ} {name : String} {t : Ty} {packet : Loc → ℤ} {err : Err}
    {reply : List UInt8}
    (hsent : ∀ v : World App, v.app.net.Ample → ∃ v',
      sendPacket build config false packetId name t packet v = some (.noError, v') ∧
        Sent v reply v')
    (h : sendPacket build config false packetId name t packet w = some (err, w')) :
    (Verdict.accepted w.app.state (some reply)).Allows w w' := by
  rcases hsent { w with app := { w.app with net := Net.initial none } } ⟨rfl, rfl⟩ with
    ⟨v, hsend, hv⟩
  rcases sendPacket_asked h hsend with ⟨hasked, hstate⟩
  exact Or.inr ⟨_, _, rfl, hstate, hasked.trans hv.asked⟩

theorem dispatchPacket_status_allows (hconfig : SendsStatus config)
    (hstate : w.app.state = PROTOCOL_STATUS) {payload : List UInt8}
    (hlength : payload.length < 2 ^ 31)
    (h : dispatchPacket build config false payload payload.length w = some (.noError, w')) :
    (statusVerdict payload).Allows w w' := by
  have hcall := dispatchPacket_status build config hstate hlength
  rw [h] at hcall
  rw [statusVerdict, ← hstate]
  generalize hresult : some (Err.noError, w') = result at hcall
  cases hcall with
  | unknown | misread => cases hresult
  | @serverInfo s hreply =>
      rcases Option.map_eq_some_iff.mp hresult.symm with ⟨⟨err, v⟩, hsend, heq⟩
      cases heq
      rw [hreply]
      have hallowed := allows_of_sent (fun v hv =>
        sendStatusPacketServerInfo_encode build hconfig hv) hsend
      exact hallowed
  | @pong s body hbody hreply =>
      rcases Option.map_eq_some_iff.mp hresult.symm with ⟨⟨err, v⟩, hsend, heq⟩
      cases heq
      rw [hreply]
      have hallowed := allows_of_sent (fun v hv =>
        sendStatusPacketPong_encode build hconfig hv hbody) hsend
      exact hallowed

theorem dispatchTyped_refuses {name : String} {t : Ty} {process : (Loc → ℤ) → World App → Err}
    (hprocess : ∀ packet w, process packet w ≠ .noError) {data : List UInt8} {size : ℤ} :
    dispatchTyped build name t (fun packet w => some (process packet w, w)) data size w ≠
      some (.noError, w') := by
  intro h
  rw [dispatchTyped_eq] at h
  split at h
  · cases h
  · rename_i readSize s _
    rcases Option.map_eq_some_iff.mp h with ⟨⟨err, w''⟩, hresult, heq⟩
    rw [Prod.mk.injEq] at heq
    split at hresult
    · cases hresult
      cases heq.1
    · rw [Option.some_inj, Prod.mk.injEq] at hresult
      exact hprocess _ _ (hresult.1.trans heq.1)

theorem verdict_status (payload : List UInt8) :
    verdict PROTOCOL_STATUS payload = statusVerdict payload := by
  rw [verdict]
  cases hsplit : Base128.split 5 payload with
  | none => rw [statusVerdict, statusReply, hsplit]
  | some parts =>
      dsimp only
      rw [if_neg (by decide), if_pos rfl]

variable (build config) in
/-- The calls of `dispatch_packet`. A packet is refused at once or after it is read, or its verdict
is that of its reader and its handler. -/
inductive PacketCall (w : World App) (payload : List UInt8) : Option (Err × World App) → Prop where
  | unknown : verdict w.app.state payload = .refused → PacketCall w payload (some (.protocol, w))
  | lost : PacketCall w payload (some (.checkFailed, w))
  | setProtocol {body} : w.app.state = PROTOCOL_HANDSHAKING → body.length ≤ payload.length →
      verdict w.app.state payload =
        verdictOf Packets.handshakingSetProtocol setProtocolVerdict body →
      PacketCall w payload (dispatchHandshakingPacketSetProtocol build body body.length w)
  | pingStart {body} : w.app.state = PROTOCOL_STATUS → body.length ≤ payload.length →
      PacketCall w payload (dispatchStatusPacketPingStart build config false body body.length w)
  | ping {body} : w.app.state = PROTOCOL_STATUS → body.length ≤ payload.length →
      PacketCall w payload (dispatchStatusPacketPing build config false body body.length w)
  | loginStart {body} : w.app.state = PROTOCOL_LOGIN → body.length ≤ payload.length →
      verdict w.app.state payload =
        verdictOf Packets.loginStart (fun _ => .accepted PROTOCOL_LOGIN none) body →
      PacketCall w payload (dispatchLoginPacketLoginStart build body body.length w)
  | unhandled {name : String} {t : Ty} {process : (Loc → ℤ) → World App → Err} {body} :
      (∀ packet w, process packet w ≠ .noError) → verdict w.app.state payload = .refused →
      PacketCall w payload
        (dispatchTyped build name t (fun packet w => some (process packet w, w)) body body.length w)

variable (build config) in
theorem dispatchPacket_call {payload : List UInt8} (hlength : payload.length < 2 ^ 31) :
    PacketCall build config w payload
      (dispatchPacket build config false payload payload.length w) := by
  have hread := protocolReadVarint_split payload (w.app.surroundings 0).beyond
  rw [dispatchPacket]
  cases hsplit : Base128.split 5 payload with
  | none =>
      rw [hsplit] at hread
      simp only [hread]
      exact .unknown (by rw [verdict, hsplit])
  | some parts =>
      rw [hsplit] at hread
      rcases parts with ⟨id, body⟩
      rcases hread with ⟨hpayload, hread⟩
      have hbody : body.length ≤ payload.length := by
        rw [hpayload, List.length_append]
        omega
      have hleft : toInt32 ((payload.length : ℤ) - (id.length : ℕ)) = (body.length : ℕ) := by
        rw [hpayload, List.length_append] at hlength
        rw [hpayload, List.length_append, toInt32_of_range (by omega) (by omega)]
        omega
      have hrest : payload.drop id.length = body := by rw [hpayload, List.drop_left]
      have hret : ((id.length : ℕ) : ℤ) ≥ 0 := by omega
      simp only [hread, Int.toNat_natCast, hrest, hleft]
      rw [if_neg (not_not.mpr hret)]
      have hverdict := verdict.eq_def w.app.state payload
      rw [hsplit] at hverdict
      dsimp only at hverdict
      by_cases hhandshaking : w.app.state = PROTOCOL_HANDSHAKING
      · rw [if_pos hhandshaking] at hverdict ⊢
        split
        · rename_i hid
          rw [if_pos hid] at hverdict
          exact .setProtocol hhandshaking hbody hverdict
        · rename_i hid
          rw [if_neg hid] at hverdict
          exact .unknown hverdict
      · rw [if_neg hhandshaking] at hverdict ⊢
        by_cases hstatus : w.app.state = PROTOCOL_STATUS
        · rw [if_pos hstatus] at hverdict ⊢
          split
          · exact .pingStart hstatus hbody
          · rename_i hzero
            split
            · exact .ping hstatus hbody
            · rename_i hone
              refine .unknown (hverdict.trans ?_)
              simp [statusVerdict, statusReply, hsplit, hzero, hone]
        · rw [if_neg hstatus] at hverdict ⊢
          by_cases hlogin : w.app.state = PROTOCOL_LOGIN
          · rw [if_pos hlogin] at hverdict ⊢
            split
            · rename_i hid
              rw [if_pos hid] at hverdict
              exact .loginStart hlogin hbody hverdict
            · rename_i hid
              rw [if_neg hid] at hverdict
              split
              · exact .unhandled (fun _ _ => by decide) hverdict
              · split
                · exact .unhandled (fun _ _ => by decide) hverdict
                · exact .unknown hverdict
          · rw [if_neg hlogin]
            exact .lost

/-- A packet that is accepted gets what its verdict says. -/
theorem dispatchPacket_allows (hsizeof : ∀ t, build.sizeof t < 2 ^ 32)
    (hconfig : SendsStatus config) {payload : List UInt8} (hlength : payload.length < 2 ^ 31)
    (h : dispatchPacket build config false payload payload.length w = some (.noError, w')) :
    (verdict w.app.state payload).Allows w w' := by
  by_cases hstatus : w.app.state = PROTOCOL_STATUS
  · rw [hstatus, verdict_status]
    exact dispatchPacket_status_allows hconfig hstatus hlength h
  · have hcall := dispatchPacket_call build config (w := w) hlength
    rw [h] at hcall
    generalize hresult : some (Err.noError, w') = result at hcall
    cases hcall with
    | unknown | lost => cases hresult
    | pingStart hstate | ping hstate => exact absurd hstate hstatus
    | setProtocol _ hbody hverdict =>
        rw [hverdict]
        refine dispatchTyped_allows hsizeof
          (readable_toServer build.rnd 0 (by simp [Packets.handshakingToServer]))
          (corresponds_setProtocol _ _) ?_ (by omega) hresult.symm
        intro packet packet' v v' _ hsame hprocess
        exact processHandshakingPacketSetProtocol_allows hsame (Option.some_inj.mp hprocess)
    | loginStart hlogin hbody hverdict =>
        rw [hverdict]
        refine dispatchTyped_allows hsizeof
          (readable_toServer build.rnd 0 (by simp [Packets.loginToServer]))
          (corresponds_loginStart _ _) ?_ (by omega) hresult.symm
        intro packet packet' v v' hstate _ hprocess
        cases hprocess
        exact Or.inr ⟨_, _, rfl, hstate.trans hlogin, (List.append_nil _).symm⟩
    | unhandled hprocess _ => exact absurd hresult.symm (dispatchTyped_refuses hprocess)

end

/-! ## Dialogues -/

/-- What became of a client: its phase and its answers, as long as no packet was refused. -/
inductive Dialogue where
  | going (state : ℤ) (replies : List (List UInt8))
  | refused
  | unspecified
  deriving DecidableEq, Repr

namespace Dialogue

def deliver (payload : List UInt8) : Dialogue → Dialogue
  | going state replies =>
      match verdict state payload with
      | .accepted state reply => going state (replies ++ reply.toList)
      | .refused => refused
      | .unspecified => unspecified
  | c => c

def Refused (c : Dialogue) : Prop := c = refused

instance : DecidablePred Refused := fun c => inferInstanceAs (Decidable (c = refused))

end Dialogue

/-- The dialogue over the bytes of a client. -/
def dialogue (bytes : List UInt8) : State UInt8 Dialogue :=
  run frameSize Dialogue.deliver Dialogue.Refused
    ⟨.header, [], .going PROTOCOL_HANDSHAKING []⟩ bytes

theorem dialogue_append (bytes more : List UInt8) :
    dialogue (bytes ++ more) =
      run frameSize Dialogue.deliver Dialogue.Refused (dialogue bytes) more :=
  run_append ..

def repliesTo (client : ClientId) (asked : List SendCall) : List (List UInt8) :=
  (asked.filter fun call => call.client = client).map SendCall.packet

theorem repliesTo_append (client : ClientId) (asked calls : List SendCall) :
    repliesTo client (asked ++ calls) = repliesTo client asked ++ repliesTo client calls := by
  rw [repliesTo, List.filter_append, List.map_append]
  rfl

theorem repliesTo_self (client : ClientId) (packets : List (List UInt8)) :
    repliesTo client (packets.map fun packet => ⟨client, packet⟩) = packets := by
  simp [repliesTo, List.filter_map, List.map_map, Function.comp_def]

theorem repliesTo_others {client : ClientId} {calls : List SendCall}
    (h : ∀ call ∈ calls, call.client ≠ client) : repliesTo client calls = [] := by
  rw [repliesTo, List.filter_eq_nil_iff.mpr (by simpa using h), List.map_nil]

/-- The phase of a client and the packets for it are those of a dialogue. -/
def Dialogue.Describes (c : Dialogue) (client : ClientId) (state : ℤ) (asked : List SendCall) :
    Prop :=
  c = .unspecified ∨ c = .going state (repliesTo client asked)

section

variable {build : Build} {config : ServerConfig}

theorem dispatcher_consumes (hsizeof : ∀ t, build.sizeof t < 2 ^ 32) (hconfig : SendsStatus config)
    (client : ClientId) :
    Consumes (dispatcher build config false) Dialogue.deliver Dialogue.Refused
      (fun app c => app.client = client ∧ c.Describes client app.state app.asked)
      fun _ _ _ => True where
  active := by
    rintro app c ⟨-, rfl | rfl⟩ hrefused
    · cases hrefused
    · cases hrefused
  accepted := by
    rintro payload w w' c ⟨hclient, hdescribes⟩ hlength hcall
    have hsame := (dispatcher_effect build config payload payload.length w).client
    rw [hcall] at hsame
    refine ⟨hsame.trans hclient, ?_⟩
    rcases hdescribes with rfl | rfl
    · exact Or.inl rfl
    · rw [dispatcher] at hcall
      cases hresult : dispatchPacket build config false payload payload.length w with
      | none =>
          rw [hresult] at hcall
          cases hcall
      | some result =>
          rw [hresult, Option.getD_some] at hcall
          rw [hcall] at hresult
          rcases dispatchPacket_allows hsizeof hconfig (by omega) hresult with
            hunspecified | ⟨state, reply, haccepted, hstate, hasked⟩
          · rw [Dialogue.deliver, hunspecified]
            exact Or.inl rfl
          · rw [hclient] at hasked
            have hreplies := repliesTo_append client w.app.asked
              (reply.toList.map fun packet => ⟨client, packet⟩)
            rw [repliesTo_self, ← hasked] at hreplies
            rw [Dialogue.deliver, haccepted, hstate]
            exact Or.inr (by rw [hreplies])
  refused := fun _ _ _ _ => trivial

end

end CmcServer
