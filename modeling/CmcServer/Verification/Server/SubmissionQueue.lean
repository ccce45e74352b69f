import CmcServer.Verification.Dispatch.Phases
import CmcServer.Verification.Dispatch.Status
import CmcServer.Verification.Server.Steps

/-! # The submission queue

The entries that a step asks for, counted in the bytes that it handles, and that the queue has room
for them. -/

namespace CmcServer

open Deframer ReceiverState Runs

/-! ## Entries that are asked for -/

namespace Net

variable {net₀ net net' : Net} {limit k n : ℕ} {content : Request} {op : Op} {err : Err}

/-- Of `n` requests, those that are found: without memory they come from the pool. -/
def found (net : Net) (n : ℕ) : ℕ := if net.calloc then n else min n net.requestsPool.length

theorem found_mono (h : k ≤ n) : net.found k ≤ net.found n := by
  rw [found, found]
  split <;> omega

/-- A queue of `limit` entries has some for `n` more requests. -/
def HasRoom (limit : ℕ) (net : Net) (n : ℕ) : Prop := net.queue.length + net.found n ≤ limit

instance : Decidable (HasRoom limit net n) := inferInstanceAs (Decidable (_ ≤ _))

theorem HasRoom.mono (h : HasRoom limit net n) (hle : k ≤ n) : HasRoom limit net k :=
  (Nat.add_le_add_left (found_mono hle) _).trans h

/-- The queue has `limit` entries, and no request was refused one. -/
structure NeverFull (limit : ℕ) (net : Net) : Prop where
  entries : net.entries = some limit
  fits : net.queue.length ≤ limit
  refused : ∀ type errno, .noSqe type errno ∉ net.refused

/-- The queue has `limit` entries. -/
structure Limited (limit : ℕ) (net : Net) : Prop where
  entries : net.entries = some limit
  fits : net.queue.length ≤ limit

theorem NeverFull.limited (h : NeverFull limit net) : Limited limit net := ⟨h.entries, h.fits⟩

/-- The requests after at most `k` more than there were in `net₀`, none of which was refused an
entry. -/
structure Asked (limit : ℕ) (net₀ : Net) (k : ℕ) (net : Net) : Prop extends
    Limited limit net where
  refused : ∀ type errno,
    net.refused.count (.noSqe type errno) = net₀.refused.count (.noSqe type errno)
  calloc : net₀.calloc = net.calloc
  queue : net.queue.length ≤ net₀.queue.length + k
  pool : net.calloc = false → net.queue.length + net.requestsPool.length ≤
    net₀.queue.length + net₀.requestsPool.length

theorem Issue.limited (hissue : Issue content op net err net') (h : Limited limit net) :
    Limited limit net' := by
  cases hissue with
  | noRequest | noSqe => exact ⟨h.entries, h.fits⟩
  | queued _ hfree =>
      have hlt : net.queue.length < limit := by
        simpa [isFull, h.entries] using hfree
      refine ⟨h.entries, ?_⟩
      dsimp only
      rw [List.length_append]
      exact hlt

theorem Limited.asked (h : Limited limit net) : Asked limit net 0 net where
  toLimited := h
  refused := fun _ _ => rfl
  calloc := rfl
  queue := le_refl _
  pool := fun _ => le_refl _

theorem Asked.neverFull (h : Asked limit net₀ k net) (h₀ : NeverFull limit net₀) :
    NeverFull limit net where
  entries := h.entries
  fits := h.fits
  refused := by
    intro type errno hmem
    have hcount := h.refused type errno
    rw [List.count_eq_zero_of_not_mem (h₀.refused type errno)] at hcount
    exact List.count_eq_zero.mp hcount hmem

theorem Asked.mono (h : Asked limit net₀ k net) (hle : k ≤ n) : Asked limit net₀ n net :=
  { h with queue := h.queue.trans (Nat.add_le_add_left hle _) }

/-- One more request gets its entry. -/
theorem Asked.issue (h : Asked limit net₀ k net) (hroom : HasRoom limit net₀ (k + 1))
    (hissue : Issue content op net err net') : Asked limit net₀ (k + 1) net' := by
  have hqueue := h.queue
  have hlimited := hissue.limited h.toLimited
  cases hissue with
  | noRequest hpool hcalloc =>
      refine ⟨hlimited, ?_, h.calloc, Nat.le_succ_of_le hqueue, h.pool⟩
      intro type errno
      rw [← h.refused type errno, refuse, List.count_append]
      exact Nat.add_eq_left.mpr (List.count_eq_zero_of_not_mem (by simp))
  | @noSqe id pool made hgot hfull =>
      exfalso
      have hle : limit ≤ net.queue.length := by
        simpa [isFull, h.entries] using hfull
      rw [HasRoom, found, h.calloc] at hroom
      cases hgot with
      | reused hpool =>
          cases hcalloc : net.calloc with
          | false =>
              have hsum := h.pool hcalloc
              rw [hpool, List.length_cons] at hsum
              rw [hcalloc, if_neg (by decide)] at hroom
              omega
          | true =>
              rw [hcalloc, if_pos rfl] at hroom
              omega
      | fresh _ hcalloc =>
          rw [hcalloc, if_pos rfl] at hroom
          omega
  | @queued id pool made hgot hfree =>
      refine ⟨hlimited, h.refused, h.calloc, ?_, ?_⟩
      · simpa [← Nat.add_assoc] using hqueue
      · intro hcalloc
        have hcalloc' : net.calloc = false := hcalloc
        have hsum := h.pool hcalloc'
        cases hgot with
        | reused hpool =>
            rw [hpool, List.length_cons] at hsum
            simp only [got, List.length_append, List.length_singleton]
            omega
        | fresh _ hmemory => cases hcalloc'.symm.trans hmemory

end Net

/-! ## Chunks -/

section

variable (build : Build) (config : ServerConfig)

/-- The entries that a packet asks for, next to those of the packets before it: one for an answer.
Outside of the status phase the packet is dispatched, which asks for nothing. -/
def askFor (payload : List UInt8) (length : ℤ) (state : App × ℕ) : Err × App × ℕ :=
  if state.1.state = PROTOCOL_STATUS then
    match fittingReply config payload with
    | none => (.protocol, state)
    | some _ => (.noError, state.1, state.2 + 1)
  else
    let (err, w) := dispatcher build config false payload length ⟨BufferPools.initial, state.1⟩
    (err, w.app, state.2)

/-- Where a receiver is in the bytes of its client. -/
def resumed (rs : ReceiverState) (w : World App) : State UInt8 (Session (App × ℕ)) :=
  match rs.held with
  | none => ⟨.header, [], ⟨.noError, (w.app, 0), []⟩⟩
  | some b =>
      let n := rs.packetLength.toNat
      ⟨.payload n (w.pools.contents b (n - rs.leftToRead)), [n], ⟨.noError, (w.app, 0), []⟩⟩

/-- Whether the payload that is received fits its buffer. -/
def Receivable (s : State UInt8 (Session (App × ℕ))) : Prop :=
  match s.phase with
  | .header => True
  | .payload n _ => n ≤ config.maxRecvPacketSize

instance (s : State UInt8 (Session (App × ℕ))) : Decidable (Receivable config s) := by
  unfold Receivable
  split <;> infer_instance

/-- The entries that the packets in a chunk ask for. -/
def answersFor (rs : ReceiverState) (w : World App) (data : List UInt8) : ℕ :=
  (deframe (askFor build config) (resumed rs w) data).consumer.state.2

def entriesFor (rs : ReceiverState) (w : World App) (data : List UInt8) : ℕ :=
  let after := deframe (askFor build config) (resumed rs w) data
  after.consumer.state.2 +
    if after.consumer.err = .noError ∧ Receivable config after then 1 else 0

variable {build config} {limit : ℕ}

theorem answersFor_le (rs : ReceiverState) (w : World App) (data : List UInt8) :
    answersFor build config rs w data ≤ entriesFor build config rs w data := Nat.le_add_right _ _

theorem resumed_consumer (rs : ReceiverState) (w : World App) :
    (resumed rs w).consumer = ⟨.noError, (w.app, 0), []⟩ := by
  rw [resumed]
  split <;> rfl

theorem atPhase_resumed {rs : ReceiverState} {w : World App} (h : Resumable config rs) :
    AtPhase rs w.pools [] (resumed rs w) := by
  rcases h with hidle | ⟨hreceiving, hline⟩
  · rw [resumed, hidle.held]
    exact ⟨hidle, rfl⟩
  · rcases hreceiving.held with ⟨b, hpacket, hheld⟩
    have hpos := hreceiving.leftToRead_pos
    have hle := hreceiving.leftToRead_le
    have hlt := hreceiving.packetLength_lt
    rw [resumed, hheld]
    have hlength : (w.pools.contents b (rs.packetLength.toNat - rs.leftToRead)).length =
        rs.packetLength.toNat - rs.leftToRead := contents_length _ _ _
    refine ⟨?_, rfl⟩
    exact {
      shouldReturn := hreceiving.shouldReturn
      varintCurrentByte := hreceiving.varintCurrentByte
      compression := hreceiving.compression
      encryption := hreceiving.encryption
      packetLength := by omega
      leftToRead := by omega
      size_lt := by omega
      got_lt := by omega
      buffer := ⟨b, hpacket, by rw [hlength]⟩
      line := hline }

/-- The packets before a packet asked for no more than those up to it. -/
theorem entries_le_run (s : State UInt8 (Session (App × ℕ))) (data : List UInt8) :
    s.consumer.state.2 ≤ (deframe (askFor build config) s data).consumer.state.2 := by
  refine consumer_run frameSize (Session.deliver (askFor build config)) Session.Halted
    (r := fun c c' => c.state.2 ≤ c'.state.2) (fun _ => le_refl _) le_trans ?_ s data
  intro payload c
  rw [Session.deliver, askFor]
  split
  · split
    · exact le_refl _
    · exact Nat.le_succ _
  · exact le_refl _

/-- A client after the packets of a session, which asked for as many entries as were counted. -/
structure Counted (limit : ℕ) (net₀ : Net) (app : App) (c : Session (App × ℕ)) : Prop where
  active : c.err = .noError
  state : app.state = c.state.1.state
  same : app.state ≠ PROTOCOL_STATUS → app = c.state.1
  asked : Net.HasRoom limit net₀ c.state.2 → Net.Asked limit net₀ c.state.2 app.net

theorem askFor_answer {payload reply : List UInt8} {length : ℤ} {state : App × ℕ}
    (hstate : state.1.state = PROTOCOL_STATUS) (hreply : fittingReply config payload = some reply) :
    askFor build config payload length state = (.noError, state.1, state.2 + 1) := by
  rw [askFor, if_pos hstate, hreply]

theorem askFor_refused {payload : List UInt8} {length : ℤ} {state : App × ℕ}
    (hstate : state.1.state = PROTOCOL_STATUS) (hreply : fittingReply config payload = none) :
    askFor build config payload length state = (.protocol, state) := by
  rw [askFor, if_pos hstate, hreply]

theorem askFor_quiet {payload : List UInt8} {length : ℤ} {state : App × ℕ} {pools : BufferPools}
    {err : Err} {app : App} (hstate : state.1.state ≠ PROTOCOL_STATUS)
    (h : dispatcher build config false payload length ⟨BufferPools.initial, state.1⟩ =
      (err, ⟨pools, app⟩)) :
    askFor build config payload length state = (err, app, state.2) := by
  rw [askFor, if_neg hstate, h]

/-- A call of `dispatch_packet` sends at most one packet. -/
theorem asked_dispatcher {net₀ : Net} {k : ℕ} {payload : List UInt8} {length : ℤ} {w w' : World App}
    {err : Err} (h : Net.Asked limit net₀ k w.app.net) (hroom : Net.HasRoom limit net₀ (k + 1))
    (hcall : dispatcher build config false payload length w = (err, w')) :
    Net.Asked limit net₀ (k + 1) w'.app.net := by
  have hwork := (dispatcher_effect build config payload length w).work
  rw [hcall] at hwork
  cases hwork with
  | kept _ hnet _ | unwritten _ _ _ hnet _ =>
      rw [hnet]
      exact h.mono (Nat.le_succ k)
  | issued _ _ _ _ hissue _ _ => exact h.issue hroom hissue

/-- A client stays in the status phase. -/
theorem dispatcher_status {payload : List UInt8} {length : ℤ} {w w' : World App} {err : Err}
    (hstate : w.app.state = PROTOCOL_STATUS)
    (hcall : dispatcher build config false payload length w = (err, w')) :
    w'.app.state = PROTOCOL_STATUS := by
  have hphase := phaseCall_dispatcher (Or.inr (Or.inl hstate)) hcall
  by_contra hchanged
  have hbefore : w.app.state = PROTOCOL_HANDSHAKING := by
    refine (hphase.changed ?_).1
    dsimp only
    rwa [hstate]
  rw [hstate] at hbefore
  cases hbefore

theorem Counted.call {net₀ : Net} {w w' : World App} {c : Session (App × ℕ)}
    {payload : List UInt8} {err : Err} (h : Counted limit net₀ w.app c)
    (hlength : payload.length < 128)
    (hcall : dispatcher build config false payload payload.length w = (err, w')) :
    let c' := c.deliver (askFor build config) payload
    (err = .noError → Counted limit net₀ w'.app c') ∧
      (Net.HasRoom limit net₀ c'.state.2 → Net.Asked limit net₀ c'.state.2 w'.app.net) := by
  by_cases hstatus : w.app.state = PROTOCOL_STATUS
  · have hstate : c.state.1.state = PROTOCOL_STATUS := h.state.symm.trans hstatus
    cases hreply : fittingReply config payload with
    | none =>
        have hrefused := dispatcher_refuses build config hstatus (by omega) hreply
        rw [hcall] at hrefused
        rw [Session.deliver, askFor_refused hstate hreply]
        refine ⟨?_, ?_⟩
        · rintro rfl
          cases hrefused.1
        · rw [hrefused.2]
          exact h.asked
    | some reply =>
        have hafter := dispatcher_status hstatus hcall
        have hasked : Net.HasRoom limit net₀ (c.state.2 + 1) →
            Net.Asked limit net₀ (c.state.2 + 1) w'.app.net :=
          fun hroom => asked_dispatcher (h.asked (hroom.mono (Nat.le_succ _))) hroom hcall
        rw [Session.deliver, askFor_answer hstate hreply]
        refine ⟨fun _ => ⟨rfl, ?_, fun hne => absurd hafter hne, hasked⟩, hasked⟩
        rw [hafter, hstate]
  · have hsame := h.same hstatus
    rcases dispatcher_quiet build config hstatus payload payload.length with
      ⟨err', app', hresult, hnet, -⟩
    have hworld := hresult w.pools
    rw [hcall] at hworld
    cases hworld
    have hpure := hresult BufferPools.initial
    rw [hsame] at hpure
    rw [Session.deliver, askFor_quiet (by rwa [← hsame]) hpure]
    dsimp only
    rw [hnet]
    exact ⟨fun hok => ⟨hok, rfl, fun _ => rfl, by rw [hnet]; exact h.asked⟩, h.asked⟩

variable (build config) in
theorem counted_consumes (limit : ℕ) (net₀ : Net) :
    Consumes (dispatcher build config false) (Session.deliver (askFor build config)) Session.Halted
      (Counted limit net₀) fun _ app c =>
        Net.HasRoom limit net₀ c.state.2 → Net.Asked limit net₀ c.state.2 app.net where
  active := fun h hhalt => hhalt h.active
  accepted := fun h hlength hcall => (h.call hlength hcall).1 rfl
  refused := fun h hlength hcall _ => (h.call hlength hcall).2

theorem receivable_of_atPhase {rs : ReceiverState} {pools : BufferPools} {done : List ℕ}
    {s : State UInt8 (Session (App × ℕ))} (hphase : AtPhase rs pools done s)
    (hrs : Resumable config rs) : Receivable config s := by
  rw [AtPhase] at hphase
  rw [Receivable]
  cases hs : s.phase with
  | header => trivial
  | payload n got =>
      rw [hs] at hphase
      rcases hphase with ⟨hfilling, -⟩
      rcases hrs with hidle | ⟨hreceiving, -⟩
      · cases hidle.shouldReturn.symm.trans hfilling.shouldReturn
      · have hle := hreceiving.packetLength_le
        rw [hfilling.packetLength] at hle
        exact_mod_cast hle

/-- A chunk asks for no more entries than were counted, and leaves one for the next chunk. -/
theorem consume_asked {rs rs' : ReceiverState} {w w' : World App} {data : List UInt8} {err : Err}
    (hrs : Resumable config rs) (hw : w.app.net.Limited limit)
    (hroom : w.app.net.HasRoom limit (answersFor build config rs w data))
    (hresult : consume build config rs w data = (err, rs', w')) :
    ∃ k, Net.Asked limit w.app.net k w'.app.net ∧ k ≤ entriesFor build config rs w data ∧
      (err = .noError → k + 1 ≤ entriesFor build config rs w data) := by
  have hstart : Counted limit w.app.net w.app (resumed rs w).consumer := by
    rw [resumed_consumer]
    exact ⟨rfl, rfl, fun _ => rfl, fun _ => hw.asked⟩
  have hfollows := receiverConsumeData_follows config data
    (counted_consumes build config limit w.app.net) hstart (atPhase_resumed hrs)
  have hlaw : DispatchLaw (dispatcher build config false) (fun _ => True) fun _ => True :=
    ⟨fun _ _ _ => trivial, fun _ _ _ _ _ => ⟨trivial, trivial⟩⟩
  have hresumable : Resumable config rs' := by
    have hcall := (hlaw.receiverConsumeData (w := w) hrs trivial data).2.1
    rw [consume, hrs.plain.compression] at hresult
    rwa [hresult] at hcall
  rw [consume, hrs.plain.compression] at hresult
  rw [hresult] at hfollows
  rw [answersFor] at hroom
  rw [entriesFor]
  by_cases hok : err = .noError
  · rcases hfollows.1 hok with ⟨hcounted, done, hphase⟩
    refine ⟨_, hcounted.asked hroom, Nat.le_add_right _ _, fun _ => ?_⟩
    rw [if_pos ⟨hcounted.active, receivable_of_atPhase hphase hresumable⟩]
  · rcases hfollows.2 hok with ⟨s', rest, hrun, hfails⟩
    have hle : s'.consumer.state.2 ≤
        (deframe (askFor build config) (resumed rs w) data).consumer.state.2 := by
      rw [deframe, hrun]
      exact entries_le_run s' rest
    have hroom' := hroom.mono hle
    refine ⟨s'.consumer.state.2, ?_, hle.trans (Nat.le_add_right _ _), fun h => absurd h hok⟩
    rcases hfails with ⟨-, hcounted⟩ | hasked
    · exact hcounted.asked hroom'
    · exact hasked hroom'

end

/-! ## Steps -/

namespace Server

variable {build : Build} {config : ServerConfig} {s t : Server}

section

variable (build : Build) (config : ServerConfig)

/-- The entries that the handling of a request asks for. An accept is asked for again, behind the
recv of its client. -/
def entriesOf (s : Server) (request : Request) (cqe : Completion) (now : Conditions) : ℕ :=
  match request with
  | .accept => if cqe.res < 0 then 0 else 2
  | .recv client =>
      if cqe.res ≤ 0 then 0
      else entriesFor build config (s.client client).receiverState (clientWorld client now s)
        cqe.received
  | .send _ _ _ _ => 0

/-- The queue has room for the entries that a step asks for. -/
def StepHasRoom (s : Server) : Event → Prop
  | .submit => True
  | .complete cqe now =>
      let s := { s with net := { s.net with errno := now.errno, calloc := now.calloc } }
      s.net.HasRoom (ringEntries config)
        (entriesOf build config s (s.net.requests cqe.userData) cqe now)

instance (s : Server) (event : Event) : Decidable (StepHasRoom build config s event) :=
  match event with
  | .submit => inferInstanceAs (Decidable True)
  | .complete _ _ => inferInstanceAs (Decidable (Net.HasRoom _ _ _))

end

/-- The entries that a handler asked for fit. -/
theorem Handled.neverFull {cqe : Completion} {now : Conditions} {request : Request}
    (hhandled : Handled build config s cqe now request t)
    (hrs : ∀ client, Resumable config (s.client client).receiverState)
    (h : s.net.NeverFull (ringEntries config))
    (hroom : s.net.HasRoom (ringEntries config) (entriesOf build config s request cqe now)) :
    t.net.NeverFull (ringEntries config) := by
  cases hhandled with
  | refused | closed | unsent | sent => exact h
  | unarmed hres hrecv _ =>
      rw [entriesOf, if_neg (not_lt.mpr hres)] at hroom
      exact (h.limited.asked.issue (hroom.mono (by decide)) hrecv).neverFull h
  | connected hres hrecv haccept =>
      rw [entriesOf, if_neg (not_lt.mpr hres)] at hroom
      have hone := h.limited.asked.issue (hroom.mono (by decide)) hrecv
      exact (hone.issue hroom haccept).neverFull h
  | @rejected client u hres hresult =>
      rw [entriesOf, if_neg (not_le.mpr hres)] at hroom
      rcases receive_cases hresult with ⟨rs, w, hconsume, rfl⟩
      rcases consume_asked (hrs client) h.limited (hroom.mono (answersFor_le _ _ _)) hconsume with
        ⟨k, hasked, -, -⟩
      exact hasked.neverFull h
  | @failed client err u hres hresult _ _ =>
      rw [entriesOf, if_neg (not_le.mpr hres)] at hroom
      rcases receive_cases hresult with ⟨rs, w, hconsume, rfl⟩
      rcases consume_asked (hrs client) h.limited (hroom.mono (answersFor_le _ _ _)) hconsume with
        ⟨k, hasked, -, -⟩
      exact hasked.neverFull h
  | @received client u err net hres hresult hrecv =>
      rw [entriesOf, if_neg (not_le.mpr hres)] at hroom
      rcases receive_cases hresult with ⟨rs, w, hconsume, rfl⟩
      rcases consume_asked (hrs client) h.limited (hroom.mono (answersFor_le _ _ _)) hconsume with
        ⟨k, hasked, -, hmore⟩
      exact (hasked.issue (hroom.mono (hmore rfl)) hrecv).neverFull h

theorem neverFull_finish {limit : ℕ} (id : RequestId) (h : s.net.NeverFull limit) :
    (finish id s).net.NeverFull limit := by
  rw [finish]
  split
  · exact ⟨h.entries, h.fits, h.refused⟩
  · exact h

/-- A step for which the queue has room gets all the entries that it asks for. -/
theorem step_neverFull {event : Event} (hregular : Regular config s.kernel s)
    (h : s.net.NeverFull (ringEntries config)) (hstep : step build config s event = some t)
    (hroom : StepHasRoom build config s event) : t.net.NeverFull (ringEntries config) := by
  cases event with
  | submit =>
      cases (step_cases hstep).2
      exact ⟨h.entries, Nat.zero_le _, h.refused⟩
  | complete cqe now =>
      rcases complete_cases hregular hstep with ⟨sqe, u, hcompletes, rfl⟩
      have hhandled := hcompletes.handled
      rw [hcompletes.user] at hhandled
      apply neverFull_finish
      exact hhandled.neverFull hregular.resumable ⟨h.entries, h.fits, h.refused⟩ hroom

theorem neverFull_start (config : ServerConfig) (start₁ start₂ errno : ℕ) (calloc : Bool) :
    (start config start₁ start₂ errno calloc).net.NeverFull (ringEntries config) := by
  set net : Net := { Net.initial (some (ringEntries config)) with errno, calloc }
  have hnet : net.NeverFull (ringEntries config) :=
    ⟨rfl, Nat.zero_le _, fun _ _ => List.not_mem_nil⟩
  have hroom : net.HasRoom (ringEntries config) 1 := by
    have hpos : 0 < ringEntries config :=
      Nat.pos_of_isPowerOfTwo (Nat.isPowerOfTwo_nextPowerOfTwo (config.maxConnections + 1))
    have hfound : net.found 1 ≤ 1 := by
      rw [Net.found]
      split <;> omega
    exact (Nat.zero_add _).trans_le (hfound.trans hpos)
  exact (hnet.limited.asked.issue hroom (Net.addAccept_issue net)).neverFull hnet

/-- Every request gets its sqe in a run of which each step finds room in the queue for the entries
that it asks for: one for each answer to the packets that it receives, one for the next chunk of
their client, and two for a new client. -/
theorem queue_never_full {start₁ start₂ errno : ℕ} {calloc : Bool}
    {trace : List (Transition Server Event)}
    (h : Run (step build config) (start config start₁ start₂ errno calloc) trace t)
    (hroom : ∀ x ∈ trace, StepHasRoom build config x.pre x.event) :
    ∀ x ∈ trace, x.post.net.NeverFull (ringEntries config) := by
  intro x hx
  have hlaw := run_law (P := fun s => s.net.NeverFull (ringEntries config)) h (neverFull_start ..)
    (fun _ _ _ hregular hs hstep hok => step_neverFull hregular hs hstep hok) hroom x hx
  exact hlaw.2.2

/-- A client that sends one status request at a time, in a queue of two entries. -/
theorem queue_never_full_ping :
    let trace := played smallConfig [.submit, ended 0 5, .submit, chunk 1 (handshake ++ ping),
      .submit, ended 0 10, chunk 3 ping]
    ∃ t, Run (step someBuild smallConfig) (start smallConfig 0x100000000 0x200000000 0 true)
        trace t ∧
      ∀ x ∈ trace, x.post.net.NeverFull (ringEntries smallConfig) := by
  rcases run_played smallConfig [.submit, ended 0 5, .submit, chunk 1 (handshake ++ ping), .submit,
    ended 0 10, chunk 3 ping] with ⟨t, hrun⟩
  refine ⟨t, hrun, queue_never_full hrun ?_⟩
  decide +kernel

/-- Two pings in a chunk take both entries, and there is none for the next chunk. -/
theorem queue_full :
    ¬ ∀ build config start₁ start₂ errno calloc trace t,
      Run (step build config) (start config start₁ start₂ errno calloc) trace t →
        ∀ x ∈ trace, x.post.net.NeverFull (ringEntries config) := by
  intro h
  rcases run_played smallConfig [.submit, ended 0 5, .submit, chunk 1 (handshake ++ ping ++ ping)]
    with ⟨t, hrun⟩
  have hfull : ∃ x ∈ played smallConfig [.submit, ended 0 5, .submit,
      chunk 1 (handshake ++ ping ++ ping)], .noSqe .recv 0 ∈ x.post.net.refused := by
    decide +kernel
  rcases hfull with ⟨x, hx, hrefused⟩
  exact (h _ _ _ _ _ _ _ _ hrun x hx).refused _ _ hrefused

end Server

end CmcServer
