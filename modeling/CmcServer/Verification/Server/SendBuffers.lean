import CmcServer.Verification.Server.Buffers
import CmcServer.Verification.Server.Steps

/-! # Buffers of packets that are sent

A buffer goes from its pool to a `send` function and to the request that it queues, and back when
the request completes. -/

namespace CmcServer

open Runs

def Request.buffer : Request → Option BufId
  | .accept => none
  | .recv _ => none
  | .send _ _ buffer _ => some buffer

def sendBuffers (inFlight : List Sqe) (net : Net) : List BufId :=
  (outstanding inFlight net).filterMap Request.buffer

/-- The buffers that are being sent after a request that was not refused. -/
theorem Net.Issue.sendBuffers_eq {content : Request} {op : Op} {net net' : Net} {err : Err}
    {busy : List RequestId} {inFlight : List Sqe} (hissue : Net.Issue content op net err net')
    (h : net.Sound busy) (hbusy : ∀ sqe ∈ inFlight, sqe.userData ∈ busy)
    (hcontent : content.buffer = none) :
    sendBuffers inFlight net' = sendBuffers inFlight net := by
  rw [CmcServer.sendBuffers, CmcServer.sendBuffers]
  rcases hissue.outstanding_cases h hbusy with ⟨-, hout, -⟩ | ⟨hout, -⟩
  · rw [hout, List.filterMap_append]
    simp [hcontent]
  · rw [hout]

/-- A buffer that was mapped for received packets. -/
def RecvBuffer (pools : BufferPools) (b : BufId) : Prop :=
  b < pools.mapped ∧ pools.origin b = .protocolRecv

theorem RecvBuffer.get {pools : BufferPools} {b : BufId} (h : RecvBuffer pools b)
    (kind : PoolKind) (size : ℕ) : RecvBuffer (pools.get kind size).2 b := by
  refine ⟨?_, (origin_get_mapped pools kind size h.1).trans h.2⟩
  rw [BufferPools.get]
  split
  · exact Nat.lt_succ_of_lt h.1
  · exact h.1

/-- The pools while one request is handled. `lent` are the buffers outside of the send pool, and
`Known` are buffers of receivers. -/
structure Lent (lent : List BufId) (Known : BufId → Prop) (pools : BufferPools) : Prop where
  kept : Kept .protocolSend pools lent
  free : ∀ b ∈ pools.free .protocolRecv, RecvBuffer pools b
  known : ∀ b, Known b → RecvBuffer pools b

section

variable {lent lent' : List BufId} {Known : BufId → Prop} {pools : BufferPools} {b : BufId}

theorem Lent.perm (h : Lent lent Known pools) (hperm : lent.Perm lent') :
    Lent lent' Known pools := ⟨h.kept.perm hperm, h.free, h.known⟩

theorem free_get (pools : BufferPools) (kind : PoolKind) (size : ℕ) {kind' : PoolKind} :
    (pools.get kind size).2.free kind' ⊆ pools.free kind' := by
  rw [BufferPools.get]
  cases hfree : pools.free kind with
  | nil => exact List.Subset.refl _
  | cons b rest =>
      dsimp only
      by_cases hkind : kind' = kind
      · rw [hkind, Function.update_self, hfree]
        exact List.subset_cons_self _ _
      · rw [Function.update_of_ne hkind]
        exact List.Subset.refl _

theorem Lent.get_other (h : Lent lent Known pools) {kind : PoolKind} {size : ℕ}
    (hkind : kind ≠ .protocolSend) : Lent lent Known (pools.get kind size).2 where
  kept := h.kept.get_other hkind
  free := fun b hb => (h.free b (free_get pools kind size hb)).get kind size
  known := fun b hb => (h.known b hb).get kind size

theorem Lent.get (h : Lent lent Known pools) {size : ℕ} :
    Lent ((pools.get .protocolSend size).1 :: lent) Known (pools.get .protocolSend size).2 where
  kept := h.kept.get
  free := fun b hb => (h.free b (free_get pools _ size hb)).get _ size
  known := fun b hb => (h.known b hb).get _ size

theorem Lent.memory (h : Lent lent Known pools) (memory : BufId → ℕ → UInt8) :
    Lent lent Known { pools with memory } := ⟨h.kept, h.free, h.known⟩

theorem Lent.take (h : Lent lent Known pools) {size : ℕ} :
    RecvBuffer (pools.get .protocolRecv size).2 (pools.get .protocolRecv size).1 := by
  have hfree := h.free
  rw [BufferPools.get]
  cases hpool : pools.free .protocolRecv with
  | nil => exact ⟨Nat.lt_succ_self _, Function.update_self ..⟩
  | cons b rest =>
      rw [hpool] at hfree
      exact hfree b List.mem_cons_self

theorem Lent.mono (h : Lent lent Known pools) {Known' : BufId → Prop}
    (hknown : ∀ b, Known' b → RecvBuffer pools b) : Lent lent Known' pools :=
  ⟨h.kept, h.free, hknown⟩

theorem Lent.giveBack (h : Lent (b :: lent) Known pools) :
    Lent lent Known (pools.giveBack .protocolSend b) where
  kept := h.kept.giveBack
  free := by
    rw [BufferPools.giveBack]
    dsimp only
    rw [Function.update_of_ne (by decide)]
    exact h.free
  known := h.known

/-- The buffer of a received packet goes to the send pool. -/
theorem Lent.giveBack_recv (h : Lent lent Known pools) (hb : RecvBuffer pools b) :
    Lent lent Known (pools.giveBack .protocolSend b) where
  kept := by
    refine h.kept.giveBack_foreign hb.1 ?_
    rw [hb.2]
    decide
  free := by
    rw [BufferPools.giveBack]
    dsimp only
    rw [Function.update_of_ne (by decide)]
    exact h.free
  known := h.known

theorem Lent.giveBack_tcp (h : Lent lent Known pools) :
    Lent lent Known (pools.giveBack .tcpRecv b) where
  kept := h.kept.giveBack_other (by decide)
  free := by
    rw [BufferPools.giveBack]
    dsimp only
    rw [Function.update_of_ne (by decide)]
    exact h.free
  known := h.known

end

/-! ## Receiving -/

/-- The sends that got no sqe while `errno` was zero. They are not reported. -/
def unreported (net : Net) : ℕ := net.refused.count (.noSqe .send 0)

theorem Net.Issue.unreported_le {content : Request} {op : Op} {net net' : Net} {err : Err}
    (hissue : Net.Issue content op net err net') : unreported net ≤ unreported net' := by
  rw [unreported, unreported]
  cases hissue with
  | noRequest | noSqe =>
      rw [Net.refuse, List.count_append]
      exact Nat.le_add_right _ _
  | queued => exact Nat.le_refl _

/-- The requests and the pools while a chunk is received, if `known` sends were unreported before.
-/
structure Lending (busy : List RequestId) (inFlight : List Sqe) (Known : BufId → Prop) (known : ℕ)
    (held : Option BufId) (w : World App) : Prop where
  sound : w.app.net.Sound busy
  le : known ≤ unreported w.app.net
  lent : unreported w.app.net = known → Lent (sendBuffers inFlight w.app.net)
    (fun b => Known b ∨ held = some b) w.pools

section

variable {config : ServerConfig} {busy : List RequestId} {inFlight : List Sqe}
  {Known : BufId → Prop} {known : ℕ} {held : Option BufId} {w w' : World App} {err : Err}

theorem Lent.released {lent : List BufId} {Known : BufId → Prop} (h : Lent lent Known w.pools)
    (herr : err ≠ .noError) (bytes : ℕ → UInt8) :
    Lent lent Known (released config err bytes w) := by
  rw [CmcServer.released, if_pos herr]
  exact (h.get.memory _).giveBack

theorem Lent.kept_out {lent : List BufId} {Known : BufId → Prop} (h : Lent lent Known w.pools)
    (bytes : ℕ → UInt8) :
    Lent (lent ++ [sendBuffer config w]) Known (CmcServer.released config .noError bytes w) := by
  rw [CmcServer.released, if_neg (not_not.mpr rfl)]
  exact (h.get.memory _).perm (List.perm_append_singleton _ _).symm

/-- A send moves its buffer to the request, or gives it back. -/
theorem Lending.effect (h : Lending busy inFlight Known known held w)
    (hbusy : ∀ sqe ∈ inFlight, sqe.userData ∈ busy) (heffect : Effect config w err w') :
    Lending busy inFlight Known known held w' := by
  cases heffect.work with
  | kept hpools hnet _ =>
      refine ⟨?_, ?_, ?_⟩
      · rw [hnet]
        exact h.sound
      · rw [hnet]
        exact h.le
      · rw [hnet, hpools]
        exact h.lent
  | unwritten bytes herr hpools hnet _ =>
      refine ⟨?_, ?_, ?_⟩
      · rw [hnet]
        exact h.sound
      · rw [hnet]
        exact h.le
      · rw [hnet, hpools]
        exact fun hknown => (h.lent hknown).released herr bytes
  | issued bytes varintTemp size _ hissue hpools _ =>
      refine ⟨hissue.sound h.sound, Nat.le_trans h.le hissue.unreported_le, ?_⟩
      intro hknown
      have hold : unreported w.app.net = known := by
        have hle := hissue.unreported_le
        have hle' := h.le
        omega
      rw [hpools]
      rcases hissue.outstanding_cases h.sound hbusy with ⟨herr, hout, -⟩ |
        ⟨hout, refusal, hrefused, hloss⟩
      · rw [herr, sendBuffers, hout, List.filterMap_append]
        exact (h.lent hold).kept_out bytes
      · have herr : err ≠ .noError := by
          intro herr
          rw [unreported, hrefused, hloss herr, List.count_append] at hknown
          rw [unreported] at hold
          simp [Request.type] at hknown
          omega
        rw [sendBuffers, hout]
        exact (h.lent hold).released herr bytes

/-- The receiver gives its buffer to the send pool. -/
theorem Lending.give {b : BufId} (h : Lending busy inFlight Known known (some b) w) :
    Lending busy inFlight Known known none
      { w with pools := w.pools.bufferPoolReturnProtocolSend b } := by
  refine ⟨h.sound, h.le, fun hknown => ?_⟩
  have hlent := h.lent hknown
  have hgiven := hlent.giveBack_recv (hlent.known b (Or.inr rfl))
  refine hgiven.mono ?_
  rintro c (hc | hc)
  · exact hgiven.known c (Or.inl hc)
  · cases hc

theorem lendingLaw (build : Build) (config : ServerConfig) (Known : BufId → Prop) (known : ℕ)
    (hbusy : ∀ sqe ∈ inFlight, sqe.userData ∈ busy) :
    BufferLaw config (dispatcher build config false) (Lending busy inFlight Known known)
      fun held _ => Lending busy inFlight Known known held where
  take := by
    intro w hw
    refine ⟨hw.sound, hw.le, fun hknown => ?_⟩
    have hlent := hw.lent hknown
    have htaken : Lent _ _ (w.pools.bufferPoolGetProtocolRecv config).2 :=
      hlent.get_other (by decide)
    refine htaken.mono ?_
    rintro c (hc | hc)
    · exact htaken.known c (Or.inl hc)
    · cases hc
      exact hlent.take
  copy := fun _ _ _ _ hw => ⟨hw.sound, hw.le, fun hknown => (hw.lent hknown).memory _⟩
  large := fun _ _ hw => hw
  dispatched := by
    intro held bytes n w hw _
    have hlending := hw.effect hbusy (dispatcher_effect build config bytes n w)
    exact ⟨fun _ => hlending, fun _ => hlending⟩
  give := fun _ _ hw => hw.give
  giveFailed := fun _ _ _ hw => hw.give

end

/-! ## Steps -/

namespace Server

/-- Every send buffer is in its pool or in one request. -/
def SendsKept (s : Server) : Prop :=
  Kept .protocolSend s.pools (sendBuffers s.inFlight s.net)

def HeldBy (s : Server) (b : BufId) : Prop :=
  ∃ client, (s.client client).receiverState.held = some b

/-- The pools of a server, while `lent` are outside of the send pool and of the requests. -/
def Lends (lent : List BufId) (s : Server) : Prop :=
  Lent (lent ++ sendBuffers s.inFlight s.net) s.HeldBy s.pools

section

variable {build : Build} {config : ServerConfig} {s t : Server} {lent : List BufId}

theorem Lends.receive {client : ClientId} {data : List UInt8} {now : Conditions} {err : Err}
    {busy : List RequestId} (h : Lends [] s) (hregular : Regular config busy s)
    (hreceive : receive build config client data now s = (err, t))
    (hreported : unreported t.net = unreported s.net) : Lends [] t := by
  rcases receive_cases hreceive with ⟨rs, w, hresult, rfl⟩
  have hstart : Lending busy s.inFlight s.HeldBy (unreported s.net)
      (s.client client).receiverState.held (clientWorld client now s) := by
    refine ⟨hregular.sound, Nat.le_refl _, fun _ => h.mono ?_⟩
    rintro b (hb | hb)
    · exact h.known b hb
    · exact h.known b ⟨client, hb⟩
  have hcall := consume_law (lendingLaw build config s.HeldBy (unreported s.net) hregular.flying)
    (hregular.resumable client) hstart data
  rw [hresult] at hcall
  have hend : Lending busy s.inFlight s.HeldBy (unreported s.net) rs.held w := by
    by_cases hok : err = .noError
    · exact (hcall.1 hok).2
    · have hidle := (hcall.2 hok).1
      rw [hidle.held]
      exact (hcall.2 hok).2
  have hlent := hend.lent hreported
  refine hlent.mono ?_
  rintro b ⟨c, hc⟩
  rw [afterConsume] at hc
  dsimp only at hc
  by_cases hsame : c = client
  · rw [hsame, Function.update_self] at hc
    exact hlent.known b (Or.inr hc)
  · rw [Function.update_of_ne hsame] at hc
    exact hlent.known b (Or.inl ⟨c, hc⟩)

theorem Lends.congr (h : Lends lent s) (hnet : t.net = s.net) (hflight : t.inFlight = s.inFlight)
    (hpools : t.pools = s.pools) (hheld : ∀ b, t.HeldBy b → s.HeldBy b) : Lends lent t := by
  rw [Lends, hnet, hflight, hpools]
  exact h.mono fun b hb => h.known b (hheld b hb)

theorem Lends.disconnect {client : ClientId} (h : Lends lent s) :
    Lends lent (disconnectClient client s) := by
  refine h.giveBack_tcp.mono ?_
  rintro b ⟨c, hc⟩
  refine h.known b ⟨c, ?_⟩
  rw [disconnectClient] at hc
  dsimp only at hc
  by_cases hsame : c = client
  · rw [hsame, Function.update_self] at hc
    rw [hsame]
    exact hc
  · rwa [Function.update_of_ne hsame] at hc

theorem Lends.newClient {socket : ℤ} (h : Lends lent s) :
    Lends lent (newClient config socket s) := by
  have htaken : Lent _ _ (s.pools.bufferPoolGetTcpRecv config).2 := h.get_other (by decide)
  refine htaken.mono ?_
  rintro b ⟨c, hc⟩
  rw [Server.newClient] at hc
  dsimp only at hc
  by_cases hsame : c = s.allocated
  · rw [hsame, Function.update_self] at hc
    cases hc
  · rw [Function.update_of_ne hsame] at hc
    exact htaken.known b ⟨c, hc⟩

/-- Requests that are no sends leave the buffers alone. -/
theorem Lends.issue {content : Request} {op : Op} {net : Net} {err : Err}
    {busy : List RequestId} (h : Lends lent s) (hissue : Net.Issue content op s.net err net)
    (hsound : s.net.Sound busy) (hbusy : ∀ sqe ∈ s.inFlight, sqe.userData ∈ busy)
    (hcontent : content.buffer = none) : Lends lent { s with net } := by
  rw [Lends]
  dsimp only
  rw [hissue.sendBuffers_eq hsound hbusy hcontent]
  exact h

section

variable {sqe : Sqe} {cqe : Completion} {now : Conditions} {u : Server}

/-- The buffer of a completion is one of those that are being sent. -/
theorem Completes.sendBuffers_perm (hcompletes : Completes build config s cqe now sqe u) :
    (sendBuffers s.inFlight s.net).Perm ((s.net.requests sqe.userData).buffer.toList ++
      sendBuffers (s.inFlight.erase sqe) s.net) := by
  have hout := hcompletes.perm.filterMap Request.buffer
  rw [List.filterMap_cons] at hout
  cases hbuffer : (s.net.requests sqe.userData).buffer with
  | none =>
      rw [hbuffer] at hout
      exact hout
  | some b =>
      rw [hbuffer] at hout
      exact hout

theorem Completes.lends_take (hcompletes : Completes build config s cqe now sqe u)
    (h : Lends [] s) : Lends (s.net.requests sqe.userData).buffer.toList (take sqe now s) :=
  Lent.perm h hcompletes.sendBuffers_perm

/-- A completion of a send that wrote something, or of another request, loses no buffer. -/
theorem Completes.lends (hcompletes : Completes build config s cqe now sqe u) (h : Lends [] s)
    (hsend : (s.net.requests sqe.userData).type = .send → 0 < cqe.res)
    (hreported : unreported u.net = unreported s.net) : Lends [] u := by
  have htaken := hcompletes.lends_take h
  have hregular := hcompletes.before
  have hhandled := hcompletes.handled
  generalize s.net.requests sqe.userData = request at htaken hhandled hsend
  cases hhandled with
  | refused => exact htaken.congr rfl rfl rfl fun _ hb => hb
  | unarmed _ hrecv _ =>
      exact ((htaken.issue hrecv hregular.sound hregular.flying rfl).newClient).congr rfl rfl rfl
        fun _ hb => hb
  | connected _ hrecv haccept =>
      have hrecv' := htaken.issue hrecv hregular.sound hregular.flying rfl
      have haccept' := hrecv'.issue haccept (hrecv.sound hregular.sound) hregular.flying rfl
      exact haccept'.newClient.congr rfl rfl rfl fun _ hb => hb
  | closed => exact htaken.disconnect
  | rejected _ hresult =>
      exact (htaken.receive hregular hresult hreported).disconnect
  | failed _ hresult _ _ =>
      exact (htaken.receive hregular hresult hreported).congr rfl rfl rfl fun _ hb => hb
  | @received client t err net _ hresult hrecv =>
      have hmore : unreported s.net ≤ unreported t.net :=
        (receive_net (hregular.resumable client) (fun _ _ _ _ _ _ _ hissue hle =>
          Nat.le_trans hle hissue.unreported_le) (Nat.le_refl (unreported s.net)) hresult).2
      have hreceived : unreported t.net = unreported s.net :=
        Nat.le_antisymm (Nat.le_trans hrecv.unreported_le (Nat.le_of_eq hreported)) hmore
      rcases receive_sound hregular hresult with ⟨hsound, hflying⟩
      exact (htaken.receive hregular hresult hreceived).issue hrecv hsound hflying rfl
  | unsent hres => exact absurd (hsend rfl) (not_lt.mpr hres)
  | sent => exact htaken.giveBack

end

/-- A completion of a send reports that something was written. -/
def Writes (s : Server) : Event → Prop
  | .submit => True
  | .complete cqe _ => (s.net.requests cqe.userData).type = .send → 0 < cqe.res

instance (s : Server) (event : Event) : Decidable (Writes s event) :=
  match event with
  | .submit => inferInstanceAs (Decidable True)
  | .complete cqe _ =>
      inferInstanceAs (Decidable ((s.net.requests cqe.userData).type = .send → 0 < cqe.res))

/-- A step that loses no send buffer: no writev fails, and no send is refused an sqe while `errno`
is zero. -/
def LosesNone (x : Transition Server Event) : Prop :=
  Writes x.pre x.event ∧ unreported x.post.net = unreported x.pre.net

instance : DecidablePred LosesNone := fun _ => inferInstanceAs (Decidable (_ ∧ _))

theorem lends_finish {id : RequestId} (h : Lends lent s) : Lends lent (finish id s) := by
  rw [finish]
  split
  · exact h.mono h.known
  · exact h

theorem lends_submit (h : Lends lent s) : Lends lent s.submitAndWait := by
  have hsame : sendBuffers s.submitAndWait.inFlight s.submitAndWait.net =
      sendBuffers s.inFlight s.net := by
    simp [sendBuffers, outstanding, submitAndWait]
  rw [Lends, hsame]
  exact h.mono h.known

theorem step_lends {event : Event} (hregular : Regular config s.kernel s) (h : Lends [] s)
    (hstep : step build config s event = some t) (hloses : LosesNone ⟨s, event, t⟩) :
    Lends [] t := by
  cases event with
  | submit =>
      cases (step_cases hstep).2
      exact lends_submit h
  | complete cqe now =>
      rcases complete_cases hregular hstep with ⟨sqe, u, hcompletes, rfl⟩
      refine lends_finish (hcompletes.lends h ?_ ?_)
      · rw [hcompletes.user]
        exact hloses.1
      · have hsame : (finish sqe.userData u).net.refused = u.net.refused := by
          rw [finish]
          split <;> rfl
        have hunreported := hloses.2
        rwa [unreported, hsame] at hunreported

theorem sendBuffers_start (config : ServerConfig) (start₁ start₂ errno : ℕ) (calloc : Bool) :
    sendBuffers (start config start₁ start₂ errno calloc).inFlight
      (start config start₁ start₂ errno calloc).net = [] :=
  (Net.addAccept_issue _).sendBuffers_eq (Net.sound_initial _ errno calloc)
    (fun sqe (h : sqe ∈ ([] : List Sqe)) => absurd h List.not_mem_nil) rfl

theorem lends_start (config : ServerConfig) (start₁ start₂ errno : ℕ) (calloc : Bool) :
    Lends [] (start config start₁ start₂ errno calloc) := by
  have hnone := sendBuffers_start config start₁ start₂ errno calloc
  rw [Lends, hnone]
  refine ⟨kept_initial _, fun _ h => absurd h List.not_mem_nil, ?_⟩
  rintro b ⟨client, hheld⟩
  cases hheld

/-- In a run that loses no send buffer, each one is in its pool or in one request. -/
theorem sendBuffers_kept {start₁ start₂ errno : ℕ} {calloc : Bool}
    {trace : List (Transition Server Event)}
    (h : Run (step build config) (start config start₁ start₂ errno calloc) trace t)
    (hloses : ∀ x ∈ trace, LosesNone x) : ∀ x ∈ trace, SendsKept x.post := by
  intro x hx
  have hlaw := run_law h (lends_start ..)
    (fun _ _ _ hregular hs hstep hok => step_lends hregular hs hstep hok) hloses x hx
  exact hlaw.2.2.kept

end

/-- A ping is answered. -/
theorem sendBuffers_kept_pong :
    let trace := played defaultConfig
      [.submit, ended 0 5, .submit, chunk 1 (handshake ++ ping), .submit, ended 0 10]
    ∃ t, Run (step someBuild defaultConfig) (start defaultConfig 0x100000000 0x200000000 0 true)
        trace t ∧ ∀ x ∈ trace, SendsKept x.post := by
  rcases run_played defaultConfig
    [.submit, ended 0 5, .submit, chunk 1 (handshake ++ ping), .submit, ended 0 10] with ⟨t, hrun⟩
  refine ⟨t, hrun, sendBuffers_kept hrun ?_⟩
  decide +kernel

/-- The answer to a ping is not written, and its buffer is lost. -/
theorem sendBuffers_lost :
    ¬ ∀ build config start₁ start₂ errno calloc trace t,
      Run (step build config) (start config start₁ start₂ errno calloc) trace t →
        ∀ x ∈ trace, SendsKept x.post := by
  intro h
  rcases run_played defaultConfig
    [.submit, ended 0 5, .submit, chunk 1 (handshake ++ ping), .submit, ended 0 0] with ⟨t, hrun⟩
  have hlost : ∃ x ∈ played defaultConfig
      [.submit, ended 0 5, .submit, chunk 1 (handshake ++ ping), .submit, ended 0 0],
      1 < x.post.pools.mapped ∧ x.post.pools.origin 1 = .protocolSend ∧
        (x.post.pools.free .protocolSend ++
          sendBuffers x.post.inFlight x.post.net).count 1 = 0 := by
    decide +kernel
  rcases hlost with ⟨x, hx, hmapped, horigin, hcount⟩
  have hone := (h _ _ _ _ _ _ _ _ hrun x hx).once 1 hmapped horigin
  rw [hcount] at hone
  cases hone

end Server

end CmcServer
