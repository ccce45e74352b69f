import CmcServer.Verification.Server.Steps

/-! # Requests of clients that are gone

A client is freed when one of its requests says so. The requests that it has left name freed
memory. -/

namespace CmcServer

open Runs

section

variable {net net' : Net} {busy : List RequestId} {inFlight : List Sqe} {content : Request}
  {op : Op} {err : Err}

theorem Net.Issue.mem_outstanding (hissue : Net.Issue content op net err net')
    (h : net.Sound busy) (hbusy : ∀ sqe ∈ inFlight, sqe.userData ∈ busy) {request : Request}
    (hrequest : request ∈ outstanding inFlight net') :
    request ∈ outstanding inFlight net ∨ request = content := by
  rcases hissue.outstanding_cases h hbusy with ⟨-, hout, -⟩ | ⟨hout, -⟩
  · rw [hout] at hrequest
    rcases List.mem_append.mp hrequest with hrequest | hrequest
    · exact Or.inl hrequest
    · exact Or.inr (List.mem_singleton.mp hrequest)
  · rw [hout] at hrequest
    exact Or.inl hrequest

theorem Net.Issue.queue_prefix (hissue : Net.Issue content op net err net') :
    net.queue <+: net'.queue := by
  cases hissue with
  | noRequest | noSqe => exact List.prefix_refl _
  | queued => exact List.prefix_append _ _

theorem length_outstanding (inFlight : List Sqe) (net : Net) :
    (outstanding inFlight net).length = inFlight.length + net.queue.length := by
  rw [outstanding, List.length_map, List.length_append]

/-- The requests after a chunk of `client`: `sends` are new. -/
structure Sending (busy : List RequestId) (inFlight : List Sqe) (queue : List Sqe)
    (before : List Request) (client : ClientId) (net : Net) : Prop where
  sound : net.Sound busy
  queue_prefix : queue <+: net.queue
  sends : ∃ sends, outstanding inFlight net = before ++ sends ∧
    ∀ request ∈ sends, request.client = some client

theorem Sending.issue {queue : List Sqe} {before : List Request} {client : ClientId}
    (h : Sending busy inFlight queue before client net)
    (hbusy : ∀ sqe ∈ inFlight, sqe.userData ∈ busy) (hissue : Net.Issue content op net err net')
    (hcontent : content.client = some client) :
    Sending busy inFlight queue before client net' := by
  rcases h.sends with ⟨sends, hsends, hnames⟩
  refine ⟨hissue.sound h.sound, h.queue_prefix.trans hissue.queue_prefix, ?_⟩
  rcases hissue.outstanding_cases h.sound hbusy with ⟨-, hout, -⟩ | ⟨hout, -⟩
  · refine ⟨sends ++ [content], ?_, ?_⟩
    · rw [hout, hsends, List.append_assoc]
    · intro request hrequest
      rcases List.mem_append.mp hrequest with hrequest | hrequest
      · exact hnames request hrequest
      · rw [List.mem_singleton.mp hrequest]
        exact hcontent
  · exact ⟨sends, hout.trans hsends, hnames⟩

/-- No request names `client` after its chunk if none did before and the chunk queued none. -/
theorem Sending.nameless {queue : List Sqe} {client : ClientId}
    (h : Sending busy inFlight queue (outstanding inFlight net) client net')
    (hbefore : net.queue = queue) :
    ((∀ request ∈ outstanding inFlight net, request.client ≠ some client) ∧ net'.queue = queue) ↔
      ∀ request ∈ outstanding inFlight net', request.client ≠ some client := by
  rcases h.sends with ⟨sends, hsends, hnames⟩
  have hlength : net'.queue.length = queue.length + sends.length := by
    have hcount := congrArg List.length hsends
    rw [List.length_append, length_outstanding, length_outstanding, hbefore] at hcount
    omega
  rw [hsends]
  constructor
  · rintro ⟨hnone, hqueue⟩
    have hempty : sends = [] := by
      rw [hqueue] at hlength
      exact List.length_eq_zero_iff.mp (by omega)
    rwa [hempty, List.append_nil]
  · intro hnone
    have hempty : sends = [] := by
      by_contra hsome
      rcases List.exists_mem_of_ne_nil sends hsome with ⟨request, hrequest⟩
      exact hnone request (List.mem_append_right _ hrequest) (hnames request hrequest)
    refine ⟨fun request hrequest => hnone request (List.mem_append_left _ hrequest), ?_⟩
    rw [hempty, List.length_nil, Nat.add_zero] at hlength
    exact (h.queue_prefix.eq_of_length hlength.symm).symm

end

namespace Server

/-- Every request names a live client, and no client was disconnected twice. -/
structure NoneStale (s : Server) : Prop where
  live : ∀ request ∈ outstanding s.inFlight s.net, ∀ client, request.client = some client →
    client ∈ s.clients
  once : s.disconnected.Nodup

/-- A client that is disconnected has no other request, and its last chunk queued none. -/
def LeavesAlone (build : Build) (config : ServerConfig) (s : Server) : Event → Prop
  | .submit => True
  | .complete cqe now =>
      match disconnects build config s (.complete cqe now) with
      | none => True
      | some client =>
          (outstanding s.inFlight s.net).countP (fun request => request.client = some client) = 1 ∧
            (0 < cqe.res →
              (consumed build config client cqe now s).2.2.app.net.queue = s.net.queue)

instance (build : Build) (config : ServerConfig) (s : Server) (event : Event) :
    Decidable (LeavesAlone build config s event) :=
  match event with
  | .submit => inferInstanceAs (Decidable True)
  | .complete cqe now => by
      unfold LeavesAlone
      dsimp only
      refine Option.casesOn (disconnects build config s (.complete cqe now)) ?_ ?_ <;> intros <;>
        infer_instance

section

variable {build : Build} {config : ServerConfig} {s t : Server}

theorem receive_sending {client : ClientId} {data : List UInt8} {now : Conditions} {err : Err}
    {busy : List RequestId} (hregular : Regular config busy s)
    (hreceive : receive build config client data now s = (err, t)) :
    Sending busy s.inFlight s.net.queue (outstanding s.inFlight s.net) client t.net :=
  (receive_net (hregular.resumable client)
    (fun _ _ _ _ _ _ _ hissue hJ => hJ.issue hregular.flying hissue rfl)
    ⟨hregular.sound, List.prefix_refl _, [], (List.append_nil _).symm,
      fun _ h => absurd h List.not_mem_nil⟩ hreceive).2

/-- What `NoneStale` rests on: clients that were disconnected do not come back. -/
structure Orderly (s : Server) : Prop extends NoneStale s where
  gone : ∀ client ∈ s.disconnected, client ∉ s.clients
  gone_lt : ∀ client ∈ s.disconnected, client < s.allocated

/-- Only what `Orderly` looks at matters to it. -/
theorem Orderly.congr (h : Orderly s) (hclients : t.clients = s.clients)
    (hdisconnected : t.disconnected = s.disconnected) (hallocated : t.allocated = s.allocated)
    (hlive : ∀ request ∈ outstanding t.inFlight t.net, ∀ client, request.client = some client →
      client ∈ s.clients) : Orderly t := by
  refine ⟨⟨?_, ?_⟩, ?_, ?_⟩
  · rw [hclients]
    exact hlive
  · rw [hdisconnected]
    exact h.once
  · rw [hdisconnected, hclients]
    exact h.gone
  · rw [hdisconnected, hallocated]
    exact h.gone_lt

theorem Orderly.connect (socket : ℤ) {busy : List RequestId} {op : Op} {err : Err} {net : Net}
    (h : Orderly s) (hregular : Regular config busy s)
    (hissue : Net.Issue (.recv s.allocated) op s.net err net) :
    Orderly { newClient config socket s with net } := by
  refine ⟨⟨?_, h.once⟩, ?_, fun c hc => Nat.lt_succ_of_lt (h.gone_lt c hc)⟩
  · intro request hrequest c hc
    rcases hissue.mem_outstanding hregular.sound hregular.flying hrequest with hold | rfl
    · exact List.mem_append_left _ (h.live request hold c hc)
    · cases hc
      exact List.mem_append_right _ (List.mem_singleton_self _)
  · intro c hc hmem
    rcases List.mem_append.mp hmem with hmem | hmem
    · exact h.gone c hc hmem
    · rw [List.mem_singleton.mp hmem] at hc
      exact Nat.lt_irrefl _ (h.gone_lt _ hc)

theorem Orderly.receive {busy : List RequestId} {client : ClientId} {data : List UInt8}
    {now : Conditions} {err : Err} (h : Orderly s) (hregular : Regular config busy s)
    (hclient : client ∈ s.clients)
    (hreceive : receive build config client data now s = (err, t)) : Orderly t := by
  rcases (receive_sending hregular hreceive).sends with ⟨sends, hsends, hnames⟩
  rcases receive_cases hreceive with ⟨rs, w, -, rfl⟩
  refine h.congr rfl rfl rfl ?_
  intro request hrequest c hc
  have hmem : request ∈ outstanding s.inFlight s.net ++ sends := by
    rw [← hsends]
    exact hrequest
  rcases List.mem_append.mp hmem with hmem | hmem
  · exact h.live request hmem c hc
  · rw [hnames request hmem] at hc
    cases hc
    exact hclient

/-- The last request of a client is gone when the client is disconnected. -/
theorem Orderly.disconnect {client : ClientId} (h : Orderly s) (hnodup : s.clients.Nodup)
    (hlt : client < s.allocated) (hclient : client ∈ s.clients)
    (hlast : ∀ request ∈ outstanding s.inFlight s.net, request.client ≠ some client) :
    Orderly (disconnectClient client s) := by
  refine ⟨⟨?_, ?_⟩, ?_, ?_⟩
  · intro request hrequest c hc
    refine hnodup.mem_erase_iff.mpr ⟨?_, h.live request hrequest c hc⟩
    rintro rfl
    exact hlast request hrequest hc
  · refine List.nodup_append.mpr ⟨h.once, List.nodup_singleton _, ?_⟩
    intro c hc c' hc'
    rw [List.mem_singleton.mp hc']
    rintro rfl
    exact h.gone c hc hclient
  · intro c hc hmem
    rcases List.mem_append.mp hc with hc | hc
    · exact h.gone c hc (List.mem_of_mem_erase hmem)
    · rw [List.mem_singleton.mp hc] at hmem
      exact (hnodup.mem_erase_iff.mp hmem).1 rfl
  · intro c hc
    rcases List.mem_append.mp hc with hc | hc
    · exact h.gone_lt c hc
    · rw [List.mem_singleton.mp hc]
      exact hlt

/-- A request that is left names a client that is gone. -/
theorem not_noneStale_disconnect {client : ClientId} (hnodup : s.clients.Nodup) {request : Request}
    (hrequest : request ∈ outstanding s.inFlight s.net) (hname : request.client = some client) :
    ¬ NoneStale (disconnectClient client s) := by
  intro h
  have hlive := h.live request hrequest client hname
  exact (hnodup.mem_erase_iff.mp hlive).1 rfl

/-- A client is disconnected: whether it had another request decides. -/
theorem Orderly.disconnect_cases {client : ClientId} {alone : Prop} (h : Orderly s)
    (hnodup : s.clients.Nodup) (hlt : client < s.allocated) (hclient : client ∈ s.clients)
    (halone : alone ↔
      ∀ request ∈ outstanding s.inFlight s.net, request.client ≠ some client) :
    (alone ∧ Orderly (disconnectClient client s)) ∨
      ¬ alone ∧ ¬ NoneStale (disconnectClient client s) := by
  rw [halone]
  by_cases hlast : ∀ request ∈ outstanding s.inFlight s.net, request.client ≠ some client
  · exact Or.inl ⟨hlast, h.disconnect hnodup hlt hclient hlast⟩
  · refine Or.inr ⟨hlast, ?_⟩
    rcases not_forall₂.mp hlast with ⟨request, hrequest, hname⟩
    exact not_noneStale_disconnect hnodup hrequest (not_not.mp hname)

section

variable {sqe : Sqe} {cqe : Completion} {now : Conditions} {u : Server}

/-- The other requests of the client of a completion. -/
theorem Completes.countP (hcompletes : Completes build config s cqe now sqe u)
    (client : ClientId) (hname : (s.net.requests sqe.userData).client = some client) :
    (outstanding s.inFlight s.net).countP (fun request => request.client = some client) = 1 ↔
      ∀ request ∈ outstanding (s.inFlight.erase sqe) s.net, request.client ≠ some client := by
  rw [hcompletes.perm.countP_eq, List.countP_cons, if_pos (by simpa using hname),
    Nat.add_eq_right, List.countP_eq_zero]
  simp

/-- A completion that disconnects no client, or one that it leaves alone, leaves nothing stale. No
other completion does. -/
theorem Completes.orderly (hcompletes : Completes build config s cqe now sqe u) (h : Orderly s) :
    (LeavesAlone build config s (.complete cqe now) ∧ Orderly u) ∨
      ¬ LeavesAlone build config s (.complete cqe now) ∧ ¬ NoneStale u := by
  have hregular := hcompletes.before
  have hsub : ∀ request ∈ outstanding (s.inFlight.erase sqe) s.net,
      request ∈ outstanding s.inFlight s.net :=
    fun request hrequest => hcompletes.perm.mem_iff.mpr (List.mem_cons_of_mem _ hrequest)
  have htaken : Orderly (take sqe now s) :=
    h.congr rfl rfl rfl fun request hrequest => h.live request (hsub request hrequest)
  have hlive : ∀ client, (s.net.requests sqe.userData).client = some client →
      client ∈ s.clients :=
    h.live _ (hcompletes.perm.mem_iff.mpr List.mem_cons_self)
  have hlast := hcompletes.countP
  have hnodup := hregular.clients_nodup
  have hhandled := hcompletes.handled
  rw [LeavesAlone, disconnects, ← hcompletes.user]
  generalize s.net.requests sqe.userData = request at hhandled hlive hlast
  cases hhandled with
  | refused => exact Or.inl ⟨trivial, htaken.congr rfl rfl rfl htaken.live⟩
  | unarmed _ hrecv _ =>
      have hconnected := htaken.connect cqe.res hregular hrecv
      exact Or.inl ⟨trivial, hconnected.congr rfl rfl rfl hconnected.live⟩
  | connected _ hrecv haccept =>
      have hconnected := htaken.connect cqe.res hregular hrecv
      refine Or.inl ⟨trivial, hconnected.congr rfl rfl rfl ?_⟩
      intro request hrequest client hname
      rcases haccept.mem_outstanding (hrecv.sound hregular.sound) hregular.flying hrequest with
        hold | rfl
      · exact hconnected.live request hold client hname
      · cases hname
  | @closed client hres =>
      rw [disconnectedBy_closed hres]
      exact htaken.disconnect_cases hnodup (hregular.clients_lt _ (hlive client rfl))
        (hlive client rfl) ⟨fun hone => (hlast client rfl).mp hone.1, fun hnone =>
          ⟨(hlast client rfl).mpr hnone, fun hpos => absurd hpos (not_lt.mpr hres)⟩⟩
  | @rejected client t hres hresult =>
      rw [disconnectedBy_received hres hresult, if_pos rfl]
      have hsending := receive_sending hregular hresult
      have horderly := htaken.receive hregular (hlive client rfl) hresult
      rcases receive_consumed hresult with ⟨rs, w, hconsumed, rfl⟩
      refine horderly.disconnect_cases hnodup (hregular.clients_lt _ (hlive client rfl))
        (hlive client rfl) ?_
      dsimp only
      rw [hconsumed, forall_prop_of_true hres, hlast client rfl]
      exact hsending.nameless rfl
  | @failed client err t hres hresult hprotocol _ =>
      rw [disconnectedBy_received hres hresult, if_neg hprotocol]
      have hreceived := htaken.receive hregular (hlive client rfl) hresult
      exact Or.inl ⟨trivial, hreceived.congr rfl rfl rfl hreceived.live⟩
  | @received client t err net hres hresult hrecv =>
      rw [disconnectedBy_received hres hresult, if_neg (by decide)]
      have hreceived := htaken.receive hregular (hlive client rfl) hresult
      refine Or.inl ⟨trivial, hreceived.congr rfl rfl rfl ?_⟩
      intro request hrequest c hname
      rcases receive_sound hregular hresult with ⟨hsound, hflying⟩
      rcases hrecv.mem_outstanding hsound hflying hrequest with hold | rfl
      · exact hreceived.live request hold c hname
      · cases hname
        rcases receive_cases hresult with ⟨rs, w, -, rfl⟩
        exact hlive client rfl
  | @unsent client varintTemp buffer size hres =>
      rw [disconnectedBy_unsent hres]
      exact htaken.disconnect_cases hnodup (hregular.clients_lt _ (hlive client rfl))
        (hlive client rfl) ⟨fun hone => (hlast client rfl).mp hone.1, fun hnone =>
          ⟨(hlast client rfl).mpr hnone, fun hpos => absurd hpos (not_lt.mpr hres)⟩⟩
  | sent hres =>
      rw [disconnectedBy_sent hres]
      exact Or.inl ⟨trivial, htaken.congr rfl rfl rfl htaken.live⟩

end

theorem Orderly.finish (h : Orderly s) (id : RequestId) : Orderly (finish id s) := by
  rw [Server.finish]
  split
  · exact h.congr rfl rfl rfl h.live
  · exact h

theorem NoneStale.of_finish {id : RequestId} (h : NoneStale (Server.finish id s)) :
    NoneStale s := by
  rw [Server.finish] at h
  split at h
  · exact ⟨h.live, h.once⟩
  · exact h

/-- A step leaves a stale request or disconnects a client again exactly when it disconnects one
that has another request. -/
theorem step_orderly {event : Event} (hregular : Regular config s.kernel s) (h : Orderly s)
    (hstep : step build config s event = some t) :
    (LeavesAlone build config s event ∧ Orderly t) ∨
      ¬ LeavesAlone build config s event ∧ ¬ NoneStale t := by
  cases event with
  | submit =>
      cases (step_cases hstep).2
      have hout : outstanding s.submitAndWait.inFlight s.submitAndWait.net =
          outstanding s.inFlight s.net := by
        simp [outstanding, submitAndWait]
      refine Or.inl ⟨trivial, h.congr rfl rfl rfl ?_⟩
      rw [hout]
      exact h.live
  | complete cqe now =>
      rcases complete_cases hregular hstep with ⟨sqe, u, hcompletes, rfl⟩
      rcases hcompletes.orderly h with ⟨halone, horderly⟩ | ⟨hnot, hstale⟩
      · exact Or.inl ⟨halone, horderly.finish _⟩
      · exact Or.inr ⟨hnot, fun hnone => hstale hnone.of_finish⟩

theorem orderly_start (config : ServerConfig) (start₁ start₂ errno : ℕ) (calloc : Bool) :
    Orderly (start config start₁ start₂ errno calloc) where
  live := by
    have hissue := Net.addAccept_issue
      { Net.initial (some (ringEntries config)) with errno, calloc }
    have hsound := Net.sound_initial (some (ringEntries config)) errno calloc
    have hnone : ∀ sqe ∈ ([] : List Sqe), sqe.userData ∈ ([] : List RequestId) := by simp
    intro request hrequest client hname
    rcases hissue.mem_outstanding hsound hnone hrequest with hold | rfl
    · exact absurd hold List.not_mem_nil
    · cases hname
  once := List.nodup_nil
  gone := fun _ h => absurd h List.not_mem_nil
  gone_lt := fun _ h => absurd h List.not_mem_nil

/-- Every request names a live client and no client is disconnected twice, in every state of a run,
exactly when each client that the run disconnects has no other request then. -/
theorem clients_none_stale_iff {start₁ start₂ errno : ℕ} {calloc : Bool}
    {trace : List (Transition Server Event)}
    (h : Run (step build config) (start config start₁ start₂ errno calloc) trace t) :
    (∀ x ∈ trace, NoneStale x.post) ↔ ∀ x ∈ trace, LeavesAlone build config x.pre x.event := by
  refine h.forall_congr (fun s => Regular config s.kernel s ∧ Orderly s)
    ⟨regular_start .., orderly_start ..⟩ ?_ ?_
  · intro s event u hinv hstep hnone
    refine ⟨step_regular hinv.1 hstep, ?_⟩
    rcases step_orderly hinv.1 hinv.2 hstep with ⟨-, hu⟩ | ⟨-, hu⟩
    · exact hu
    · exact absurd hnone hu
  · intro s event u hinv hstep
    rcases step_orderly hinv.1 hinv.2 hstep with ⟨halone, hu⟩ | ⟨hnot, hu⟩
    · exact ⟨fun _ => halone, fun _ => hu.toNoneStale⟩
    · exact ⟨fun hnone => absurd hnone hu, fun halone => absurd halone hnot⟩

end

/-- A client that only has its recv leaves. -/
theorem clients_none_stale_iff_closed :
    let trace := played defaultConfig [.submit, ended 0 5, .submit, ended 1 0]
    ∃ t, Run (step someBuild defaultConfig) (start defaultConfig 0x100000000 0x200000000 0 true)
        trace t ∧ ∀ x ∈ trace, NoneStale x.post := by
  rcases run_played defaultConfig [.submit, ended 0 5, .submit, ended 1 0] with ⟨t, hrun⟩
  refine ⟨t, hrun, (clients_none_stale_iff hrun).mpr ?_⟩
  decide +kernel

/-- A ping is followed by a frame that is rejected, and the client leaves its answer behind. -/
theorem clients_stale :
    ¬ ∀ build config start₁ start₂ errno calloc trace t,
      Run (step build config) (start config start₁ start₂ errno calloc) trace t →
        ∀ x ∈ trace, NoneStale x.post := by
  intro h
  rcases run_played defaultConfig
    [.submit, ended 0 5, .submit, chunk 1 (handshake ++ ping ++ [1, 9])] with ⟨t, hrun⟩
  have hstale : ∃ x ∈ played defaultConfig
      [.submit, ended 0 5, .submit, chunk 1 (handshake ++ ping ++ [1, 9])],
      x.post.clients = [] ∧
        ∃ request ∈ outstanding x.post.inFlight x.post.net, request.client = some 0 := by
    decide +kernel
  rcases hstale with ⟨x, hx, hclients, request, hrequest, hname⟩
  have hlive := (h _ _ _ _ _ _ _ _ hrun x hx).live request hrequest 0 hname
  rw [hclients] at hlive
  exact List.not_mem_nil hlive

end Server

end CmcServer
