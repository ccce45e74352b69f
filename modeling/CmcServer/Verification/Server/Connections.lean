import CmcServer.Verification.Server.Buffers
import CmcServer.Verification.Server.Steps

/-! # Resources of connections

A client owns its socket and its recv buffer. Sockets are never closed, so they match the live
clients as long as no client is disconnected. -/

namespace CmcServer

open Runs

namespace Server

/-- The open descriptors are the sockets of the live clients, and a recv buffer is in the pool or
belongs to one live client. -/
structure Released (s : Server) : Prop where
  descriptors : ∀ d, d ∈ s.descriptors ↔ ∃ client ∈ s.clients, (s.client client).socket = d
  buffers : Kept .tcpRecv s.pools (s.ofClients Client.recvBuffer)
  unshared : (s.ofClients Client.recvBuffer).Nodup

/-- No client was disconnected, and each one has what it got from its accept. -/
structure Attached (s : Server) : Prop where
  all : ∀ client < s.allocated, client ∈ s.clients
  descriptors : s.descriptors = s.ofClients Client.socket
  distinct : s.descriptors.Nodup
  buffers : Owned .tcpRecv s.pools (s.ofClients Client.recvBuffer)

section

variable {build : Build} {config : ServerConfig} {s t : Server}

theorem Attached.released (h : Attached s) : Released s where
  descriptors := by
    intro d
    rw [h.descriptors, ofClients, List.mem_map]
  buffers := h.buffers.kept
  unshared := (List.nodup_append.mp h.buffers.nodup).2.1

theorem attached_start (config : ServerConfig) (start₁ start₂ errno : ℕ) (calloc : Bool) :
    Attached (start config start₁ start₂ errno calloc) where
  all := fun _ h => absurd h (Nat.not_lt_zero _)
  descriptors := rfl
  distinct := List.nodup_nil
  buffers := owned_initial .tcpRecv

theorem owned_released {owners : List BufId} {w : World App} (h : Owned .tcpRecv w.pools owners)
    (err : Err) (bytes : ℕ → UInt8) : Owned .tcpRecv (released config err bytes w) owners := by
  have hwritten : Owned .tcpRecv (written config bytes w) owners :=
    (h.get_other (by decide)).memory _
  rw [CmcServer.released]
  split
  · exact hwritten.giveBack_other (by decide)
  · exact hwritten

theorem tcpRecvLaw (build : Build) (config : ServerConfig) (owners : List BufId) :
    BufferLaw config (dispatcher build config false) (fun _ w => Owned .tcpRecv w.pools owners)
      fun _ _ w => Owned .tcpRecv w.pools owners where
  take := fun _ hw => hw.get_other (by decide)
  copy := fun _ _ _ _ hw => hw.memory _
  large := fun _ _ hw => hw
  dispatched := by
    intro held bytes n w hw _
    have howned : Owned .tcpRecv (dispatcher build config false bytes n w).2.pools owners := by
      cases (dispatcher_effect build config bytes n w).work with
      | kept hpools => rwa [hpools]
      | unwritten _ _ hpools _ _ | issued _ _ _ _ _ hpools _ =>
          rw [hpools]
          exact owned_released hw _ _
    exact ⟨fun _ => howned, fun _ => howned⟩
  give := fun _ _ hw => hw.giveBack_other (by decide)
  giveFailed := fun _ _ _ hw => hw.giveBack_other (by decide)

/-! ## Steps -/

theorem Attached.newClient (h : Attached s) (hlt : ∀ client ∈ s.clients, client < s.allocated)
    {socket : ℤ} (hsocket : socket ∉ s.descriptors) : Attached (newClient config socket s) where
  all := by
    intro client hclient
    rcases Nat.lt_succ_iff_lt_or_eq.mp hclient with hlt | rfl
    · exact List.mem_append_left _ (h.all client hlt)
    · exact List.mem_append_right _ (List.mem_singleton_self _)
  descriptors := by
    rw [ofClients_newClient _ hlt, ← h.descriptors]
    rfl
  distinct := by
    refine List.nodup_append.mpr ⟨h.distinct, List.nodup_singleton _, ?_⟩
    intro d hd d' hd'
    rw [List.mem_singleton.mp hd']
    rintro rfl
    exact hsocket hd
  buffers := by
    rw [ofClients_newClient _ hlt]
    exact h.buffers.get.perm (List.perm_append_singleton _ _).symm

theorem Attached.receive {client : ClientId} {data : List UInt8} {now : Conditions} {err : Err}
    (h : Attached s) (hrs : ∀ client, Resumable config (s.client client).receiverState)
    (hreceive : receive build config client data now s = (err, t)) : Attached t := by
  rcases receive_cases hreceive with ⟨rs, w, hresult, rfl⟩
  have hcall := consume_law (tcpRecvLaw build config (s.ofClients Client.recvBuffer))
    (w := clientWorld client now s) (hrs client) h.buffers data
  rw [hresult] at hcall
  refine ⟨h.all, ?_, h.distinct, ?_⟩
  · rw [ofClients_afterConsume client s rs w rfl]
    exact h.descriptors
  · rw [ofClients_afterConsume client s rs w rfl]
    by_cases hok : err = .noError
    · exact (hcall.1 hok).2
    · exact (hcall.2 hok).2

/-- Where the client of a handled request is disconnected, its socket is open and no client has
it. -/
theorem not_released_disconnect {client : ClientId} (h : Attached s) (hnodup : s.clients.Nodup)
    (hclient : client ∈ s.clients) : ¬ Released (disconnectClient client s) := by
  intro hreleased
  have hsocket : (s.client client).socket ∈ s.descriptors := by
    rw [h.descriptors]
    exact List.mem_map_of_mem hclient
  rcases (hreleased.descriptors _).mp hsocket with ⟨other, hother, hsame⟩
  have hne : other ≠ client := (hnodup.mem_erase_iff.mp hother).1
  have hmem : other ∈ s.clients := List.mem_of_mem_erase hother
  rw [disconnectClient] at hsame
  dsimp only at hsame
  rw [Function.update_of_ne hne] at hsame
  have hdistinct := h.distinct
  rw [h.descriptors] at hdistinct
  exact hne (List.inj_on_of_nodup_map hdistinct hmem hclient hsame)

section

variable {sqe : Sqe} {cqe : Completion} {now : Conditions} {u : Server}

/-- Only what `Attached` looks at matters to it. -/
theorem Attached.congr (h : Attached s) (hclients : t.clients = s.clients)
    (hclient : t.client = s.client) (hallocated : t.allocated = s.allocated)
    (hdescriptors : t.descriptors = s.descriptors) (hpools : t.pools = s.pools) : Attached t := by
  have hfield : ∀ {α : Type} (field : Client → α), ofClients field t = ofClients field s := by
    intro α field
    exact ofClients_congr hclients fun client _ => by rw [hclient]
  refine ⟨?_, ?_, ?_, ?_⟩
  · rw [hclients, hallocated]
    exact h.all
  · rw [hdescriptors, hfield]
    exact h.descriptors
  · rw [hdescriptors]
    exact h.distinct
  · rw [hpools, hfield]
    exact h.buffers

theorem Attached.take (h : Attached s) : Attached (take sqe now s) :=
  h.congr rfl rfl rfl rfl rfl

/-- A completion either disconnects its client or leaves every client attached. -/
theorem Completes.attached (hcompletes : Completes build config s cqe now sqe u)
    (h : Attached s) :
    (disconnects build config s (.complete cqe now) = none ∧ Attached u) ∨
      disconnects build config s (.complete cqe now) ≠ none ∧ ¬ Released u := by
  have htaken : Attached (Server.take sqe now s) := h.take
  have hlive : ∀ client, (s.net.requests sqe.userData).client = some client →
      client ∈ s.clients := by
    intro client hclient
    exact h.all client (hcompletes.fits.client_lt client hclient)
  have hfits := hcompletes.fits
  have hpromised := hcompletes.promised
  have hhandled := hcompletes.handled
  have hnodup := hcompletes.before.clients_nodup
  rw [disconnects, ← hcompletes.user]
  generalize s.net.requests sqe.userData = request at hfits hhandled hlive
  cases hhandled with
  | refused => exact Or.inl ⟨rfl, htaken.congr rfl rfl rfl rfl rfl⟩
  | unarmed hres _ _ | connected hres _ _ =>
      refine Or.inl ⟨rfl, ?_⟩
      have hsocket : cqe.res ∉ s.descriptors := by
        cases hop : sqe.op with
        | accept =>
            rw [hop] at hpromised
            exact (hpromised hres).2
        | recv | writev =>
            rw [hop] at hfits
            cases hfits
      exact (htaken.newClient hcompletes.before.clients_lt hsocket).congr rfl rfl rfl rfl rfl
  | @closed client hres =>
      refine Or.inr ⟨by simp [disconnectedBy_closed hres], ?_⟩
      exact not_released_disconnect htaken hnodup (hlive client rfl)
  | @rejected client t hres hresult =>
      have hreceived := htaken.receive hcompletes.before.resumable hresult
      refine Or.inr ⟨by simp [disconnectedBy_received hres hresult], ?_⟩
      rcases receive_cases hresult with ⟨rs, w, -, rfl⟩
      exact not_released_disconnect hreceived hnodup (hlive client rfl)
  | @failed client err t hres hresult hprotocol hfail =>
      refine Or.inl ⟨?_, ?_⟩
      · simp [disconnectedBy_received hres hresult, hprotocol]
      · exact (htaken.receive hcompletes.before.resumable hresult).congr rfl rfl rfl rfl rfl
  | @received client t err net hres hresult _ =>
      refine Or.inl ⟨?_, ?_⟩
      · simp [disconnectedBy_received hres hresult]
      · exact (htaken.receive hcompletes.before.resumable hresult).congr rfl rfl rfl rfl rfl
  | @unsent client varintTemp buffer size hres =>
      refine Or.inr ⟨by simp [disconnectedBy_unsent hres], ?_⟩
      exact not_released_disconnect htaken hnodup (hlive client rfl)
  | sent hres =>
      refine Or.inl ⟨disconnectedBy_sent hres, ?_⟩
      exact ⟨htaken.all, htaken.descriptors, htaken.distinct,
        htaken.buffers.giveBack_other (by decide)⟩

theorem Attached.finish (h : Attached s) (id : RequestId) : Attached (finish id s) := by
  rw [Server.finish]
  split
  · exact h.congr rfl rfl rfl rfl rfl
  · exact h

theorem Released.of_finish {id : RequestId} (h : Released (Server.finish id s)) : Released s := by
  rw [Server.finish] at h
  split at h
  · exact ⟨h.descriptors, h.buffers, h.unshared⟩
  · exact h

end

/-- A step keeps the clients attached, unless it disconnects one. -/
theorem step_attached {event : Event} (hregular : Regular config s.kernel s) (h : Attached s)
    (hstep : step build config s event = some t) :
    (disconnects build config s event = none ∧ Attached t) ∨
      disconnects build config s event ≠ none ∧ ¬ Released t := by
  cases event with
  | submit =>
      cases (step_cases hstep).2
      exact Or.inl ⟨rfl, h.congr rfl rfl rfl rfl rfl⟩
  | complete cqe now =>
      rcases complete_cases hregular hstep with ⟨sqe, u, hcompletes, rfl⟩
      rcases hcompletes.attached h with ⟨hnone, hu⟩ | ⟨hsome, hu⟩
      · exact Or.inl ⟨hnone, hu.finish _⟩
      · exact Or.inr ⟨hsome, fun hreleased => hu hreleased.of_finish⟩

/-- The sockets that are open and the recv buffers in use are those of the live clients, in every
state of a run, exactly when the run disconnects no client. -/
theorem connections_released_iff {start₁ start₂ errno : ℕ} {calloc : Bool}
    {trace : List (Transition Server Event)}
    (h : Run (step build config) (start config start₁ start₂ errno calloc) trace t) :
    (∀ x ∈ trace, Released x.post) ↔
      ∀ x ∈ trace, disconnects build config x.pre x.event = none := by
  refine h.forall_congr (fun s => Regular config s.kernel s ∧ Attached s)
    ⟨regular_start .., attached_start ..⟩ ?_ ?_
  · intro s event u hinv hstep hreleased
    refine ⟨step_regular hinv.1 hstep, ?_⟩
    rcases step_attached hinv.1 hinv.2 hstep with ⟨-, hu⟩ | ⟨-, hu⟩
    · exact hu
    · exact absurd hreleased hu
  · intro s event u hinv hstep
    rcases step_attached hinv.1 hinv.2 hstep with ⟨hnone, hu⟩ | ⟨hsome, hu⟩
    · exact ⟨fun _ => hnone, fun _ => hu.released⟩
    · exact ⟨fun hreleased => absurd hreleased hu, fun hnone => absurd hnone hsome⟩

end

/-- A client connects and sends a byte. -/
theorem connections_released_iff_connected :
    let trace := played defaultConfig [.submit, ended 0 5, .submit, chunk 1 [3]]
    ∃ t, Run (step someBuild defaultConfig) (start defaultConfig 0x100000000 0x200000000 0 true)
        trace t ∧ ∀ x ∈ trace, Released x.post := by
  rcases run_played defaultConfig [.submit, ended 0 5, .submit, chunk 1 [3]] with ⟨t, hrun⟩
  refine ⟨t, hrun, (connections_released_iff hrun).mpr ?_⟩
  decide +kernel

/-- A client connects and leaves, and its socket stays open. -/
theorem connections_leak :
    ¬ ∀ build config start₁ start₂ errno calloc trace t,
      Run (step build config) (start config start₁ start₂ errno calloc) trace t →
        ∀ x ∈ trace, Released x.post := by
  intro h
  rcases run_played defaultConfig [.submit, ended 0 5, .submit, ended 1 0] with ⟨t, hrun⟩
  have hleak : ∃ x ∈ played defaultConfig [.submit, ended 0 5, .submit, ended 1 0],
      5 ∈ x.post.descriptors ∧ x.post.clients = [] := by
    decide +kernel
  rcases hleak with ⟨x, hx, hopen, hclients⟩
  rcases ((h _ _ _ _ _ _ _ _ hrun x hx).descriptors 5).mp hopen with ⟨client, hclient, -⟩
  rw [hclients] at hclient
  exact List.not_mem_nil hclient

end Server

end CmcServer
