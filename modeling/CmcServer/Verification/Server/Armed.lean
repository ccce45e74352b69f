import CmcServer.Lib.Conservation
import CmcServer.Verification.Server.Steps

/-! # The listener and the clients stay armed

A server that goes on waits for one connection, and for bytes of every live client. A request that
is refused breaks this, unless it stops the server. -/

namespace CmcServer

open Conservation Runs

/-- Every request that was made is in one place. -/
def Net.Whole (busy : List RequestId) (net : Net) : Prop :=
  Conserved (fun _ => True) net.made (busy ++ net.queue.map Sqe.userData ++ net.requestsPool)

section

variable {net net' : Net} {busy : List RequestId} {inFlight : List Sqe} {content : Request}
  {op : Op} {err : Err}

theorem Net.Issue.refused_le (hissue : Net.Issue content op net err net') :
    net.refused.length ≤ net'.refused.length := by
  cases hissue with
  | noRequest | noSqe =>
      rw [Net.refuse, List.length_append]
      exact Nat.le_add_right _ _
  | queued => exact Nat.le_refl _

/-- A request that is queued leaves its place for the queue. -/
theorem Net.Issue.whole (hissue : Net.Issue content op net err net')
    (hrefused : net'.refused.length = net.refused.length) (h : net.Whole busy) :
    net'.Whole busy := by
  cases hissue with
  | noRequest | noSqe =>
      rw [Net.refuse, List.length_append] at hrefused
      exact absurd hrefused (by simp [Net.got])
  | @queued id pool made hgot hroom =>
      rw [Net.Whole]
      simp only [Net.got, List.map_append, List.map_cons, List.map_nil]
      rw [Net.Whole] at h
      cases hgot with
      | reused hpool =>
          refine h.perm ?_
          rw [hpool]
          simp
      | fresh hpool hcalloc =>
          rw [hpool, List.append_nil] at h
          refine (h.make fun _ _ => Iff.rfl).perm ?_
          rw [List.append_nil, ← List.append_assoc]
          exact (List.perm_append_singleton _ _).symm

/-- The outstanding requests that are not sends, as long as none was refused. -/
structure Waiting (busy : List RequestId) (inFlight : List Sqe) (known : ℕ) (asked : List Request)
    (net : Net) : Prop where
  sound : net.Sound busy
  le : known ≤ net.refused.length
  whole : net.refused.length = known → net.Whole busy
  count : net.refused.length = known → ∀ request, request.type ≠ .send →
    (outstanding inFlight net).count request = asked.count request

theorem Waiting.issue {known : ℕ} {asked : List Request}
    (h : Waiting busy inFlight known asked net) (hbusy : ∀ sqe ∈ inFlight, sqe.userData ∈ busy)
    (hissue : Net.Issue content op net err net') :
    Waiting busy inFlight known (asked ++ [content]) net' := by
  have hold : net'.refused.length = known → net.refused.length = known := by
    intro hknown
    exact Nat.le_antisymm (Nat.le_trans hissue.refused_le (Nat.le_of_eq hknown)) h.le
  refine ⟨hissue.sound h.sound, Nat.le_trans h.le hissue.refused_le, ?_, ?_⟩
  · intro hknown
    exact hissue.whole (hknown.trans (hold hknown).symm) (h.whole (hold hknown))
  · intro hknown request hrequest
    rcases hissue.outstanding_cases h.sound hbusy with ⟨-, hout, -⟩ | ⟨-, refusal, hrefused, -⟩
    · rw [hout, List.count_append, List.count_append, h.count (hold hknown) request hrequest]
    · have hsame := hold hknown
      rw [hrefused, List.length_append, List.length_singleton] at hknown
      omega

theorem Waiting.issue_send {known : ℕ} {asked : List Request}
    (h : Waiting busy inFlight known asked net) (hbusy : ∀ sqe ∈ inFlight, sqe.userData ∈ busy)
    (hcontent : content.type = .send) (hissue : Net.Issue content op net err net') :
    Waiting busy inFlight known asked net' := by
  have hissued := h.issue hbusy hissue
  refine ⟨hissued.sound, hissued.le, hissued.whole, ?_⟩
  intro hknown request hrequest
  have hne : content ≠ request := by
    rintro rfl
    exact hrequest hcontent
  have hcount := hissued.count hknown request hrequest
  rwa [List.count_append, List.count_singleton, if_neg (by simpa using hne), Nat.add_zero] at hcount

end

namespace Server

/-- `requests` has one accept, and one recv of each client. -/
structure Listening (requests : List Request) (clients : List ClientId) : Prop where
  accept : requests.count .accept = 1
  recv : ∀ client ∈ clients, requests.count (.recv client) = 1

/-- One accept waits, one recv of every live client, and every request is in one place. -/
structure Armed (s : Server) : Prop where
  listening : Listening (outstanding s.inFlight s.net) s.clients
  whole : s.net.Whole s.kernel

def Processed : Event → Prop
  | .submit => False
  | .complete _ _ => True

instance : DecidablePred Processed
  | .submit => isFalse not_false
  | .complete _ _ => isTrue trivial

def Refuses (x : Transition Server Event) : Prop :=
  x.post.stopped = none ∧ x.post.net.refused.length ≠ x.pre.net.refused.length

instance : DecidablePred Refuses := fun _ => inferInstanceAs (Decidable (_ ∧ _))

section

variable {build : Build} {config : ServerConfig} {s t : Server}

theorem Listening.congr {requests requests' : List Request} {clients clients' : List ClientId}
    (h : Listening requests clients)
    (hcount : ∀ request, request.type ≠ .send → requests'.count request = requests.count request)
    (hclients : clients' ⊆ clients) : Listening requests' clients' where
  accept := by
    rw [hcount _ (by decide)]
    exact h.accept
  recv := by
    intro client hclient
    rw [hcount _ (by simp [Request.type])]
    exact h.recv client (hclients hclient)

/-- The recv of a client that is not live any more is gone. -/
theorem Listening.erase {requests : List Request} {clients : List ClientId} {client : ClientId}
    (h : Listening (.recv client :: requests) clients) (hnodup : clients.Nodup) :
    Listening requests (clients.erase client) where
  accept := by
    have haccept := h.accept
    rwa [List.count_cons_of_ne (by simp)] at haccept
  recv := by
    intro c hc
    rcases hnodup.mem_erase_iff.mp hc with ⟨hne, hmem⟩
    have hrecv := h.recv c hmem
    rwa [List.count_cons_of_ne (by simpa using Ne.symm hne)] at hrecv

/-- A new client gets its recv, and the accept is asked for again. -/
theorem Listening.connect {requests : List Request} {clients : List ClientId} {client : ClientId}
    (h : Listening (.accept :: requests) clients) (hclient : client ∉ clients)
    (hfresh : Request.recv client ∉ requests) :
    Listening (requests ++ [.recv client] ++ [.accept]) (clients ++ [client]) where
  accept := by
    have haccept := h.accept
    rw [List.count_cons_self] at haccept
    simp [List.count_append, Nat.succ_injective haccept]
  recv := by
    intro c hc
    rcases List.mem_append.mp hc with hc | hc
    · have hne : client ≠ c := by
        rintro rfl
        exact hclient hc
      have hrecv := h.recv c hc
      rw [List.count_cons_of_ne (by simp)] at hrecv
      simp [List.count_append, hrecv, hne]
    · rw [List.mem_singleton.mp hc]
      simp [List.count_append, List.count_eq_zero_of_not_mem hfresh]

theorem receive_waiting {client : ClientId} {data : List UInt8} {now : Conditions} {err : Err}
    {busy : List RequestId} {known : ℕ} {asked : List Request}
    (h : Waiting busy s.inFlight known asked s.net) (hregular : Regular config busy s)
    (hreceive : receive build config client data now s = (err, t)) :
    Waiting busy t.inFlight known asked t.net := by
  have hwaiting := (receive_net (hregular.resumable client)
    (fun _ _ _ _ _ _ _ hissue hJ => hJ.issue_send hregular.flying rfl hissue) h hreceive).2
  rcases receive_cases hreceive with ⟨rs, w, -, rfl⟩
  exact hwaiting

section

variable {sqe : Sqe} {cqe : Completion} {now : Conditions} {u : Server}

theorem Completes.waiting_take (hcompletes : Completes build config s cqe now sqe u)
    (h : Armed s) : Waiting (sqe.userData :: u.kernel) (take sqe now s).inFlight
      s.net.refused.length (outstanding (s.inFlight.erase sqe) s.net) (take sqe now s).net where
  sound := hcompletes.before.sound
  le := Nat.le_refl _
  whole := by
    intro _
    have hkernel : u.kernel = (s.inFlight.erase sqe).map Sqe.userData := by
      rw [kernel, hcompletes.handled.inFlight]
      rfl
    have hids : s.kernel.Perm (sqe.userData :: u.kernel) := by
      rw [hkernel]
      exact (List.perm_cons_erase hcompletes.mem).map _
    exact h.whole.perm ((hids.append_right _).append_right _)
  count := fun _ _ _ => rfl

/-- What the clients wait for, after a completion that refuses no request or stops the server. -/
theorem Completes.listening (hcompletes : Completes build config s cqe now sqe u) (h : Armed s)
    (hgoes : u.stopped = none)
    (hrefused : u.net.refused.length = s.net.refused.length) :
    Listening (outstanding u.inFlight u.net) u.clients ∧
      u.net.Whole (sqe.userData :: u.kernel) := by
  have htaken := hcompletes.waiting_take h
  have hregular := hcompletes.before
  have hlistening : Listening (s.net.requests sqe.userData ::
      outstanding (s.inFlight.erase sqe) s.net) s.clients :=
    h.listening.congr (fun request _ => (hcompletes.perm.count_eq request).symm)
      (List.Subset.refl _)
  have hhandled := hcompletes.handled
  generalize s.net.requests sqe.userData = request at hlistening hhandled
  cases hhandled with
  | refused => cases hgoes
  | unarmed => cases hgoes
  | @connected net₁ err net₂ _ hrecv haccept =>
      have hwaiting := (htaken.issue hregular.flying hrecv).issue hregular.flying haccept
      refine ⟨?_, hwaiting.whole hrefused⟩
      have hfresh : Request.recv s.allocated ∉ outstanding (s.inFlight.erase sqe) s.net := by
        intro hmem
        rcases List.mem_map.mp hmem with ⟨sqe', hsqe', heq⟩
        have hlt := (hregular.fits sqe' hsqe').client_lt s.allocated (by
          have hrequest : (take sqe now s).net.requests sqe'.userData = .recv s.allocated := heq
          rw [hrequest]
          rfl)
        exact Nat.lt_irrefl _ hlt
      have hclient : s.allocated ∉ s.clients :=
        fun hmem => Nat.lt_irrefl _ (hregular.clients_lt _ hmem)
      exact (hlistening.connect hclient hfresh).congr
        (fun request hrequest => hwaiting.count hrefused request hrequest) (List.Subset.refl _)
  | closed =>
      refine ⟨?_, htaken.whole hrefused⟩
      exact hlistening.erase hregular.clients_nodup
  | @rejected client t _ hresult =>
      have hwaiting := receive_waiting htaken hregular hresult
      refine ⟨?_, hwaiting.whole hrefused⟩
      have herased := hlistening.erase hregular.clients_nodup
      rcases receive_cases hresult with ⟨rs, w, -, rfl⟩
      exact herased.congr (fun request hrequest => hwaiting.count hrefused request hrequest)
        (List.Subset.refl _)
  | failed => cases hgoes
  | @received client t err net _ hresult hrecv =>
      have hwaiting := (receive_waiting htaken hregular hresult).issue
        (receive_sound hregular hresult).2 hrecv
      refine ⟨?_, hwaiting.whole hrefused⟩
      rcases receive_cases hresult with ⟨rs, w, -, rfl⟩
      refine hlistening.congr (fun request hrequest => ?_) (List.Subset.refl _)
      rw [hwaiting.count hrefused request hrequest]
      exact (List.perm_append_singleton _ _).count_eq request
  | unsent =>
      refine ⟨?_, htaken.whole hrefused⟩
      refine hlistening.congr (fun request hrequest => ?_) List.erase_subset
      refine (List.count_cons_of_ne ?_).symm
      rintro rfl
      exact hrequest rfl
  | sent =>
      refine ⟨?_, htaken.whole hrefused⟩
      refine hlistening.congr (fun request hrequest => ?_) (List.Subset.refl _)
      refine (List.count_cons_of_ne ?_).symm
      rintro rfl
      exact hrequest rfl

end

theorem armed_submit (h : Armed s) : Armed s.submitAndWait := by
  have hout : outstanding s.submitAndWait.inFlight s.submitAndWait.net =
      outstanding s.inFlight s.net := by
    simp [outstanding, submitAndWait]
  have hids : s.submitAndWait.kernel ++ s.submitAndWait.net.queue.map Sqe.userData =
      s.kernel ++ s.net.queue.map Sqe.userData := by
    simp [kernel, submitAndWait]
  refine ⟨?_, ?_⟩
  · rw [hout]
    exact h.listening
  · rw [Net.Whole, hids]
    exact h.whole

theorem armed_finish {id : RequestId} (hgoes : s.stopped = none)
    (hlistening : Listening (outstanding s.inFlight s.net) s.clients)
    (hwhole : s.net.Whole (id :: s.kernel)) : Armed (finish id s) := by
  rw [finish, if_pos hgoes]
  exact ⟨hlistening, hwhole.perm List.perm_middle.symm⟩

def Deaf (s : Server) : Prop := s.inFlight ++ s.net.queue = []

theorem step_armed {event : Event} (hregular : Regular config s.kernel s)
    (h : Armed s ∨ Deaf s) (hstep : step build config s event = some t)
    (hrefuses : ¬ Refuses ⟨s, event, t⟩) (hgoes : t.stopped = none) :
    (¬ Processed event ∧ Deaf t) ∨ Armed t := by
  cases event with
  | submit =>
      cases (step_cases hstep).2
      rcases h with harmed | hdeaf
      · exact Or.inr (armed_submit harmed)
      · refine Or.inl ⟨not_false, ?_⟩
        simpa [Deaf, submitAndWait] using hdeaf
  | complete cqe now =>
      rcases complete_cases hregular hstep with ⟨sqe, u, hcompletes, rfl⟩
      rcases h with harmed | hdeaf
      · have hrefused : (finish sqe.userData u).net.refused = u.net.refused := by
          rw [finish]
          split <;> rfl
        have hstopped : (finish sqe.userData u).stopped = u.stopped := by
          rw [finish]
          split <;> rfl
        have hsame : u.net.refused.length = s.net.refused.length := by
          by_contra hne
          refine hrefuses ⟨hgoes, ?_⟩
          rwa [hrefused]
        rw [hstopped] at hgoes
        rcases hcompletes.listening harmed hgoes hsame with ⟨hlistening, hwhole⟩
        exact Or.inr (armed_finish hgoes hlistening hwhole)
      · rw [Deaf] at hdeaf
        have hmem := hcompletes.mem
        rw [(List.append_eq_nil_iff.mp hdeaf).1] at hmem
        exact absurd hmem List.not_mem_nil

theorem armed_start (config : ServerConfig) (start₁ start₂ errno : ℕ) (calloc : Bool) :
    Armed (start config start₁ start₂ errno calloc) ∨
      Deaf (start config start₁ start₂ errno calloc) := by
  have hissue := Net.addAccept_issue { Net.initial (some (ringEntries config)) with errno, calloc }
  have hsound := Net.sound_initial (some (ringEntries config)) errno calloc
  have hwhole : ({ Net.initial (some (ringEntries config)) with errno, calloc } : Net).Whole [] :=
    conserved_nil
  have hnone : ∀ sqe ∈ ([] : List Sqe), sqe.userData ∈ ([] : List RequestId) := by simp
  rcases hissue.outstanding_cases hsound hnone with ⟨-, hout, hrefused⟩ | ⟨hout, -⟩
  · refine Or.inl ⟨?_, ?_⟩
    · have hone : outstanding (start config start₁ start₂ errno calloc).inFlight
          (start config start₁ start₂ errno calloc).net = [.accept] := hout
      rw [hone]
      exact ⟨rfl, fun _ h => absurd h List.not_mem_nil⟩
    · exact hissue.whole (congrArg List.length hrefused) hwhole
  · exact Or.inr (List.map_eq_nil_iff.mp hout)

/-- In a run in which no request is refused but where the server stops, after each completion one
accept waits, one recv of every live client, and every request is in one place. -/
theorem server_stays_armed {start₁ start₂ errno : ℕ} {calloc : Bool}
    {trace : List (Transition Server Event)}
    (h : Run (step build config) (start config start₁ start₂ errno calloc) trace t)
    (hrefuses : ∀ x ∈ trace, ¬ Refuses x) :
    ∀ x ∈ trace, Processed x.event → x.post.stopped = none → Armed x.post := by
  intro x hx hevent hgoes
  have hlaw := run_law (P := fun s => s.stopped = none → Armed s ∨ Deaf s) h
    (fun _ => armed_start ..) ?_ hrefuses x hx
  · rcases hlaw with ⟨hstep, hpre, -⟩
    rcases step_armed hpre.1 (hpre.2 (step_cases hstep).1) hstep (hrefuses x hx) hgoes with
      ⟨hsubmit, -⟩ | harmed
    · exact absurd hevent hsubmit
    · exact harmed
  · intro s event t hregular hs hstep hok hgoes
    rcases step_armed hregular (hs (step_cases hstep).1) hstep hok hgoes with ⟨-, hdeaf⟩ | harmed
    · exact Or.inr hdeaf
    · exact Or.inl harmed

end

/-- One ping fits the queue. -/
theorem server_stays_armed_ping :
    let trace := played smallConfig [.submit, ended 0 5, .submit, chunk 1 (handshake ++ ping)]
    ∃ t, Run (step someBuild smallConfig) (start smallConfig 0x100000000 0x200000000 0 true)
        trace t ∧
      ∀ x ∈ trace, Processed x.event → x.post.stopped = none → Armed x.post := by
  rcases run_played smallConfig [.submit, ended 0 5, .submit, chunk 1 (handshake ++ ping)] with
    ⟨t, hrun⟩
  refine ⟨t, hrun, server_stays_armed hrun ?_⟩
  decide +kernel

/-- Two pings fill the queue, and nothing is received from their client any more. -/
theorem server_starves :
    ¬ ∀ build config start₁ start₂ errno calloc trace t,
      Run (step build config) (start config start₁ start₂ errno calloc) trace t →
        ∀ x ∈ trace, Processed x.event → x.post.stopped = none → Armed x.post := by
  intro h
  rcases run_played smallConfig [.submit, ended 0 5, .submit, chunk 1 (handshake ++ ping ++ ping)]
    with ⟨t, hrun⟩
  have hstarved : ∃ x ∈ played smallConfig
      [.submit, ended 0 5, .submit, chunk 1 (handshake ++ ping ++ ping)],
      Processed x.event ∧ x.post.stopped = none ∧ 0 ∈ x.post.clients ∧
        (outstanding x.post.inFlight x.post.net).count (.recv 0) = 0 := by
    decide +kernel
  rcases hstarved with ⟨x, hx, hevent, hgoes, hlive, hcount⟩
  have hone := (h _ _ _ _ _ _ _ _ hrun x hx hevent hgoes).listening.recv 0 hlive
  rw [hcount] at hone
  cases hone

end Server

end CmcServer
