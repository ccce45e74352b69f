import CmcServer.Model.Request
import CmcServer.Verification.Varint.Correctness
import Mathlib.Data.List.Nodup

/-! # Requests in flight

What `add_accept`, `add_recv` and `server_send_packet` do has one shape: a request is taken from the
pool or made, it is filled, and it is queued if there is an sqe. -/

namespace CmcServer

theorem eq_zero_of_ofErrno {e : ℕ} (h : Err.ofErrno e = .noError) : e = 0 := by
  cases e with
  | zero => rfl
  | succ e => cases h

namespace Net

/-! ## Getting a request -/

/-- `id` is the request that `get_request` returns, which leaves `pool` and `made`. -/
inductive Got (net : Net) : RequestId → List RequestId → ℕ → Prop where
  | reused {id pool} : net.requestsPool = id :: pool → Got net id pool net.made
  | fresh : net.requestsPool = [] → net.calloc = true → Got net net.made [] (net.made + 1)

def got (net : Net) (id : RequestId) (pool : List RequestId) (made : ℕ) (content : Request) : Net :=
  { net with
    requests := Function.update net.requests id content
    requestsPool := pool
    made }

theorem getRequest_cases (net : Net) (content : Request) :
    (net.requestsPool = [] ∧ net.calloc = false ∧
      net.getRequest = (none, { net with errno := ENOMEM })) ∨
    ∃ id pool made net', Got net id pool made ∧ net.getRequest = (some id, net') ∧
      net'.fill id content = net.got id pool made content := by
  rw [getRequest]
  cases hpool : net.requestsPool with
  | nil =>
      cases hcalloc : net.calloc with
      | false => exact Or.inl ⟨rfl, rfl, rfl⟩
      | true =>
          refine Or.inr ⟨net.made, [], net.made + 1, _, .fresh hpool hcalloc, rfl, ?_⟩
          rw [fill, got]
          simp only [Function.update_idem, hcalloc]
  | cons id pool => exact Or.inr ⟨id, pool, net.made, _, .reused hpool, rfl, rfl⟩

/-- What comes of a request for `content`: it is refused, or it is queued with `op`. -/
inductive Issue (content : Request) (op : Op) (net : Net) : Err → Net → Prop where
  | noRequest : net.requestsPool = [] → net.calloc = false →
      Issue content op net (.errno ENOMEM)
        ({ net with errno := ENOMEM }.refuse (.noRequest content.type))
  | noSqe {id pool made} : Got net id pool made → net.isFull = true →
      Issue content op net (.ofErrno net.errno)
        ((net.got id pool made content).refuse (.noSqe content.type net.errno))
  | queued {id pool made} : Got net id pool made → net.isFull = false →
      Issue content op net .noError
        { net.got id pool made content with queue := net.queue ++ [⟨op, id⟩] }

theorem submit_issue {net : Net} {id : RequestId} {pool : List RequestId} {made : ℕ}
    {content : Request} (op : Op) (hgot : Got net id pool made) :
    Issue content op net ((net.got id pool made content).submit id op).1
      ((net.got id pool made content).submit id op).2 := by
  rw [submit]
  have hfull : (net.got id pool made content).isFull = net.isFull := rfl
  have htype : ((net.got id pool made content).requests id).type = content.type := by
    simp [got]
  rw [hfull, htype]
  cases hroom : net.isFull with
  | true => exact .noSqe hgot hroom
  | false => exact .queued hgot hroom

theorem addAccept_issue (net : Net) :
    Issue .accept .accept net net.addAccept.1 net.addAccept.2 := by
  rw [addAccept]
  rcases getRequest_cases net .accept with ⟨hpool, hcalloc, hget⟩ | ⟨id, pool, made, net', hgot,
    hget, hfill⟩
  · rw [hget]
    exact .noRequest hpool hcalloc
  · rw [hget]
    dsimp only
    rw [hfill]
    exact submit_issue .accept hgot

theorem addRecv_issue (config : ServerConfig) (client : ClientId) (socket : ℤ)
    (recvBuffer : BufId) (net : Net) :
    Issue (.recv client) (.recv socket recvBuffer config.recvBufferSize) net
      (net.addRecv config client socket recvBuffer).1
      (net.addRecv config client socket recvBuffer).2 := by
  rw [addRecv]
  rcases getRequest_cases net (.recv client) with ⟨hpool, hcalloc, hget⟩ | ⟨id, pool, made, net',
    hgot, hget, hfill⟩
  · rw [hget]
    exact .noRequest hpool hcalloc
  · rw [hget]
    dsimp only
    rw [hfill]
    exact submit_issue _ hgot

theorem length_pos_of_writeVarint {value : ℤ} {bytes : List UInt8}
    (h : protocolWriteVarint value = some bytes) : 0 < bytes.length := by
  rw [protocolWriteVarint, protocolWriteVarlong, writeLoop] at h
  split at h
  · rcases Option.map_eq_some_iff.mp h with ⟨rest, -, rfl⟩
    exact Nat.succ_pos _
  · cases h
    exact Nat.succ_pos _

/-- A call of `server_send_packet` that ends, without compression. -/
theorem serverSendPacket_issue {client : ClientId} {socket : ℤ} {buffer : BufId} {size : ℤ}
    {net net' : Net} {err : Err}
    (h : net.serverSendPacket false client socket buffer size = some (err, net')) :
    ∃ varintTemp, (err = .noError → protocolWriteVarint size = some varintTemp) ∧
      Issue (.send client varintTemp buffer size) (.writev socket varintTemp buffer size) net err
        net' := by
  rw [serverSendPacket] at h
  rcases getRequest_cases net .accept with ⟨hpool, hcalloc, hget⟩ | ⟨id, pool, made, net₁, hgot,
    hget, -⟩
  · rw [hget] at h
    cases h
    refine ⟨[], ?_, .noRequest hpool hcalloc⟩
    intro herr
    cases herr
  · rw [hget] at h
    simp only [Bool.false_eq_true, if_false] at h
    rcases Option.map_eq_some_iff.mp h with ⟨varintTemp, hvarint, hsent⟩
    rw [if_neg (not_not.mpr (length_pos_of_writeVarint hvarint))] at hsent
    refine ⟨varintTemp, fun _ => hvarint, ?_⟩
    rcases getRequest_cases net (.send client varintTemp buffer size) with ⟨-, -, hnone⟩ |
      ⟨id', pool', made', net₂, hgot', hget', hfill⟩
    · rw [hget] at hnone
      cases hnone
    · rw [hget] at hget'
      cases hget'
      have hissue : Issue (.send client varintTemp buffer size) _ net _ _ :=
        submit_issue (.writev socket varintTemp buffer size) hgot'
      rwa [← hfill, hsent] at hissue

/-! ## Requests are in one place -/

/-- Every request that was made is at most once in the queue, in the pool or among `busy`. -/
structure Sound (busy : List RequestId) (net : Net) : Prop where
  nodup : (busy ++ net.queue.map Sqe.userData ++ net.requestsPool).Nodup
  lt : ∀ id ∈ busy ++ net.queue.map Sqe.userData ++ net.requestsPool, id < net.made

theorem sound_initial (entries : Option ℕ) (errno : ℕ) (calloc : Bool) :
    Sound [] { initial entries with errno, calloc } where
  nodup := List.nodup_nil
  lt := fun _ h => absurd h List.not_mem_nil

section

variable {net net' : Net} {busy : List RequestId} {id : RequestId} {pool : List RequestId}
  {made : ℕ} {content : Request} {op : Op} {err : Err}

/-- A request that is got is in no other place, and the rest stays where it is. -/
theorem Sound.got (h : Sound busy net) (hgot : Got net id pool made) :
    (busy ++ (net.queue.map Sqe.userData ++ [id]) ++ pool).Nodup ∧
      ∀ i ∈ busy ++ (net.queue.map Sqe.userData ++ [id]) ++ pool, i < made := by
  have hnodup := h.nodup
  have hlt := h.lt
  rw [← List.append_assoc]
  cases hgot with
  | reused hpool =>
      rw [hpool] at hnodup hlt
      rw [List.append_assoc _ [id] pool, List.singleton_append]
      exact ⟨hnodup, hlt⟩
  | fresh hpool hcalloc =>
      rw [hpool, List.append_nil] at hnodup hlt
      rw [List.append_nil]
      constructor
      · refine List.nodup_append.mpr ⟨hnodup, List.nodup_singleton _, ?_⟩
        intro i hi j hj
        rw [List.mem_singleton.mp hj]
        exact Nat.ne_of_lt (hlt i hi)
      · intro i hi
        rcases List.mem_append.mp hi with hi | hi
        · exact Nat.lt_succ_of_lt (hlt i hi)
        · rw [List.mem_singleton.mp hi]
          exact Nat.lt_succ_self _

/-- Requests stay in one place, whatever comes of a new one. -/
theorem Issue.sound (hissue : Issue content op net err net') (h : Sound busy net) :
    Sound busy net' := by
  cases hissue with
  | noRequest => exact ⟨h.nodup, h.lt⟩
  | @noSqe id pool made hgot hfull =>
      rcases h.got hgot with ⟨hnodup, hlt⟩
      have hsub : (busy ++ net.queue.map Sqe.userData ++ pool).Sublist
          (busy ++ (net.queue.map Sqe.userData ++ [id]) ++ pool) := by
        refine List.Sublist.append_right ?_ _
        exact List.Sublist.append_left (List.sublist_append_left _ _) _
      exact ⟨hnodup.sublist hsub, fun i hi => hlt i (hsub.subset hi)⟩
  | @queued id pool made hgot hroom =>
      rcases h.got hgot with ⟨hnodup, hlt⟩
      refine ⟨?_, ?_⟩
      · simpa [Net.got] using hnodup
      · simpa [Net.got] using hlt

theorem Got.ne (hgot : Got net id pool made) (h : Sound busy net) {i : RequestId}
    (hi : i ∈ busy ++ net.queue.map Sqe.userData) : i ≠ id := by
  rintro rfl
  have hnodup := (h.got hgot).1
  rw [← List.append_assoc, List.append_assoc _ [i] pool] at hnodup
  exact (List.nodup_append.mp hnodup).2.2 i hi i (by simp) rfl

end

end Net

/-! ## The contents of requests -/

/-- What is asked of the kernel, first the requests that it has. -/
def outstanding (inFlight : List Sqe) (net : Net) : List Request :=
  (inFlight ++ net.queue).map fun sqe => net.requests sqe.userData

section

variable {net net' : Net} {busy : List RequestId} {inFlight : List Sqe} {content : Request}
  {op : Op} {err : Err}

/-- A request that is filled does not change what waits. -/
theorem Net.Got.requests {id : RequestId} {pool : List RequestId} {made : ℕ}
    (hgot : Net.Got net id pool made) (h : net.Sound busy)
    (hbusy : ∀ sqe ∈ inFlight, sqe.userData ∈ busy) {sqe : Sqe}
    (hsqe : sqe ∈ inFlight ++ net.queue) :
    (net.got id pool made content).requests sqe.userData = net.requests sqe.userData := by
  have hmem : sqe.userData ∈ busy ++ net.queue.map Sqe.userData := by
    rcases List.mem_append.mp hsqe with hsqe | hsqe
    · exact List.mem_append_left _ (hbusy sqe hsqe)
    · exact List.mem_append_right _ (List.mem_map_of_mem hsqe)
  rw [Net.got]
  exact Function.update_of_ne (hgot.ne h hmem) _ _

/-- A law of all requests that wait, which the new one satisfies. -/
theorem Net.Issue.forall {Q : Op → Request → Prop} (hissue : Net.Issue content op net err net')
    (h : net.Sound busy) (hbusy : ∀ sqe ∈ inFlight, sqe.userData ∈ busy) (hnew : Q op content)
    (hold : ∀ sqe ∈ inFlight ++ net.queue, Q sqe.op (net.requests sqe.userData)) :
    ∀ sqe ∈ inFlight ++ net'.queue, Q sqe.op (net'.requests sqe.userData) := by
  cases hissue with
  | noRequest hpool hcalloc => exact hold
  | @noSqe id pool made hgot hfull =>
      intro sqe hsqe
      have hsame : (net.got id pool made content).requests sqe.userData =
          net.requests sqe.userData := hgot.requests h hbusy hsqe
      have hQ := hold sqe hsqe
      rwa [← hsame] at hQ
  | @queued id pool made hgot hroom =>
      intro sqe hsqe
      dsimp only at hsqe ⊢
      rw [← List.append_assoc] at hsqe
      rcases List.mem_append.mp hsqe with hsqe | hsqe
      · rw [hgot.requests h hbusy hsqe]
        exact hold sqe hsqe
      · rw [List.mem_singleton.mp hsqe]
        simpa [Net.got] using hnew

/-- What waits after a request for `content`: that too, or one more was refused. A refusal that is
not reported is one for an sqe while `errno` is zero. -/
theorem Net.Issue.outstanding_cases (hissue : Net.Issue content op net err net')
    (h : net.Sound busy) (hbusy : ∀ sqe ∈ inFlight, sqe.userData ∈ busy) :
    (err = .noError ∧ outstanding inFlight net' = outstanding inFlight net ++ [content] ∧
        net'.refused = net.refused) ∨
      outstanding inFlight net' = outstanding inFlight net ∧
        ∃ refusal, net'.refused = net.refused ++ [refusal] ∧
          (err = .noError → refusal = .noSqe content.type 0) := by
  cases hissue with
  | noRequest hpool hcalloc =>
      refine Or.inr ⟨rfl, _, rfl, ?_⟩
      intro herr
      cases herr
  | noSqe hgot hfull =>
      refine Or.inr ⟨?_, _, rfl, ?_⟩
      · exact List.map_congr_left fun sqe hsqe => hgot.requests h hbusy hsqe
      · intro herr
        rw [eq_zero_of_ofErrno herr]
  | @queued id pool made hgot hroom =>
      refine Or.inl ⟨rfl, ?_, rfl⟩
      have hold : ∀ sqe ∈ inFlight ++ net.queue,
          (net.got id pool made content).requests sqe.userData = net.requests sqe.userData :=
        fun sqe hsqe => hgot.requests h hbusy hsqe
      rw [CmcServer.outstanding, CmcServer.outstanding, ← List.map_congr_left hold]
      simp [Net.got]

end

end CmcServer
