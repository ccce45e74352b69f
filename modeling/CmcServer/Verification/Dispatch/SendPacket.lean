import CmcServer.Verification.Dispatch.Requests

/-! # A send that fails

`server_send_packet` takes a request before it knows that there is an sqe for it. On the way out
the request is not returned, and the result is whatever `errno` was. -/

namespace CmcServer.Net

variable (compression : Bool) (client : ClientId) (socket : ℤ) (buffer : BufId) (size : ℤ)

/-- One sqe was queued: its vectors are the size as a varint and the buffer. -/
def QueuedPacket (net net' : Net) : Prop :=
  ∃ request, net'.requests request = .send client (Base128.encode size.toNat) buffer size ∧
    net'.queue = net.queue ++ [⟨.writev socket (Base128.encode size.toNat) buffer size, request⟩]

/-- No sqe was queued, and the request that was taken is in the pool again. -/
def Undone (net net' : Net) : Prop :=
  net'.queue = net.queue ∧ ∀ request taken, net.getRequest = (some request, taken) →
    net'.requestsPool.Perm (request :: taken.requestsPool)

/-- The packet is queued if the result is `NO_ERROR`, and nothing was done otherwise. -/
def AllOrNothing (net : Net) : Prop :=
  ∃ err net', net.serverSendPacket compression client socket buffer size = some (err, net') ∧
    (err = .noError ↔ QueuedPacket client socket buffer size net net') ∧
    (err ≠ .noError → Undone net net')

variable {client socket buffer size} {net net' : Net}

theorem QueuedPacket.queue_ne (h : QueuedPacket client socket buffer size net net') :
    net'.queue ≠ net.queue := by
  obtain ⟨request, -, hqueue⟩ := h
  simp [hqueue]

/-- A request that was taken and not returned is missing in the pool. -/
theorem not_undone {request : RequestId} {taken : Net}
    (hget : net.getRequest = (some request, taken))
    (hpool : net'.requestsPool = taken.requestsPool) : ¬ Undone net net' := by
  intro h
  have hperm := (h.2 request taken hget).length_eq
  simp [hpool] at hperm

/-! ## The ways out -/

theorem serverSendPacket_of_compression {request : RequestId} {taken : Net}
    (hget : net.getRequest = (some request, taken)) :
    net.serverSendPacket true client socket buffer size =
      some (.checkFailed, taken.fill request (.send client [] buffer size)) := by
  simp [serverSendPacket, hget]

theorem serverSendPacket_of_request {request : RequestId} {taken : Net} (hlo : 0 < size)
    (hhi : size < 2 ^ 31) (hget : net.getRequest = (some request, taken)) :
    net.serverSendPacket false client socket buffer size =
      some ((taken.fill request (.send client (Base128.encode size.toNat) buffer size)).submit
        request (.writev socket (Base128.encode size.toNat) buffer size)) := by
  have hsize : (size.toNat : ℤ) = size := Int.toNat_of_nonneg hlo.le
  have hvarint : protocolWriteVarint size = some (Base128.encode size.toNat) := by
    have hnat := protocolWriteVarint_nat (show size.toNat < 2 ^ 63 by omega)
    rwa [hsize] at hnat
  have hpos := Base128.encode_length_pos size.toNat
  simp [serverSendPacket, hget, hvarint, Base128.encode_ne_nil]

/-- Without a request nothing was done. -/
theorem allOrNothing_of_noRequest (hpool : net.requestsPool = []) (hcalloc : net.calloc = false) :
    AllOrNothing compression client socket buffer size net := by
  have hget : net.getRequest = (none, { net with errno := ENOMEM }) := by
    simp [getRequest, hpool, hcalloc]
  refine ⟨.ofErrno ENOMEM, { net with errno := ENOMEM }.refuse (.noRequest .send), ?_, ?_, ?_⟩
  · simp [serverSendPacket, hget]
  · constructor
    · intro herr
      cases herr
    · intro hqueued
      exact absurd rfl hqueued.queue_ne
  · intro _
    refine ⟨rfl, ?_⟩
    intro request taken h
    rw [hget] at h
    cases h

/-- With compression the check fails behind the request. -/
theorem not_allOrNothing_of_compression {request : RequestId} {taken : Net}
    (hget : net.getRequest = (some request, taken)) :
    ¬ AllOrNothing true client socket buffer size net := by
  rintro ⟨err, net', hsend, -, hundone⟩
  rw [serverSendPacket_of_compression hget] at hsend
  cases hsend
  exact not_undone hget rfl (hundone (by decide))

/-- The queue decides about the rest. -/
theorem allOrNothing_iff_of_request {request : RequestId} {taken : Net} (hlo : 0 < size)
    (hhi : size < 2 ^ 31) (hget : net.getRequest = (some request, taken))
    (hqueue : taken.queue = net.queue) (hfull : taken.isFull = net.isFull) :
    AllOrNothing false client socket buffer size net ↔ net.isFull = false := by
  rw [AllOrNothing, serverSendPacket_of_request hlo hhi hget, submit]
  have hfill : ∀ content, (taken.fill request content).isFull = net.isFull := fun _ => hfull
  rw [hfill]
  cases hroom : net.isFull with
  | true =>
      simp only [if_true]
      constructor
      · rintro ⟨err, net', hsend, hqueued, hundone⟩
        cases hsend
        cases hok : Err.ofErrno (taken.fill request
            (.send client (Base128.encode size.toNat) buffer size)).errno with
        | noError => exact absurd hqueue (hqueued.mp hok).queue_ne
        | checkFailed => exact absurd (hundone (by simp [hok])) (not_undone hget rfl)
        | protocol => exact absurd (hundone (by simp [hok])) (not_undone hget rfl)
        | errno e => exact absurd (hundone (by simp [hok])) (not_undone hget rfl)
      · intro h
        cases h
  | false =>
      simp only [Bool.false_eq_true, if_false, iff_true]
      refine ⟨_, _, rfl, ?_, fun herr => absurd rfl herr⟩
      refine iff_of_true rfl ⟨request, ?_, ?_⟩
      · simp [fill]
      · simp [fill, hqueue]

/-- Sending is all or nothing exactly when there is no request at all, or there is an sqe for it and
the client has no compression. -/
theorem sendPacket_allOrNothing_iff (net : Net) (hlo : 0 < size) (hhi : size < 2 ^ 31) :
    AllOrNothing compression client socket buffer size net ↔
      (net.requestsPool = [] ∧ net.calloc = false) ∨
        (compression = false ∧ net.isFull = false) := by
  rcases getRequest_cases net .accept with ⟨hpool, hcalloc, -⟩ | ⟨id, pool, made, taken, hgot, hget,
    hfill⟩
  · exact iff_of_true (allOrNothing_of_noRequest compression hpool hcalloc)
      (Or.inl ⟨hpool, hcalloc⟩)
  · have hqueue : (taken.fill id .accept).queue = (net.got id pool made .accept).queue := by
      rw [hfill]
    have hfull : (taken.fill id .accept).isFull = (net.got id pool made .accept).isFull := by
      rw [hfill]
    have havailable : ¬ (net.requestsPool = [] ∧ net.calloc = false) := by
      rintro ⟨hpool, hcalloc⟩
      cases hgot with
      | reused h => simp [hpool] at h
      | fresh _ h => simp [hcalloc] at h
    rw [or_iff_right havailable]
    cases compression with
    | true => exact iff_of_false (not_allOrNothing_of_compression hget) (by simp)
    | false => simpa using allOrNothing_iff_of_request hlo hhi hget hqueue hfull

/-- The first packet of a queue with room. -/
theorem sendPacket_allOrNothing_first : AllOrNothing false 0 5 0 10 (initial (some 2)) :=
  (sendPacket_allOrNothing_iff false (initial (some 2)) (by decide) (by decide)).mpr
    (Or.inr (by decide))

/-- A full queue and no error before: the packet is gone, and the caller is told that it was
queued. -/
theorem sendPacket_dropped : ¬ ∀ compression client socket buffer size net,
    0 < size → size < 2 ^ 31 → AllOrNothing compression client socket buffer size net := by
  intro h
  rcases h false 0 5 0 10 (initial (some 0)) (by decide) (by decide) with
    ⟨err, net', hsend, hqueued, -⟩
  have hdropped : (initial (some 0)).serverSendPacket false 0 5 0 10 =
      some (.noError, { initial (some 0) with
        requests := Function.update (Function.update (fun _ => .accept) 0 .accept) 0
          (.send 0 [10] 0 10)
        made := 1
        refused := [.noSqe .send 0] }) := rfl
  rw [hdropped] at hsend
  cases hsend
  exact (hqueued.mp rfl).queue_ne rfl

end CmcServer.Net
