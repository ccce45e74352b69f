import CmcServer.Model.BufferPool
import CmcServer.Model.CInt

/-! # The frame receiver

`receiver_consume_data` is a coroutine written with `switch` on saved line numbers. One pass
through its `while (len > 0)` body is `receiverPass`; it either leaves the function, through an
error or a `FETCHER_RETURN`, or finishes a frame and goes around again. -/

namespace CmcServer

/-- What `receiver_state->packet` points at: nothing, the rest of the received chunk, or a
buffer of the pool. -/
inductive PacketPtr where
  | null
  | data (bytes : List UInt8)
  | buffer (b : BufId)
  deriving DecidableEq, Repr

/-- `receiver_state_t`. -/
structure ReceiverState where
  leftToRead : ℕ
  line : ℕ
  varintCurrentByte : UInt8
  varintLength : UInt8
  packetLength : ℤ
  packet : PacketPtr
  shouldReturn : Bool
  compression : Bool
  encryption : Bool
  deriving DecidableEq, Repr

namespace ReceiverState

/-- The receiver state of a client fresh from `calloc`. -/
def initial : ReceiverState where
  leftToRead := 0
  line := 0
  varintCurrentByte := 0
  varintLength := 0
  packetLength := 0
  packet := .null
  shouldReturn := false
  compression := false
  encryption := false

/-- The `__LINE__` of the `FETCHER_RETURN` in the length loop. -/
def lengthLine : ℕ := 39

/-- The `__LINE__` of the `FETCHER_RETURN` in the copy loop. -/
def copyLine : ℕ := 93

end ReceiverState

/-- The buffer pools, and the state `dispatch_packet` works on. -/
structure World (σ : Type*) where
  pools : BufferPools
  app : σ

/-- `dispatch_packet`: the packet's bytes, its length argument and the state around it. -/
abbrev Dispatch (σ : Type*) := List UInt8 → ℤ → World σ → Err × World σ

/-- Where the length loop leaves off. -/
inductive LengthFetch where
  | suspended (rs : ReceiverState)
  | tooLong (rs : ReceiverState)
  | fetched (rs : ReceiverState) (data : List UInt8)

/-- Where one pass of the body leaves off, before `cleanup`. -/
inductive Pass (σ : Type*) where
  | failed (err : Err) (rs : ReceiverState) (w : World σ)
  | suspended (rs : ReceiverState) (w : World σ)
  | finished (rs : ReceiverState) (w : World σ) (data : List UInt8)

open ReceiverState

/-- The loop that fetches the length prefix. It stops on `varint.current_byte`, a field that is
not assigned anywhere. -/
def fetchLength (rs : ReceiverState) : List UInt8 → LengthFetch
  | [] => .suspended { rs with line := lengthLine }
  | currentByte :: data =>
      let rs := { rs with
        packetLength := orGroup rs.packetLength currentByte (rs.varintLength.toNat * 7)
        varintLength := rs.varintLength + 1 }
      if ¬ rs.varintLength ≤ 5 then .tooLong rs
      else if rs.varintCurrentByte &&& 0x80 = 0 then .fetched rs data
      else fetchLength rs data

section

variable {σ : Type*} (config : ServerConfig) (dispatch : Dispatch σ)

/-- The bytes that `dispatch_packet` finds at the packet pointer. -/
def PacketPtr.bytes (packet : PacketPtr) (pools : BufferPools) (n : ℕ) : List UInt8 :=
  match packet with
  | .null => []
  | .data bytes => bytes.take n
  | .buffer b => pools.contents b n

/-- Give the packet back. It came from the recv pool and goes to the send pool. -/
def returnPacket (rs : ReceiverState) (w : World σ) : ReceiverState × World σ :=
  if rs.shouldReturn then
    ({ rs with packet := .null, shouldReturn := false },
      match rs.packet with
      | .buffer b => { w with pools := w.pools.bufferPoolReturnProtocolSend b }
      | _ => w)
  else (rs, w)

/-- The end of the body: the packet is complete and is dispatched. -/
def packetReady (rs : ReceiverState) (w : World σ) (data : List UInt8) : Pass σ :=
  if rs.compression then .failed .checkFailed rs w
  else
    match dispatch (rs.packet.bytes w.pools rs.packetLength.toNat) rs.packetLength w with
    | (.noError, w) =>
        let (rs, w) := returnPacket rs w
        .finished { rs with line := 0 } w data
    | (err, w) => .failed err rs w

/-- `can_copy`: the bytes of the chunk that belong to the packet. -/
def canCopy (rs : ReceiverState) (data : List UInt8) : ℕ :=
  if data.length > rs.leftToRead then rs.leftToRead else data.length

/-- The `memcpy` of the copy loop. -/
def copyIn (rs : ReceiverState) (w : World σ) (data : List UInt8) : World σ :=
  let offset := sizeSub (toSize rs.packetLength) rs.leftToRead
  match rs.packet with
  | .buffer b => { w with pools := w.pools.memcpy b offset (data.take (canCopy rs data)) }
  | _ => w

/-- The body of the copy loop, which breaks or suspends. -/
def copyPayload (rs : ReceiverState) (w : World σ) (data : List UInt8) : Pass σ :=
  if rs.encryption then .failed .checkFailed rs (copyIn rs w data)
  else if rs.leftToRead - canCopy rs data = 0 then
    packetReady dispatch { rs with leftToRead := rs.leftToRead - canCopy rs data }
      (copyIn rs w data) (data.drop (canCopy rs data))
  else
    .suspended { rs with leftToRead := rs.leftToRead - canCopy rs data, line := copyLine }
      (copyIn rs w data)

/-- The choice between the fast and the slow path, once the length is known. -/
def receivePayload (rs : ReceiverState) (w : World σ) (data : List UInt8) : Pass σ :=
  if toSize rs.packetLength ≤ data.length then
    packetReady dispatch { rs with packet := .data data } w (data.drop rs.packetLength.toNat)
  else if ¬ toSize rs.packetLength ≤ config.maxRecvPacketSize then .failed .checkFailed rs w
  else
    let (b, pools) := w.pools.bufferPoolGetProtocolRecv config
    let rs := { rs with
      packet := .buffer b, shouldReturn := true, leftToRead := toSize rs.packetLength }
    copyPayload dispatch rs { w with pools } data

/-- What follows the length loop. -/
def afterLength (w : World σ) : LengthFetch → Pass σ
  | .suspended rs => .suspended rs w
  | .tooLong rs => .failed .checkFailed rs w
  | .fetched rs data => receivePayload config dispatch rs w data

/-- One pass through the body of `while (len > 0)`. -/
def receiverPass (rs : ReceiverState) (w : World σ) (data : List UInt8) : Pass σ :=
  if rs.line = 0 then
    afterLength config dispatch w
      (fetchLength { rs with varintLength := 0, packetLength := 0 } data)
  else if rs.line = lengthLine then
    afterLength config dispatch w (fetchLength rs data)
  else if rs.line = copyLine then copyPayload dispatch rs w data
  else .failed .checkFailed rs w

end

/-! ## The loop terminates

A pass that finishes a frame leaves fewer bytes, or resumed a suspended one. -/

theorem fetchLength_length {rs rs' : ReceiverState} {data rest : List UInt8}
    (h : fetchLength rs data = .fetched rs' rest) : rest.length < data.length := by
  induction data generalizing rs with
  | nil => simp [fetchLength] at h
  | cons b data ih =>
      simp only [fetchLength] at h
      split at h
      · cases h
      · split at h
        · cases h
          simp
        · exact Nat.lt_trans (ih h) (by simp)

section

variable {σ : Type*} {config : ServerConfig} {dispatch : Dispatch σ}
  {rs rs' : ReceiverState} {w w' : World σ} {data rest : List UInt8}

theorem packetReady_finished (h : packetReady dispatch rs w data = .finished rs' w' rest) :
    rest = data ∧ rs'.line = 0 := by
  unfold packetReady at h
  split at h
  · cases h
  · split at h
    · cases h
      exact ⟨rfl, rfl⟩
    · cases h

theorem copyPayload_finished (h : copyPayload dispatch rs w data = .finished rs' w' rest) :
    rest.length ≤ data.length ∧ rs'.line = 0 := by
  unfold copyPayload at h
  split at h
  · cases h
  · split at h
    · obtain ⟨rfl, hline⟩ := packetReady_finished h
      exact ⟨by simp, hline⟩
    · cases h

theorem receivePayload_finished
    (h : receivePayload config dispatch rs w data = .finished rs' w' rest) :
    rest.length ≤ data.length ∧ rs'.line = 0 := by
  unfold receivePayload at h
  split at h
  · obtain ⟨rfl, hline⟩ := packetReady_finished h
    exact ⟨by simp, hline⟩
  · split at h
    · cases h
    · exact copyPayload_finished h

theorem afterLength_finished
    (h : afterLength config dispatch w (fetchLength rs data) = .finished rs' w' rest) :
    rest.length < data.length ∧ rs'.line = 0 := by
  cases hf : fetchLength rs data with
  | suspended => simp [hf, afterLength] at h
  | tooLong => simp [hf, afterLength] at h
  | fetched rs₁ data₁ =>
      rw [hf] at h
      obtain ⟨hle, hline⟩ := receivePayload_finished h
      exact ⟨Nat.lt_of_le_of_lt hle (fetchLength_length hf), hline⟩

/-- The measure of the receiver loop. -/
def passMeasure (rs : ReceiverState) (data : List UInt8) : ℕ :=
  2 * data.length + if rs.line = 0 then 0 else 1

theorem receiverPass_measure
    (h : receiverPass config dispatch rs w data = .finished rs' w' rest) :
    passMeasure rs' rest < passMeasure rs data := by
  unfold receiverPass at h
  unfold passMeasure
  split at h
  · obtain ⟨hlt, hline⟩ := afterLength_finished h
    simp only [hline, if_true]
    omega
  · split at h
    · obtain ⟨hlt, hline⟩ := afterLength_finished h
      simp only [hline, if_true]
      omega
    · split at h
      · obtain ⟨hle, hline⟩ := copyPayload_finished h
        rename_i hzero _ _
        simp only [hline, hzero, if_true, if_false]
        omega
      · cases h

end

section

variable {σ : Type*} (config : ServerConfig) (dispatch : Dispatch σ)

/-- `receiver_consume_data`. The error path gives the packet back and resets the line. -/
def receiverConsumeData (rs : ReceiverState) (w : World σ) (data : List UInt8) :
    Err × ReceiverState × World σ :=
  if data = [] then (.noError, rs, w)
  else
    match _h : receiverPass config dispatch rs w data with
    | .failed err rs w =>
        let (rs, w) := returnPacket rs w
        (err, { rs with line := 0 }, w)
    | .suspended rs w => (.noError, rs, w)
    | .finished rs w rest => receiverConsumeData rs w rest
  termination_by passMeasure rs data
  decreasing_by exact receiverPass_measure _h

/-- The frame lengths that a call decodes, in order. -/
def decodedLengths (rs : ReceiverState) (w : World σ) (data : List UInt8) : List ℤ :=
  if data = [] then []
  else
    match _h : receiverPass config dispatch rs w data with
    | .failed _ rs _ => [rs.packetLength]
    | .suspended rs _ => [rs.packetLength]
    | .finished rs w rest => rs.packetLength :: decodedLengths rs w rest
  termination_by passMeasure rs data
  decreasing_by exact receiverPass_measure _h

/-- The calls that `server_start` makes for the chunks of a stream, up to the first error. -/
def receiveChunks (rs : ReceiverState) (w : World σ) :
    List (List UInt8) → Err × ReceiverState × World σ
  | [] => (.noError, rs, w)
  | data :: chunks =>
      match receiverConsumeData config dispatch rs w data with
      | (.noError, rs, w) => receiveChunks rs w chunks
      | result => result

end

end CmcServer
