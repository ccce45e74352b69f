import CmcServer.Verification.Receiver.SizeLimit

/-! # The receiver between two calls

What the receiver state says after any calls on a client, whatever `dispatch_packet` does, and what
the next call can do in such a state. -/

namespace CmcServer

open Deframer ReceiverState

/-! ## What a call does -/

/-- Where the body of the loop starts. -/
structure PassStart (σ : Type*) where
  rs : ReceiverState
  world : World σ
  data : List UInt8

/-- What the slow path does to buffers. -/
inductive SlowStep where
  | take (b : BufId)
  | memcpy (packet : PacketPtr) (offset count : ℕ)

def copyStep (rs : ReceiverState) (data : List UInt8) : SlowStep :=
  .memcpy rs.packet (sizeSub (toSize rs.packetLength) rs.leftToRead)
    (data.take (canCopy rs data)).length

section

variable {σ : Type*} (config : ServerConfig) (dispatch : Dispatch σ)

def passes (rs : ReceiverState) (w : World σ) (data : List UInt8) : List (PassStart σ) :=
  if data = [] then []
  else
    ⟨rs, w, data⟩ ::
      match _h : receiverPass config dispatch rs w data with
      | .failed _ _ _ => []
      | .suspended _ _ => []
      | .finished rs w rest => passes rs w rest
  termination_by passMeasure rs data
  decreasing_by exact receiverPass_measure _h

/-- The slow path of `receivePayload`. -/
def payloadSteps (f : Arrival σ) : List SlowStep :=
  if toSize f.rs.packetLength ≤ f.rest.length then []
  else if ¬ toSize f.rs.packetLength ≤ config.maxRecvPacketSize then []
  else
    let b := (f.world.pools.bufferPoolGetProtocolRecv config).1
    [.take b,
      copyStep { f.rs with packet := .buffer b, leftToRead := toSize f.rs.packetLength } f.rest]

/-- The slow path of one pass. -/
def passSteps (p : PassStart σ) : List SlowStep :=
  match arrivalOf p.rs p.world p.data with
  | some f => payloadSteps config f
  | none => if p.rs.line = copyLine then [copyStep p.rs p.data] else []

/-- The slow path of a call. -/
def slowSteps (rs : ReceiverState) (w : World σ) (data : List UInt8) : List SlowStep :=
  (passes config dispatch rs w data).flatMap (passSteps config)

end

def takenBuffers (steps : List SlowStep) : List BufId :=
  steps.filterMap fun | .take b => some b | .memcpy _ _ _ => none

/-! ## Runs on a client -/

/-- The states after some calls on a client, with the buffers that the calls took and the bytes
since the last error. Between two calls anything may happen to the world, other than to the bytes
of the buffer that the receiver holds. -/
inductive ReceiverRun {σ : Type*} (config : ServerConfig) (dispatch : Dispatch σ) :
    ReceiverState → World σ → List BufId → List UInt8 → Prop where
  | start (w : World σ) : ReceiverRun config dispatch .initial w [] []
  | call {rs : ReceiverState} {w : World σ} {taken : List BufId} {stream : List UInt8}
      (h : ReceiverRun config dispatch rs w taken stream) (data : List UInt8) :
      ReceiverRun config dispatch (receiverConsumeData config dispatch rs w data).2.1
        (receiverConsumeData config dispatch rs w data).2.2
        (taken ++ takenBuffers (slowSteps config dispatch rs w data))
        (if (receiverConsumeData config dispatch rs w data).1 = .noError then stream ++ data
          else [])
  | elsewhere {rs : ReceiverState} {w : World σ} {taken : List BufId} {stream : List UInt8}
      (h : ReceiverRun config dispatch rs w taken stream) (w' : World σ)
      (hkeep : ∀ b ∈ rs.held, w'.pools.memory b = w.pools.memory b) :
      ReceiverRun config dispatch rs w' taken stream

/-- At the resume point of the copy loop. The bytes received are whole frames, and a header with the
part of its payload that is in the buffer. -/
structure AtCopyLine (config : ServerConfig) (rs : ReceiverState) (pools : BufferPools)
    (taken : List BufId) (stream : List UInt8) : Prop where
  shouldReturn : rs.shouldReturn = true
  leftToRead_pos : 0 < rs.leftToRead
  leftToRead_le : (rs.leftToRead : ℤ) ≤ rs.packetLength
  packetLength_le : rs.packetLength ≤ config.maxRecvPacketSize
  received : ∃ b, rs.packet = .buffer b ∧ b ∈ taken.getLast? ∧
    ∃ (frames : List (List UInt8)) (header : UInt8) (got : List UInt8),
      stream = frames.flatten ++ header :: got ∧
      (∀ frame ∈ frames, IsFrame frameSize frame) ∧ rs.packetLength = frameSize header ∧
      (rs.packetLength - rs.leftToRead : ℤ) = got.length ∧ pools.contents b got.length = got

/-- The receiver state between two calls. -/
structure ResumeSound (config : ServerConfig) (rs : ReceiverState) (pools : BufferPools)
    (taken : List BufId) (stream : List UInt8) : Prop where
  line : rs.line = 0 ∨ rs.line = lengthLine ∨ rs.line = copyLine
  start : rs.line = 0 → rs.shouldReturn = false
  copying : rs.line = copyLine → AtCopyLine config rs pools taken stream

/-- A call ends after at most two passes for a byte, no pass starts in an invalid fetcher state,
and every `memcpy` is inside the first `max_recv_packet_size` bytes of a buffer. -/
structure CallSound {σ : Type*} (config : ServerConfig) (dispatch : Dispatch σ)
    (rs : ReceiverState) (w : World σ) (data : List UInt8) : Prop where
  ends : (passes config dispatch rs w data).length ≤ 2 * data.length + 1
  valid : ∀ p ∈ passes config dispatch rs w data,
    p.rs.line = 0 ∨ p.rs.line = lengthLine ∨ p.rs.line = copyLine
  inside : ∀ packet offset count,
    SlowStep.memcpy packet offset count ∈ slowSteps config dispatch rs w data →
      (∃ b, packet = .buffer b) ∧ offset + count ≤ config.maxRecvPacketSize

section

variable {σ : Type*} {config : ServerConfig} {dispatch : Dispatch σ} {rs : ReceiverState}
  {w : World σ} {data : List UInt8}

theorem passes_eq (hdata : data ≠ []) :
    passes config dispatch rs w data =
      ⟨rs, w, data⟩ ::
        match receiverPass config dispatch rs w data with
        | .failed _ _ _ => []
        | .suspended _ _ => []
        | .finished rs w rest => passes config dispatch rs w rest := by
  rw [passes, if_neg hdata]
  split <;> rename_i h <;> rw [h]

/-! ## The passes of a call -/

variable (config dispatch) in
theorem passes_length (rs : ReceiverState) (w : World σ) (data : List UInt8) :
    (passes config dispatch rs w data).length ≤ passMeasure rs data := by
  induction rs, w, data using passes.induct config dispatch with
  | case1 rs w => simp [passes]
  | case2 rs w data hdata ih =>
      have hpos : 0 < data.length := List.length_pos_iff.mpr hdata
      rw [passes_eq hdata, List.length_cons]
      cases hpass : receiverPass config dispatch rs w data with
      | failed err rs' w' => simp [passMeasure]; omega
      | suspended rs' w' => simp [passMeasure]; omega
      | finished rs' w' rest =>
          exact Nat.lt_of_le_of_lt (ih rs' w' rest hpass) (receiverPass_measure hpass)

/-- Every pass starts in a resumable state, with bytes left. -/
theorem passes_resumable (hrs : Resumable config rs) :
    ∀ p ∈ passes config dispatch rs w data, Resumable config p.rs ∧ p.data ≠ [] := by
  induction rs, w, data using passes.induct config dispatch with
  | case1 rs w => simp [passes]
  | case2 rs w data hdata ih =>
      intro p hp
      rw [passes_eq hdata, List.mem_cons] at hp
      obtain rfl | hp := hp
      · exact ⟨hrs, hdata⟩
      · cases hpass : receiverPass config dispatch rs w data with
        | failed err rs' w' => simp [hpass] at hp
        | suspended rs' w' => simp [hpass] at hp
        | finished rs' w' rest =>
            rw [hpass] at hp
            exact ih rs' w' rest hpass (Or.inl (idle_of_finished hrs hdata hpass)) p hp

/-! ## The slow path of a pass -/

theorem Receiving.copyStep (hrs : Receiving config rs) {packet : PacketPtr} {offset count : ℕ}
    (h : .memcpy packet offset count = copyStep rs data) :
    (∃ b, packet = .buffer b) ∧ offset + count ≤ config.maxRecvPacketSize := by
  have hpos := hrs.leftToRead_pos
  have hle := hrs.leftToRead_le
  have hlt := hrs.packetLength_lt
  have hmax := hrs.packetLength_le
  obtain ⟨n, hn⟩ := Int.eq_ofNat_of_zero_le (by omega : 0 ≤ rs.packetLength)
  rw [hn] at hle hlt hmax
  have hoffset : sizeSub (toSize rs.packetLength) rs.leftToRead = n - rs.leftToRead := by
    rw [hn, toSize_ofNat_of_lt (by omega), sizeSub_of_le (by omega) (by omega)]
  rw [CmcServer.copyStep, hoffset, List.length_take, canCopy_eq] at h
  cases h
  exact ⟨hrs.packet, by omega⟩

/-- Every `memcpy` of a pass is inside `max_recv_packet_size`. -/
theorem passSteps_inside (hrs : Resumable config rs) (hdata : data ≠ []) {packet : PacketPtr}
    {offset count : ℕ} (h : .memcpy packet offset count ∈ passSteps config ⟨rs, w, data⟩) :
    (∃ b, packet = .buffer b) ∧ offset + count ≤ config.maxRecvPacketSize := by
  obtain ⟨b, rest, rfl⟩ := List.exists_cons_of_ne_nil hdata
  obtain hidle | ⟨hreceiving, hline⟩ := hrs
  · have hsize : toSize (frameSize b : ℤ) = frameSize b := toSize_ofNat_of_lt (frameSize_lt b)
    rw [passSteps] at h
    dsimp only at h
    rw [arrivalOf_idle hidle] at h
    dsimp only [payloadSteps] at h
    rw [hsize] at h
    split at h
    · cases h
    · split at h
      · cases h
      · have hlt := frameSize_lt b
        have hplain : Plain { rs with packetLength := frameSize b, varintLength := 1 } :=
          ⟨hidle.varintCurrentByte, hidle.compression, hidle.encryption⟩
        simp only [List.mem_cons, reduceCtorEq, List.not_mem_nil, or_false, false_or] at h
        exact (hplain.receiving config rfl (by omega) hlt (by omega) _).copyStep h
  · rw [passSteps, arrivalOf_copyLine hline] at h
    simp only [hline, if_true, List.mem_singleton] at h
    exact hreceiving.copyStep h

theorem Resumable.line (hrs : Resumable config rs) :
    rs.line = 0 ∨ rs.line = lengthLine ∨ rs.line = copyLine := by
  obtain hidle | ⟨-, hline⟩ := hrs
  · exact Or.inl hidle.line
  · exact Or.inr (Or.inr hline)

theorem Resumable.callSound (hrs : Resumable config rs) (w : World σ) (data : List UInt8) :
    CallSound config dispatch rs w data where
  ends := by
    have hlength := passes_length config dispatch rs w data
    rw [passMeasure] at hlength
    split at hlength <;> omega
  valid := fun p hp => (passes_resumable hrs p hp).1.line
  inside := by
    intro packet offset count h
    obtain ⟨p, hp, hstep⟩ := List.mem_flatMap.mp h
    obtain ⟨hresumable, hne⟩ := passes_resumable hrs p hp
    exact passSteps_inside hresumable hne hstep

/-! ## The buffer that is held -/

/-- The buffer that the receiver holds is the last one that was taken. -/
def HoldsLast (rs : ReceiverState) (taken : List BufId) : Prop :=
  ∀ b ∈ rs.held, b ∈ taken.getLast?

theorem holdsLast_of_idle (hrs : Idle rs) (taken : List BufId) : HoldsLast rs taken := by
  intro b hb
  rw [hrs.held] at hb
  cases hb

theorem slowSteps_eq (hdata : data ≠ []) :
    slowSteps config dispatch rs w data =
      passSteps config ⟨rs, w, data⟩ ++
        match receiverPass config dispatch rs w data with
        | .failed _ _ _ => []
        | .suspended _ _ => []
        | .finished rs w rest => slowSteps config dispatch rs w rest := by
  rw [slowSteps, passes_eq hdata, List.flatMap_cons]
  cases receiverPass config dispatch rs w data <;> rfl

theorem packetReady_ne_suspended (rs : ReceiverState) (w : World σ) (data : List UInt8)
    (rs' : ReceiverState) (w' : World σ) :
    packetReady dispatch rs w data ≠ .suspended rs' w' := by
  intro h
  unfold packetReady at h
  split at h
  · cases h
  · split at h <;> cases h

/-- A payload that suspends in the chunk of its length is received into the buffer taken for it. -/
theorem holdsLast_receivePayload (hencryption : rs.encryption = false) {b : UInt8}
    (hlength : rs.packetLength = frameSize b) {rs' : ReceiverState} {w' : World σ}
    (h : receivePayload config dispatch rs w data = .suspended rs' w') (taken : List BufId) :
    HoldsLast rs' (taken ++ takenBuffers (payloadSteps config ⟨rs, w, data⟩)) := by
  have hsize : toSize rs.packetLength = frameSize b := by
    rw [hlength, toSize_ofNat_of_lt (frameSize_lt b)]
  rw [receivePayload, hsize] at h
  split at h
  · exact absurd h (packetReady_ne_suspended _ _ _ _ _)
  · rename_i hslow
    split at h
    · cases h
    · rename_i hfits
      dsimp only at h
      rw [copyPayload_short (by exact hencryption) (by exact Nat.not_le.mp hslow)] at h
      cases h
      rw [payloadSteps, hsize, if_neg hslow, if_neg hfits]
      simp [HoldsLast, ReceiverState.held, takenBuffers, copyStep]

theorem holdsLast_pass (hrs : Resumable config rs) (hdata : data ≠ []) {taken : List BufId}
    (htaken : HoldsLast rs taken) {rs' : ReceiverState} {w' : World σ}
    (h : receiverPass config dispatch rs w data = .suspended rs' w') :
    HoldsLast rs' (taken ++ takenBuffers (passSteps config ⟨rs, w, data⟩)) := by
  obtain ⟨b, rest, rfl⟩ := List.exists_cons_of_ne_nil hdata
  obtain hidle | ⟨hreceiving, hline⟩ := hrs
  · rw [receiverPass, if_pos hidle.line,
      fetchLength_cons { rs with varintLength := 0, packetLength := 0 } hidle.varintCurrentByte
        rfl rfl] at h
    rw [passSteps, show arrivalOf rs w (b :: rest) = _ from arrivalOf_idle hidle b]
    exact holdsLast_receivePayload (by exact hidle.encryption) rfl h taken
  · rw [receiverPass_copyLine hline, copyPayload, if_neg (by simp [hreceiving.encryption])] at h
    rw [passSteps, arrivalOf_copyLine hline]
    simp only [hline, if_true]
    split at h
    · exact absurd h (packetReady_ne_suspended _ _ _ _ _)
    · cases h
      rw [show takenBuffers [copyStep rs (b :: rest)] = [] from rfl, List.append_nil]
      exact htaken

theorem holdsLast_call (hrs : Resumable config rs) {taken : List BufId}
    (htaken : HoldsLast rs taken) :
    HoldsLast (receiverConsumeData config dispatch rs w data).2.1
      (taken ++ takenBuffers (slowSteps config dispatch rs w data)) := by
  induction rs, w, data using receiverConsumeData.induct config dispatch generalizing taken with
  | case1 rs w =>
      rw [receiverConsumeData, if_pos rfl]
      simpa [slowSteps, passes, takenBuffers] using htaken
  | case2 rs w data hdata err rs' w' hpass =>
      have hok := hrs.passOk dispatch w hdata
      rw [hpass] at hok
      obtain ⟨-, hplain, -⟩ := hok
      rw [receiverConsumeData_eq hdata, hpass]
      exact holdsLast_of_idle (idle_returnPacket _ hplain.varintCurrentByte hplain.compression
        hplain.encryption) _
  | case3 rs w data hdata rs' w' hpass =>
      rw [receiverConsumeData_eq hdata, slowSteps_eq hdata, hpass, List.append_nil]
      exact holdsLast_pass hrs hdata htaken hpass
  | case4 rs w data hdata rs' w' rest hpass ih =>
      have hidle := idle_of_finished hrs hdata hpass
      have hrest := ih (Or.inl hidle) (holdsLast_of_idle hidle
        (taken ++ takenBuffers (passSteps config ⟨rs, w, data⟩)))
      rw [receiverConsumeData_eq hdata, slowSteps_eq hdata, hpass]
      simpa [takenBuffers, List.append_assoc] using hrest

/-! ## The bytes that were received -/

/-- The deframer on the bytes of a client, for a consumer that does not look at them. -/
def parsed (stream : List UInt8) : State UInt8 Unit :=
  run frameSize (fun _ c => c) (fun _ => False) ⟨.header, [], ()⟩ stream

/-- Every `dispatch_packet` does what a consumer does that is known nothing of. -/
theorem anyConsumer (dispatch : Dispatch σ) :
    Consumes dispatch (fun _ (c : Unit) => c) (fun _ => False) (fun _ _ => True)
      fun _ _ _ => True where
  active := fun _ h => h
  accepted := fun _ _ _ => trivial
  refused := fun _ _ _ _ => trivial

/-- What holds of the receiver after any calls. -/
structure Tracks (config : ServerConfig) (rs : ReceiverState) (pools : BufferPools)
    (taken : List BufId) (stream : List UInt8) : Prop where
  resumable : Resumable config rs
  phase : ∃ done, AtPhase rs pools done (parsed stream)
  holdsLast : HoldsLast rs taken

theorem tracks_of_idle (hrs : Idle rs) (pools : BufferPools) (taken : List BufId) :
    Tracks config rs pools taken [] where
  resumable := Or.inl hrs
  phase := ⟨[], atPhase_header hrs rfl rfl⟩
  holdsLast := holdsLast_of_idle hrs taken

theorem Tracks.call {taken : List BufId} {stream : List UInt8}
    (h : Tracks config rs w.pools taken stream) (dispatch : Dispatch σ) (data : List UInt8) :
    Tracks config (receiverConsumeData config dispatch rs w data).2.1
      (receiverConsumeData config dispatch rs w data).2.2.pools
      (taken ++ takenBuffers (slowSteps config dispatch rs w data))
      (if (receiverConsumeData config dispatch rs w data).1 = .noError then stream ++ data
        else []) := by
  have hcall := (noLaw config dispatch).receiverConsumeData h.resumable trivial data (w := w)
  split
  · rename_i hok
    obtain ⟨done, hphase⟩ := h.phase
    have hfollows := receiverConsumeData_follows config data (anyConsumer dispatch) trivial hphase
    have hstream : parsed (stream ++ data) =
        run frameSize (fun _ c => c) (fun _ => False) (parsed stream) data :=
      run_append _ _ _ _ _ _
    exact {
      resumable := hcall.resumable
      phase := by
        rw [hstream]
        exact (hfollows.1 hok).2
      holdsLast := holdsLast_call h.resumable h.holdsLast }
  · exact tracks_of_idle (hcall.2 ‹_›).1 _ _

theorem Tracks.elsewhere {pools pools' : BufferPools} {taken : List BufId} {stream : List UInt8}
    (h : Tracks config rs pools taken stream)
    (hkeep : ∀ b ∈ rs.held, pools'.memory b = pools.memory b) :
    Tracks config rs pools' taken stream where
  resumable := h.resumable
  phase := by
    obtain ⟨done, hphase⟩ := h.phase
    refine ⟨done, ?_⟩
    rw [AtPhase] at hphase ⊢
    split at hphase
    · exact hphase
    · rename_i n got hpayload
      obtain ⟨hfilling, hsizes⟩ := hphase
      obtain ⟨b, hpacket, hcontents⟩ := hfilling.buffer
      have hheld : b ∈ rs.held := by simp [ReceiverState.held, hfilling.shouldReturn, hpacket]
      have hcontents' : pools'.contents b got.length = got := by
        rw [BufferPools.contents, hkeep b hheld]
        exact hcontents
      exact ⟨{ hfilling with buffer := ⟨b, hpacket, hcontents'⟩ }, hsizes⟩
  holdsLast := h.holdsLast

theorem ReceiverRun.tracks {taken : List BufId} {stream : List UInt8}
    (h : ReceiverRun config dispatch rs w taken stream) :
    Tracks config rs w.pools taken stream := by
  induction h with
  | start w => exact tracks_of_idle Idle.initial w.pools []
  | call _ data ih => exact ih.call dispatch data
  | elsewhere _ w' hkeep ih => exact ih.elsewhere hkeep

theorem Tracks.resumeSound {pools : BufferPools} {taken : List BufId} {stream : List UInt8}
    (h : Tracks config rs pools taken stream) : ResumeSound config rs pools taken stream := by
  refine ⟨h.resumable.line, ?_, ?_⟩
  · intro hline
    obtain hidle | ⟨-, hcopy⟩ := h.resumable
    · exact hidle.shouldReturn
    · rw [hline] at hcopy
      cases hcopy
  · intro hline
    obtain hidle | ⟨hreceiving, -⟩ := h.resumable
    · rw [hidle.line] at hline
      cases hline
    · obtain ⟨done, hphase⟩ := h.phase
      obtain ⟨frames, hframes, hparsed⟩ : (parsed stream).Parsed frameSize ([] ++ stream) :=
        parsed_run _ _ _ (fun _ h => h) ⟨[], by simp, rfl⟩ stream
      rw [AtPhase] at hphase
      split at hphase
      · rw [hphase.1.line] at hline
        cases hline
      · rename_i n got hpayload
        rw [hpayload] at hparsed
        obtain ⟨hfilling, -⟩ := hphase
        obtain ⟨header, rfl, hlt, hstream⟩ := hparsed
        obtain ⟨b, hpacket, hcontents⟩ := hfilling.buffer
        have hheld : b ∈ rs.held := by simp [ReceiverState.held, hfilling.shouldReturn, hpacket]
        have hgot : (rs.packetLength - rs.leftToRead : ℤ) = got.length := by
          rw [hfilling.packetLength, hfilling.leftToRead]
          omega
        exact {
          shouldReturn := hreceiving.shouldReturn
          leftToRead_pos := hreceiving.leftToRead_pos
          leftToRead_le := hreceiving.leftToRead_le
          packetLength_le := hreceiving.packetLength_le
          received := ⟨b, hpacket, h.holdsLast b hheld, frames, header, got, hstream, hframes,
            hfilling.packetLength, hgot, hcontents⟩ }

end

end CmcServer
