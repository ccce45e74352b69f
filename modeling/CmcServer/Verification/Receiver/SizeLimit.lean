import CmcServer.Verification.Receiver.Framing
import CmcServer.Verification.Receiver.Resume

/-! # The limit on frame sizes

Which frames the receiver refuses for their size. Only a frame that does not end in the chunk of
its length is compared with `max_recv_packet_size`. -/

namespace CmcServer

open ReceiverState

/-! ## The frames that a call reaches -/

/-- A frame of which the receiver has just decoded the length, and the bytes of the chunk that
follow. -/
structure Arrival (σ : Type*) where
  rs : ReceiverState
  world : World σ
  rest : List UInt8

section

variable {σ : Type*}

def LengthFetch.arrival (w : World σ) : LengthFetch → Option (Arrival σ)
  | .fetched rs data => some ⟨rs, w, data⟩
  | .suspended _ | .tooLong _ => none

def arrivalOf (rs : ReceiverState) (w : World σ) (data : List UInt8) : Option (Arrival σ) :=
  if rs.line = 0 then
    (fetchLength { rs with varintLength := 0, packetLength := 0 } data).arrival w
  else if rs.line = lengthLine then (fetchLength rs data).arrival w
  else none

variable (config : ServerConfig) (dispatch : Dispatch σ)

def arrivals (rs : ReceiverState) (w : World σ) (data : List UInt8) : List (Arrival σ) :=
  if data = [] then []
  else
    (arrivalOf rs w data).toList ++
      match _h : receiverPass config dispatch rs w data with
      | .failed _ _ _ => []
      | .suspended _ _ => []
      | .finished rs w rest => arrivals rs w rest
  termination_by passMeasure rs data
  decreasing_by exact receiverPass_measure _h

/-- The states that calls on chunks leave a receiver in. What happens in the world between two
chunks is left open. -/
inductive Received : ReceiverState → Prop where
  | initial : Received .initial
  | call {rs : ReceiverState} (w : World σ) (data : List UInt8) (h : Received rs) :
      Received (receiverConsumeData config dispatch rs w data).2.1

/-- The receiver fails a check on the frame, whatever `dispatch_packet` would do with it. -/
def Arrival.Refused (f : Arrival σ) : Prop :=
  ∀ dispatch : Dispatch σ, ∃ rs w,
    receivePayload config dispatch f.rs f.world f.rest = .failed .checkFailed rs w

/-- The frame is refused for its size exactly if it is larger than `max_recv_packet_size`. -/
def Arrival.Limited (f : Arrival σ) : Prop :=
  f.Refused config ↔ (config.maxRecvPacketSize : ℤ) < f.rs.packetLength

end

/-! ## What is known of a frame -/

section

variable {σ : Type*} {config : ServerConfig} {dispatch : Dispatch σ} {rs : ReceiverState}
  {w : World σ} {data : List UInt8}

/-- A frame that the receiver has not yet taken a buffer for. -/
structure Arrival.Ready (f : Arrival σ) (n : ℕ) : Prop extends Plain f.rs where
  shouldReturn : f.rs.shouldReturn = false
  packetLength : f.rs.packetLength = n
  size_lt : n < 128

theorem arrivals_eq (hdata : data ≠ []) :
    arrivals config dispatch rs w data =
      (arrivalOf rs w data).toList ++
        match receiverPass config dispatch rs w data with
        | .failed _ _ _ => []
        | .suspended _ _ => []
        | .finished rs w rest => arrivals config dispatch rs w rest := by
  rw [arrivals, if_neg hdata]
  split <;> rename_i h <;> rw [h]

theorem arrivalOf_idle (hrs : Idle rs) (b : UInt8) :
    arrivalOf rs w (b :: data) =
      some ⟨{ rs with packetLength := frameSize b, varintLength := 1 }, w, data⟩ := by
  rw [arrivalOf, if_pos hrs.line,
    fetchLength_cons { rs with varintLength := 0, packetLength := 0 } hrs.varintCurrentByte rfl rfl]
  rfl

theorem arrivalOf_copyLine (hline : rs.line = copyLine) : arrivalOf rs w data = none := by
  rw [arrivalOf, hline]
  rfl

theorem noLaw (config : ServerConfig) (dispatch : Dispatch σ) :
    BufferLaw config dispatch (fun _ _ => True) fun _ _ _ => True where
  take := fun _ _ => trivial
  copy := fun _ _ _ _ _ => trivial
  large := fun _ _ _ => trivial
  dispatched := fun _ _ _ _ _ _ => ⟨fun _ => trivial, fun _ => trivial⟩
  give := fun _ _ _ => trivial
  giveFailed := fun _ _ _ _ => trivial

theorem Received.resumable (h : Received config dispatch rs) : Resumable config rs := by
  induction h with
  | initial => exact Or.inl Idle.initial
  | call w data h ih =>
      exact ((noLaw config dispatch).receiverConsumeData ih trivial data).resumable

theorem Resumable.passOk (hrs : Resumable config rs) (dispatch : Dispatch σ) (w : World σ)
    (hdata : data ≠ []) :
    PassOk config (fun _ _ => True) (fun _ _ _ => True)
      (receiverPass config dispatch rs w data) := by
  obtain hidle | ⟨hreceiving, hline⟩ := hrs
  · exact (noLaw config dispatch).toTakeLaw.receiverPass hidle trivial hdata
  · rw [receiverPass_copyLine hline]
    exact (noLaw config dispatch).copyPayload hreceiving trivial

theorem idle_of_finished {rs' : ReceiverState} {w' : World σ} {rest : List UInt8}
    (hrs : Resumable config rs) (hdata : data ≠ [])
    (h : receiverPass config dispatch rs w data = .finished rs' w' rest) : Idle rs' := by
  have hok := hrs.passOk dispatch w hdata
  rw [h] at hok
  exact hok.1

/-- The frame of which a pass decodes the length is ready. -/
theorem ready_of_arrivalOf (hrs : Resumable config rs) (hdata : data ≠ []) {f : Arrival σ}
    (hf : arrivalOf rs w data = some f) : (∃ n, f.Ready n) ∧ f.rest.length < data.length := by
  obtain ⟨b, rest, rfl⟩ := List.exists_cons_of_ne_nil hdata
  obtain hidle | ⟨-, hline⟩ := hrs
  · rw [arrivalOf_idle hidle] at hf
    cases hf
    refine ⟨⟨frameSize b, ?_⟩, by simp⟩
    exact {
      varintCurrentByte := hidle.varintCurrentByte
      compression := hidle.compression
      encryption := hidle.encryption
      shouldReturn := hidle.shouldReturn
      packetLength := rfl
      size_lt := frameSize_lt b }
  · rw [arrivalOf_copyLine hline] at hf
    cases hf

/-- Every frame that is reached is ready, and its length stands in the chunk. -/
theorem ready_of_mem_arrivals (hrs : Resumable config rs) :
    ∀ f ∈ arrivals config dispatch rs w data,
      (∃ n, f.Ready n) ∧ f.rest.length < data.length := by
  induction rs, w, data using arrivals.induct config dispatch with
  | case1 rs w =>
      intro f hf
      simp [arrivals] at hf
  | case2 rs w data hdata ih =>
      intro f hf
      rw [arrivals_eq hdata, List.mem_append, Option.mem_toList] at hf
      obtain hf | hf := hf
      · exact ready_of_arrivalOf hrs hdata hf
      · cases hpass : receiverPass config dispatch rs w data with
        | failed err rs' w' => simp [hpass] at hf
        | suspended rs' w' => simp [hpass] at hf
        | finished rs' w' rest =>
            rw [hpass] at hf
            have hidle := idle_of_finished hrs hdata hpass
            obtain ⟨hready, hlt⟩ := ih rs' w' rest hpass (Or.inl hidle) f hf
            have hmeasure := receiverPass_measure hpass
            rw [passMeasure, passMeasure, if_pos hidle.line] at hmeasure
            refine ⟨hready, ?_⟩
            split at hmeasure <;> omega

/-! ## What is refused -/

theorem Arrival.refused_iff {f : Arrival σ} {n : ℕ} (hf : f.Ready n) :
    f.Refused config ↔ f.rest.length < n ∧ config.maxRecvPacketSize < n := by
  have hsize : toSize f.rs.packetLength = n := by
    rw [hf.packetLength, toSize_ofNat_of_lt hf.size_lt]
  by_cases hfast : n ≤ f.rest.length
  · refine ⟨fun hrefused => ?_, fun h => absurd hfast (not_le.mpr h.1)⟩
    obtain ⟨rs', w', hpass⟩ := hrefused fun _ _ w => (.noError, w)
    rw [receivePayload, if_pos (by rwa [hsize]), packetReady, if_neg (by simp [hf.compression])]
      at hpass
    cases hpass
  · by_cases hlarge : config.maxRecvPacketSize < n
    · refine ⟨fun _ => ⟨not_le.mp hfast, hlarge⟩, fun _ dispatch => ⟨f.rs, f.world, ?_⟩⟩
      rw [receivePayload, if_neg (by rwa [hsize]), if_pos (by rw [hsize]; omega)]
    · refine ⟨fun hrefused => ?_, fun h => absurd h.2 hlarge⟩
      obtain ⟨rs', w', hpass⟩ := hrefused fun _ _ w => (.noError, w)
      rw [receivePayload, if_neg (by rwa [hsize]), if_neg (by rw [hsize]; omega)] at hpass
      dsimp only at hpass
      rw [copyPayload_short (by exact hf.encryption) (by dsimp only; omega)] at hpass
      cases hpass

theorem Arrival.limited_iff {f : Arrival σ} {n : ℕ} (hf : f.Ready n) :
    f.Limited config ↔ f.rs.packetLength ≤ config.maxRecvPacketSize ∨
      (f.rest.length : ℤ) < f.rs.packetLength := by
  rw [Arrival.Limited, Arrival.refused_iff hf, hf.packetLength]
  omega

variable (config dispatch w data) in
theorem exists_arrival (hrs : Idle rs) (b : UInt8) :
    ∃ f ∈ arrivals config dispatch rs w (b :: data),
      f.rs.packetLength = frameSize b ∧ f.rest = data := by
  refine ⟨⟨{ rs with packetLength := frameSize b, varintLength := 1 }, w, data⟩, ?_, rfl, rfl⟩
  rw [arrivals_eq (List.cons_ne_nil b data), arrivalOf_idle hrs]
  exact List.mem_append_left _ (List.mem_singleton_self _)

/-- A frame that is too large and comes in one chunk is not limited. -/
theorem not_limited_of_whole {f : Arrival σ} (hrs : Resumable config rs)
    (hf : f ∈ arrivals config dispatch rs w data)
    (hlarge : (config.maxRecvPacketSize : ℤ) < f.rs.packetLength)
    (hwhole : f.rs.packetLength ≤ f.rest.length) : ¬ f.Limited config := by
  obtain ⟨⟨n, hready⟩, -⟩ := ready_of_mem_arrivals hrs f hf
  rw [Arrival.limited_iff hready]
  omega

end

/-- The size of a frame decides whether it is refused, unless the frame is too large and ends in the
chunk of its length. -/
theorem size_limit_iff {σ : Type*} (config : ServerConfig) (dispatch : Dispatch σ)
    {rs : ReceiverState} (hrs : Received config dispatch rs) (w : World σ) (data : List UInt8) :
    ∀ f ∈ arrivals config dispatch rs w data,
      (f.Limited config ↔ f.rs.packetLength ≤ config.maxRecvPacketSize ∨
        (f.rest.length : ℤ) < f.rs.packetLength) := by
  intro f hf
  obtain ⟨⟨n, hready⟩, -⟩ := ready_of_mem_arrivals hrs.resumable f hf
  exact Arrival.limited_iff hready

/-- A frame of two bytes under the default limit. -/
theorem size_limit_default :
    let dispatch : Dispatch Unit := fun _ _ w => (.noError, w)
    ∃ f ∈ arrivals defaultConfig dispatch .initial ⟨.initial, ()⟩ [2, 0x41, 0x42],
      f.Limited defaultConfig := by
  intro dispatch
  obtain ⟨f, hf, hlength, -⟩ := exists_arrival defaultConfig dispatch ⟨.initial, ()⟩ [0x41, 0x42]
    Idle.initial 2
  refine ⟨f, hf, (size_limit_iff defaultConfig dispatch .initial _ _ f hf).mpr (Or.inl ?_)⟩
  rw [hlength]
  decide

/-- With a limit of one byte a frame of two bytes is dispatched, if it comes in one chunk. -/
theorem size_limit_passed_in_one_chunk : ¬ ∀ (config : ServerConfig) (dispatch : Dispatch Unit)
    (rs : ReceiverState), Received config dispatch rs → ∀ (w : World Unit) (data : List UInt8),
      data.length ≤ config.recvBufferSize →
        ∀ f ∈ arrivals config dispatch rs w data, f.Limited config := by
  intro h
  obtain ⟨f, hf, hlength, hrest⟩ := exists_arrival { defaultConfig with maxRecvPacketSize := 1 }
    (fun _ _ w => (.noError, w)) (⟨.initial, ()⟩ : World Unit) [0x41, 0x42] Idle.initial 2
  apply not_limited_of_whole (Or.inl Idle.initial) hf
  · rw [hlength]
    decide
  · rw [hlength, hrest]
    decide
  · exact h _ _ _ .initial _ _ (by decide) f hf

/-- The limit holds of all frames if no chunk has room for a larger one or no frame is larger. -/
theorem limited_config_iff {σ : Type*} (config : ServerConfig) (dispatch : Dispatch σ)
    (w₀ : World σ) :
    (∀ rs, Received config dispatch rs → ∀ (w : World σ) (data : List UInt8),
      data.length ≤ config.recvBufferSize →
        ∀ f ∈ arrivals config dispatch rs w data, f.Limited config) ↔
      config.recvBufferSize ≤ config.maxRecvPacketSize + 1 ∨ 127 ≤ config.maxRecvPacketSize := by
  constructor
  · intro h
    by_contra hconfig
    push Not at hconfig
    obtain ⟨hbuffer, hmax⟩ := hconfig
    have hsize : frameSize (UInt8.ofNat (config.maxRecvPacketSize + 1)) =
        config.maxRecvPacketSize + 1 := frameSize_ofNat (by omega)
    obtain ⟨f, hf, hlength, hrest⟩ := exists_arrival config dispatch w₀
      (List.replicate (config.maxRecvPacketSize + 1) 0) Idle.initial
      (UInt8.ofNat (config.maxRecvPacketSize + 1))
    rw [hsize] at hlength
    apply not_limited_of_whole (Or.inl Idle.initial) hf
    · rw [hlength]
      push_cast
      omega
    · rw [hlength, hrest, List.length_replicate]
    · apply h _ .initial w₀ _ _ f hf
      rw [List.length_cons, List.length_replicate]
      omega
  · intro hconfig rs hrs w data hdata f hf
    obtain ⟨⟨n, hready⟩, hrest⟩ := ready_of_mem_arrivals hrs.resumable f hf
    rw [Arrival.limited_iff hready, hready.packetLength]
    have hlt := hready.size_lt
    omega

end CmcServer
