import CmcServer.Verification.Receiver.Simulation

/-! # Where the receiver resumes

What every call of the receiver leaves, and the errors it returns, for a `dispatch_packet` that is
known by its results. -/

namespace CmcServer

open ReceiverState

/-! ## Resumable states -/

/-- The flags that nothing sets. -/
structure Plain (rs : ReceiverState) : Prop where
  varintCurrentByte : rs.varintCurrentByte = 0
  compression : rs.compression = false
  encryption : rs.encryption = false

/-- A payload of `packetLength` bytes goes to a buffer, and `leftToRead` of them are missing. -/
structure Receiving (config : ServerConfig) (rs : ReceiverState) : Prop extends Plain rs where
  shouldReturn : rs.shouldReturn = true
  leftToRead_pos : 0 < rs.leftToRead
  leftToRead_le : (rs.leftToRead : ℤ) ≤ rs.packetLength
  packetLength_lt : rs.packetLength < 128
  packetLength_le : rs.packetLength ≤ config.maxRecvPacketSize
  packet : ∃ b, rs.packet = .buffer b

/-- The receiver is at the start of a frame, or in the middle of a payload. -/
def Resumable (config : ServerConfig) (rs : ReceiverState) : Prop :=
  Idle rs ∨ Receiving config rs ∧ rs.line = copyLine

theorem Idle.plain {rs : ReceiverState} (h : Idle rs) : Plain rs :=
  ⟨h.varintCurrentByte, h.compression, h.encryption⟩

theorem Resumable.plain {config : ServerConfig} {rs : ReceiverState} (h : Resumable config rs) :
    Plain rs := by
  rcases h with h | ⟨h, -⟩
  · exact h.plain
  · exact h.toPlain

/-- The buffer that the receiver has to give back. -/
def ReceiverState.held (rs : ReceiverState) : Option BufId :=
  match rs.shouldReturn, rs.packet with
  | true, .buffer b => some b
  | _, _ => none

theorem held_of_not {rs : ReceiverState} (h : rs.shouldReturn = false) : rs.held = none := by
  rw [ReceiverState.held, h]

theorem Idle.held {rs : ReceiverState} (h : Idle rs) : rs.held = none :=
  held_of_not h.shouldReturn

theorem Receiving.held {config : ServerConfig} {rs : ReceiverState} (h : Receiving config rs) :
    ∃ b, rs.packet = .buffer b ∧ rs.held = some b := by
  rcases h.packet with ⟨b, hb⟩
  exact ⟨b, hb, by rw [ReceiverState.held, h.shouldReturn, hb]⟩

/-- Without a buffer the receiver is at the start of a frame, with one it is in a payload. -/
theorem Resumable.cases_held {config : ServerConfig} {rs : ReceiverState}
    (h : Resumable config rs) :
    (rs.held = none ∧ Idle rs) ∨ rs.held ≠ none ∧ Receiving config rs ∧ rs.line = copyLine := by
  rcases h with hidle | ⟨hreceiving, hline⟩
  · exact Or.inl ⟨hidle.held, hidle⟩
  · rcases hreceiving.held with ⟨b, -, hheld⟩
    exact Or.inr ⟨by simp [hheld], hreceiving, hline⟩

/-! ## Laws of the world -/

section

variable {σ : Type*} {config : ServerConfig} {dispatch : Dispatch σ}
  {I : Option BufId → World σ → Prop} {F : Option BufId → Err → World σ → Prop}

/-- A law for the results of a call, while the receiver holds a buffer. -/
def Settled (I : Option BufId → World σ → Prop) (F : Option BufId → Err → World σ → Prop)
    (held : Option BufId) (err : Err) (w : World σ) : Prop :=
  (err = .noError → I held w) ∧ (err ≠ .noError → F held err w)

/-- A law `I` of the world and of the buffer that the receiver holds, and a law `F` of what a
failure leaves, for a receiver that gives no buffer back. Packets are as short as the receiver
makes them. -/
structure TakeLaw (config : ServerConfig) (dispatch : Dispatch σ)
    (I : Option BufId → World σ → Prop) (F : Option BufId → Err → World σ → Prop) : Prop where
  take : ∀ w, I none w → I (some (w.pools.bufferPoolGetProtocolRecv config).1)
    { w with pools := (w.pools.bufferPoolGetProtocolRecv config).2 }
  copy : ∀ b offset bytes w, I (some b) w →
    I (some b) { w with pools := w.pools.memcpy b offset bytes }
  large : config.maxRecvPacketSize < 127 → ∀ w, I none w → F none .checkFailed w
  dispatched : ∀ held bytes (n : ℕ) w, I held w → n < 128 →
    Settled I F held (dispatch bytes n w).1 (dispatch bytes n w).2

/-- A law for a receiver that also gives a buffer back. -/
structure BufferLaw (config : ServerConfig) (dispatch : Dispatch σ)
    (I : Option BufId → World σ → Prop) (F : Option BufId → Err → World σ → Prop) : Prop
    extends TakeLaw config dispatch I F where
  give : ∀ b w, I (some b) w →
    I none { w with pools := w.pools.bufferPoolReturnProtocolSend b }
  giveFailed : ∀ b err w, F (some b) err w →
    F none err { w with pools := w.pools.bufferPoolReturnProtocolSend b }

/-- What a pass leaves, once a failure has given its packet back. -/
def PassOk (config : ServerConfig) (I : Option BufId → World σ → Prop)
    (F : Option BufId → Err → World σ → Prop) : Pass σ → Prop
  | .failed err rs w => err ≠ .noError ∧ Plain rs ∧ F none err (returnPacket rs w).2
  | .suspended rs w => Resumable config rs ∧ I rs.held w
  | .finished rs w _ => Idle rs ∧ I none w

/-- What a call leaves. -/
def CallOk (config : ServerConfig) (I : Option BufId → World σ → Prop)
    (F : Option BufId → Err → World σ → Prop) (result : Err × ReceiverState × World σ) : Prop :=
  (result.1 = .noError → Resumable config result.2.1 ∧ I result.2.1.held result.2.2) ∧
    (result.1 ≠ .noError → Idle result.2.1 ∧ F none result.1 result.2.2)

variable {rs : ReceiverState} {w : World σ} {data : List UInt8}

/-! ## One pass -/

theorem returnPacket_none (h : rs.held = none) : (returnPacket rs w).2 = w := by
  rw [ReceiverState.held] at h
  rw [returnPacket]
  cases hreturn : rs.shouldReturn with
  | false => rfl
  | true =>
      cases hpacket : rs.packet with
      | buffer b =>
          rw [hreturn, hpacket] at h
          cases h
      | null => rfl
      | data bytes => rfl

theorem returnPacket_some {b : BufId} (h : rs.held = some b) :
    (returnPacket rs w).2 = { w with pools := w.pools.bufferPoolReturnProtocolSend b } := by
  rw [ReceiverState.held] at h
  rw [returnPacket]
  split at h
  · rename_i hreturn hpacket
    cases h
    rw [hreturn, hpacket]
    rfl
  · cases h

theorem packetReady_settled {rs : ReceiverState} (hrs : Plain rs) {n : ℕ}
    (hlength : rs.packetLength = n)
    (hdispatch : ∀ bytes, Settled I F rs.held (dispatch bytes n w).1 (dispatch bytes n w).2)
    (hgive : ∀ w, I rs.held w → I none (returnPacket rs w).2)
    (hfail : ∀ err w, F rs.held err w → F none err (returnPacket rs w).2) :
    PassOk config I F (packetReady dispatch rs w data) := by
  rcases hcall : dispatch (rs.packet.bytes w.pools rs.packetLength.toNat) rs.packetLength w with
    ⟨err, w'⟩
  have hlaw := hdispatch (rs.packet.bytes w.pools rs.packetLength.toNat)
  rw [← hlength, hcall] at hlaw
  by_cases hok : err = .noError
  · subst hok
    rw [packetReady_ok hrs.compression hcall]
    exact ⟨idle_returnPacket _ hrs.varintCurrentByte hrs.compression hrs.encryption,
      hgive _ (hlaw.1 rfl)⟩
  · rw [packetReady_failed hrs.compression hcall hok]
    exact ⟨hok, hrs, hfail err w' (hlaw.2 hok)⟩

theorem copyPayload_short (hencryption : rs.encryption = false)
    (hshort : data.length < rs.leftToRead) :
    copyPayload dispatch rs w data =
      .suspended { rs with leftToRead := rs.leftToRead - data.length, line := copyLine }
        (copyIn rs w data) := by
  have hcopy : canCopy rs data = data.length := by
    rw [canCopy_eq]
    omega
  rw [copyPayload, if_neg (by simp [hencryption]), hcopy, if_neg (by omega)]

theorem Receiving.short (hrs : Receiving config rs) (hshort : data.length < rs.leftToRead) :
    Receiving config { rs with leftToRead := rs.leftToRead - data.length, line := copyLine } := by
  have hle := hrs.leftToRead_le
  exact { hrs with
    leftToRead_pos := by
      dsimp only
      omega
    leftToRead_le := by
      dsimp only
      omega }

theorem copyIn_buffer {b : BufId} (hpacket : rs.packet = .buffer b) :
    copyIn rs w data =
      { w with
        pools := w.pools.memcpy b (sizeSub (toSize rs.packetLength) rs.leftToRead)
          (data.take (canCopy rs data)) } := by
  rw [copyIn, hpacket]

theorem TakeLaw.copyIn (h : TakeLaw config dispatch I F) (hrs : Receiving config rs)
    (hw : I rs.held w) : I rs.held (copyIn rs w data) := by
  rcases hrs.held with ⟨b, hpacket, hheld⟩
  rw [hheld] at hw ⊢
  rw [copyIn_buffer hpacket]
  exact h.copy b _ _ w hw

theorem TakeLaw.copyPayload (h : TakeLaw config dispatch I F) (hrs : Receiving config rs)
    (hw : I rs.held w) (hshort : data.length < rs.leftToRead) :
    PassOk config I F (copyPayload dispatch rs w data) := by
  rw [copyPayload_short hrs.encryption hshort]
  exact ⟨Or.inr ⟨hrs.short hshort, rfl⟩, h.copyIn hrs hw⟩

theorem Plain.receiving (hrs : Plain rs) (config : ServerConfig) {n : ℕ}
    (hlength : rs.packetLength = n) (hpos : 0 < n) (hlt : n < 128)
    (hle : n ≤ config.maxRecvPacketSize) (b : BufId) :
    Receiving config { rs with packet := .buffer b, shouldReturn := true, leftToRead := n } where
  varintCurrentByte := hrs.varintCurrentByte
  compression := hrs.compression
  encryption := hrs.encryption
  shouldReturn := rfl
  leftToRead_pos := hpos
  leftToRead_le := hlength.ge
  packetLength_lt := by
    dsimp only
    omega
  packetLength_le := by
    dsimp only
    omega
  packet := ⟨b, rfl⟩

theorem TakeLaw.receivePayload (h : TakeLaw config dispatch I F) (hrs : Plain rs)
    (hreturn : rs.shouldReturn = false) (hw : I none w) {b : UInt8}
    (hlength : rs.packetLength = frameSize b) :
    PassOk config I F (receivePayload config dispatch rs w data) := by
  have hlt := frameSize_lt b
  have hsize : toSize rs.packetLength = frameSize b := by
    rw [hlength, toSize_ofNat_of_lt hlt]
  rw [CmcServer.receivePayload, hsize]
  split
  · have hheld : ({ rs with packet := .data data } : ReceiverState).held = none :=
      held_of_not hreturn
    have hplain : Plain { rs with packet := .data data } :=
      ⟨hrs.varintCurrentByte, hrs.compression, hrs.encryption⟩
    refine packetReady_settled hplain hlength ?_ ?_ ?_
    · intro bytes
      rw [hheld]
      exact h.dispatched none bytes _ w hw hlt
    · intro w' hw'
      rw [hheld] at hw'
      rwa [returnPacket_none hheld]
    · intro err w' hw'
      rw [hheld] at hw'
      rwa [returnPacket_none hheld]
  · rename_i hslow
    split
    · refine ⟨by decide, hrs, ?_⟩
      rw [returnPacket_none (held_of_not hreturn)]
      exact h.large (by omega) w hw
    · have hreceiving := hrs.receiving config hlength (by omega) hlt (by omega)
        (w.pools.bufferPoolGetProtocolRecv config).1
      exact h.copyPayload hreceiving (h.take w hw) (Nat.not_le.mp hslow)

/-- A pass over a chunk, at the start of a frame. -/
theorem TakeLaw.receiverPass (h : TakeLaw config dispatch I F) (hrs : Idle rs) (hw : I none w)
    (hdata : data ≠ []) : PassOk config I F (receiverPass config dispatch rs w data) := by
  rcases List.exists_cons_of_ne_nil hdata with ⟨b, rest, rfl⟩
  rw [CmcServer.receiverPass, if_pos hrs.line,
    fetchLength_cons { rs with varintLength := 0, packetLength := 0 } hrs.varintCurrentByte rfl rfl]
  exact h.receivePayload ⟨hrs.varintCurrentByte, hrs.compression, hrs.encryption⟩
    hrs.shouldReturn hw rfl

theorem receiverPass_copyLine (hline : rs.line = copyLine) :
    receiverPass config dispatch rs w data = copyPayload dispatch rs w data := by
  have hzero : ¬ rs.line = 0 := by
    rw [hline]
    decide
  have hlength : ¬ rs.line = lengthLine := by
    rw [hline]
    decide
  rw [receiverPass, if_neg hzero, if_neg hlength, if_pos hline]

/-- The copy loop. -/
theorem BufferLaw.copyPayload (h : BufferLaw config dispatch I F) (hrs : Receiving config rs)
    (hw : I rs.held w) : PassOk config I F (copyPayload dispatch rs w data) := by
  by_cases hshort : data.length < rs.leftToRead
  · exact h.toTakeLaw.copyPayload hrs hw hshort
  · have hle := hrs.leftToRead_le
    have hlt := hrs.packetLength_lt
    have hcopy : canCopy rs data = rs.leftToRead := by
      rw [canCopy_eq]
      omega
    have hcopied : I rs.held (CmcServer.copyIn rs w data) := h.copyIn hrs hw
    rcases hrs.held with ⟨b, hpacket, hheld⟩
    rw [CmcServer.copyPayload, if_neg (by simp [hrs.encryption]), hcopy, if_pos (Nat.sub_self _)]
    have hheld' : ({ rs with leftToRead := rs.leftToRead - rs.leftToRead } : ReceiverState).held =
        some b := hheld
    rw [hheld] at hcopied
    have hplain : Plain { rs with leftToRead := rs.leftToRead - rs.leftToRead } :=
      ⟨hrs.varintCurrentByte, hrs.compression, hrs.encryption⟩
    have hlength : rs.packetLength = rs.packetLength.toNat := by omega
    refine packetReady_settled hplain hlength ?_ ?_ ?_
    · intro bytes
      rw [hheld']
      exact h.dispatched (some b) bytes rs.packetLength.toNat _ hcopied (by omega)
    · intro w' hw'
      rw [hheld'] at hw'
      rw [returnPacket_some hheld']
      exact h.give b w' hw'
    · intro err w' hw'
      rw [hheld'] at hw'
      rw [returnPacket_some hheld']
      exact h.giveFailed b err w' hw'

/-! ## One call -/

/-- A call from the start of a frame leaves a resumable state and keeps the laws. -/
theorem TakeLaw.receiverConsumeData (h : TakeLaw config dispatch I F) (hrs : Idle rs)
    (hw : I none w) (data : List UInt8) :
    CallOk config I F (receiverConsumeData config dispatch rs w data) := by
  induction rs, w, data using receiverConsumeData.induct config dispatch with
  | case1 rs w =>
      rw [CmcServer.receiverConsumeData, if_pos rfl]
      refine ⟨fun _ => ⟨Or.inl hrs, ?_⟩, fun hne => absurd rfl hne⟩
      rw [hrs.held]
      exact hw
  | case2 rs w data hdata err rs' w' hpass =>
      have hok := h.receiverPass hrs hw hdata
      rw [hpass] at hok
      rcases hok with ⟨hne, hplain, hw'⟩
      rw [receiverConsumeData_eq hdata, hpass]
      exact ⟨fun herr => absurd herr hne, fun _ => ⟨idle_returnPacket _ hplain.varintCurrentByte
        hplain.compression hplain.encryption, hw'⟩⟩
  | case3 rs w data hdata rs' w' hpass =>
      have hok := h.receiverPass hrs hw hdata
      rw [hpass] at hok
      rw [receiverConsumeData_eq hdata, hpass]
      exact ⟨fun _ => hok, fun hne => absurd rfl hne⟩
  | case4 rs w data hdata rs' w' rest hpass ih =>
      have hok := h.receiverPass hrs hw hdata
      rw [hpass] at hok
      rw [receiverConsumeData_eq hdata, hpass]
      exact ih hok.1 hok.2

/-- A chunk that does not complete the payload only goes into the buffer. -/
theorem receiverConsumeData_short (hrs : Receiving config rs) (hline : rs.line = copyLine)
    (hshort : data.length < rs.leftToRead) :
    receiverConsumeData config dispatch rs w data =
      if data = [] then (.noError, rs, w)
      else (.noError, { rs with leftToRead := rs.leftToRead - data.length, line := copyLine },
        copyIn rs w data) := by
  by_cases hdata : data = []
  · rw [receiverConsumeData, if_pos hdata, if_pos hdata]
  · rw [receiverConsumeData_eq hdata, receiverPass_copyLine hline,
      copyPayload_short hrs.encryption hshort, if_neg hdata]

/-- A call leaves a resumable state and keeps the laws. -/
theorem BufferLaw.receiverConsumeData (h : BufferLaw config dispatch I F)
    (hrs : Resumable config rs) (hw : I rs.held w) (data : List UInt8) :
    CallOk config I F (receiverConsumeData config dispatch rs w data) := by
  rcases hrs with hidle | ⟨hreceiving, hline⟩
  · rw [hidle.held] at hw
    exact h.toTakeLaw.receiverConsumeData hidle hw data
  · by_cases hdata : data = []
    · rw [CmcServer.receiverConsumeData, if_pos hdata]
      exact ⟨fun _ => ⟨Or.inr ⟨hreceiving, hline⟩, hw⟩, fun hne => absurd rfl hne⟩
    · have hok : PassOk config I F (CmcServer.copyPayload dispatch rs w data) :=
        h.copyPayload hreceiving hw
      rw [receiverConsumeData_eq hdata, receiverPass_copyLine hline]
      cases hpass : CmcServer.copyPayload dispatch rs w data with
      | failed err rs' w' =>
          rw [hpass] at hok
          rcases hok with ⟨hne, hplain, hw'⟩
          exact ⟨fun herr => absurd herr hne, fun _ => ⟨idle_returnPacket _
            hplain.varintCurrentByte hplain.compression hplain.encryption, hw'⟩⟩
      | suspended rs' w' =>
          rw [hpass] at hok
          exact ⟨fun _ => hok, fun hne => absurd rfl hne⟩
      | finished rs' w' rest =>
          rw [hpass] at hok
          exact h.toTakeLaw.receiverConsumeData hok.1 hok.2 rest

/-- Whatever comes of a call, its receiver state is resumable. -/
theorem CallOk.resumable {result : Err × ReceiverState × World σ}
    (h : CallOk config I F result) : Resumable config result.2.1 := by
  by_cases hok : result.1 = .noError
  · exact (h.1 hok).1
  · exact Or.inl (h.2 hok).1

/-! ## Laws that do not depend on the buffers -/

/-- A law `I` of the world that only `dispatch_packet` could break, and does not, and a law `E`
of its errors, for packets as short as the receiver makes them. -/
structure DispatchLaw (dispatch : Dispatch σ) (I : World σ → Prop) (E : Err → Prop) : Prop where
  pools : ∀ w pools, I w → I { w with pools }
  dispatch : ∀ bytes (n : ℕ) w, I w → n < 128 →
    E (dispatch bytes n w).1 ∧ I (dispatch bytes n w).2

variable {I : World σ → Prop} {E : Err → Prop}

theorem DispatchLaw.bufferLaw (h : DispatchLaw dispatch I E) :
    BufferLaw config dispatch (fun _ => I) fun _ err w =>
      (E err ∨ err = .checkFailed ∧ config.maxRecvPacketSize < 127) ∧ I w where
  take := fun w hw => h.pools w _ hw
  copy := fun _ _ _ _ hw => h.pools _ _ hw
  large := fun hlarge _ hw => ⟨Or.inr ⟨rfl, hlarge⟩, hw⟩
  dispatched := fun _ bytes n w hw hn =>
    have hlaw := h.dispatch bytes n w hw hn
    ⟨fun _ => hlaw.2, fun _ => ⟨Or.inl hlaw.1, hlaw.2⟩⟩
  give := fun _ w hw => h.pools w _ hw
  giveFailed := fun _ _ w hw => ⟨hw.1, h.pools w _ hw.2⟩

/-- A call leaves a resumable state, keeps the law of the world, and returns no error, an error of
`dispatch_packet`, or a failed check for a frame that is too large. -/
theorem DispatchLaw.receiverConsumeData (h : DispatchLaw dispatch I E)
    (hrs : Resumable config rs) (hw : I w) (data : List UInt8) :
    let result := receiverConsumeData config dispatch rs w data
    (result.1 = .noError ∨ E result.1 ∨
        result.1 = .checkFailed ∧ config.maxRecvPacketSize < 127) ∧
      Resumable config result.2.1 ∧ I result.2.2 := by
  have hcall := h.bufferLaw.receiverConsumeData hrs hw data
  intro result
  by_cases hok : result.1 = .noError
  · exact ⟨Or.inl hok, hcall.1 hok⟩
  · rcases hcall.2 hok with ⟨hidle, herr, hw'⟩
    exact ⟨Or.inr herr, Or.inl hidle, hw'⟩

/-- A frame that does not end in its chunk and is larger than `max_recv_packet_size` fails a
check, and nothing is dispatched. -/
theorem receiverConsumeData_large (hrs : Idle rs) {b : UInt8} (hrest : data.length < frameSize b)
    (hlarge : config.maxRecvPacketSize < frameSize b) :
    let result := receiverConsumeData config dispatch rs w (b :: data)
    result.1 = .checkFailed ∧ result.2.2 = w := by
  have hsize : toSize (frameSize b) = frameSize b := toSize_ofNat_of_lt (frameSize_lt b)
  intro result
  simp only [result]
  rw [receiverConsumeData_eq (List.cons_ne_nil b data), CmcServer.receiverPass, if_pos hrs.line,
    fetchLength_cons { rs with varintLength := 0, packetLength := 0 } hrs.varintCurrentByte rfl rfl,
    afterLength, CmcServer.receivePayload]
  dsimp only
  rw [hsize, if_neg (by omega), if_pos (by omega)]
  exact ⟨rfl, returnPacket_none (held_of_not hrs.shouldReturn)⟩

end

end CmcServer
