import CmcServer.Model.Receiver
import CmcServer.Verification.Varint.Correctness
import CmcServer.Lib.Deframer

/-! # The receiver simulates a deframer

The receiver is compared with a deframer that takes one byte at a time. The consumer of both is
`dispatch_packet`, seen as a function of the packet and of the state of the protocol. -/

namespace CmcServer

open Deframer ReceiverState

/-! ## Deliveries -/

/-- One call of `dispatch_packet`: its arguments and its result. -/
structure Delivery where
  payload : List UInt8
  length : ℤ
  err : Err
  deriving DecidableEq, Repr

/-- What a client has caused so far: the last result, the state of the protocol and the calls. -/
structure Session (σ : Type*) where
  err : Err
  state : σ
  log : List Delivery

namespace Session

variable {σ : Type*} (handle : List UInt8 → ℤ → σ → Err × σ)

def deliver (payload : List UInt8) (s : Session σ) : Session σ where
  err := (handle payload payload.length s.state).1
  state := (handle payload payload.length s.state).2
  log := s.log ++ [⟨payload, payload.length, (handle payload payload.length s.state).1⟩]

def Halted (s : Session σ) : Prop := s.err ≠ .noError

instance : DecidablePred (Halted (σ := σ)) := fun s => inferInstanceAs (Decidable (s.err ≠ _))

end Session

/-- A dispatcher that depends on the packet and the state of the protocol, records its calls,
and may do anything to the buffer pools. -/
def recorded {σ : Type*} (handle : List UInt8 → ℤ → σ → Err × σ)
    (pools : List UInt8 → ℤ → World (σ × List Delivery) → BufferPools) :
    Dispatch (σ × List Delivery) := fun payload length w =>
  let (err, state) := handle payload length w.app.1
  (err, ⟨pools payload length w, state, w.app.2 ++ [⟨payload, length, err⟩]⟩)

/-- The payload length in the first byte of a frame, as the receiver takes it. -/
def frameSize (b : UInt8) : ℕ := (b &&& 0x7F).toNat

theorem frameSize_eq_mod (b : UInt8) : frameSize b = b.toNat % 128 := and_group_toNat b

theorem frameSize_lt (b : UInt8) : frameSize b < 128 := by
  rw [frameSize_eq_mod]
  omega

/-- The deframer that the receiver is compared with. -/
abbrev deframe {σ : Type*} (handle : List UInt8 → ℤ → σ → Err × σ) :
    State UInt8 (Session σ) → List UInt8 → State UInt8 (Session σ) :=
  run frameSize (Session.deliver handle) Session.Halted

/-! ## Receiver states between two calls -/

/-- The receiver is at the start of a frame. -/
structure Idle (rs : ReceiverState) : Prop where
  line : rs.line = 0
  shouldReturn : rs.shouldReturn = false
  varintCurrentByte : rs.varintCurrentByte = 0
  compression : rs.compression = false
  encryption : rs.encryption = false

/-- The receiver holds a buffer with the bytes `got` of a payload of `n` bytes. -/
structure Holding (rs : ReceiverState) (pools : BufferPools) (n : ℕ) (got : List UInt8) :
    Prop where
  shouldReturn : rs.shouldReturn = true
  varintCurrentByte : rs.varintCurrentByte = 0
  compression : rs.compression = false
  encryption : rs.encryption = false
  packetLength : rs.packetLength = n
  leftToRead : rs.leftToRead = n - got.length
  size_lt : n < 128
  got_lt : got.length < n
  buffer : ∃ b, rs.packet = .buffer b ∧ pools.contents b got.length = got

/-- The receiver waits for the rest of a payload. -/
structure Filling (rs : ReceiverState) (pools : BufferPools) (n : ℕ) (got : List UInt8) :
    Prop extends Holding rs pools n got where
  line : rs.line = copyLine

theorem Idle.initial : Idle ReceiverState.initial where
  line := rfl
  shouldReturn := rfl
  varintCurrentByte := rfl
  compression := rfl
  encryption := rfl

/-- The receiver is where the phase of the deframer says, after frames of the sizes `done`. -/
def AtPhase {κ : Type*} (rs : ReceiverState) (pools : BufferPools) (done : List ℕ)
    (s : State UInt8 κ) : Prop :=
  match s.phase with
  | .header => Idle rs ∧ s.sizes = done
  | .payload n got => Filling rs pools n got ∧ s.sizes = done ++ [n]

/-- The receiver and the deframer have the same session. -/
def SameSession {σ : Type*} (err : Err) (w : World (σ × List Delivery)) (s : Session σ) : Prop :=
  err = s.err ∧ w.app = (s.state, s.log)

/-! ## The length prefix -/

theorem orGroup_zero (b : UInt8) : orGroup 0 b 0 = frameSize b := by
  have h : orGroup (0 : ℕ) b 0 = (0 + b.toNat % 128 * 2 ^ 0 : ℕ) :=
    orGroup_add (by decide) (by decide) (by omega)
  rw [frameSize_eq_mod]
  simpa using h

theorem fetchLength_cons (rs : ReceiverState) (hbyte : rs.varintCurrentByte = 0)
    (hlength : rs.varintLength = 0) (hpacket : rs.packetLength = 0) (b : UInt8)
    (data : List UInt8) :
    fetchLength rs (b :: data) =
      .fetched { rs with packetLength := frameSize b, varintLength := 1 } data := by
  have hor : orGroup rs.packetLength b 0 = frameSize b := by
    rw [hpacket]
    exact orGroup_zero b
  simp [fetchLength, hor, hlength, hbyte]

theorem toSize_ofNat_of_lt {n : ℕ} (h : n < 128) : toSize (n : ℤ) = n := by
  rw [toSize_of_nonneg (by omega) (by omega), Int.toNat_natCast]

/-! ## Copying into a buffer -/

theorem contents_length (pools : BufferPools) (b : BufId) (n : ℕ) :
    (pools.contents b n).length = n := by
  simp [BufferPools.contents]

theorem contents_memcpy {pools : BufferPools} {b : BufId} {got : List UInt8}
    (h : pools.contents b got.length = got) (bytes : List UInt8) :
    (pools.memcpy b got.length bytes).contents b (got.length + bytes.length) = got ++ bytes := by
  apply List.ext_getElem
  · simp [contents_length]
  · intro i hi _
    have hold : ∀ (hi : i < got.length), pools.memory b i = got[i] := by
      intro hi
      have hget := congrArg (fun l => l[i]?) h
      simpa [BufferPools.contents, hi] using hget
    rw [contents_length] at hi
    by_cases hlt : i < got.length
    · simp [BufferPools.contents, BufferPools.memcpy, List.getElem_append_left hlt, hold hlt,
        Nat.not_le.mpr hlt]
    · have hbound : i - got.length < bytes.length := by omega
      simp [BufferPools.contents, BufferPools.memcpy, List.getElem_append_right (Nat.not_lt.mp hlt),
        Nat.not_lt.mp hlt, hi, hbound]

/-! ## One pass -/

section

variable {σ κ : Type*} {config : ServerConfig} {dispatch : Dispatch σ}
  {deliver : List UInt8 → κ → κ} {halted : κ → Prop} [DecidablePred halted]
  {R : σ → κ → Prop} {F : Err → σ → κ → Prop}
  {rs : ReceiverState} {w : World σ} {s : State UInt8 κ} {data : List UInt8}

/-- A dispatcher that does what the consumer of a deframer does: `R` relates the two after every
packet that is accepted, `F` after one that is not. -/
structure Consumes (dispatch : Dispatch σ) (deliver : List UInt8 → κ → κ) (halted : κ → Prop)
    (R : σ → κ → Prop) (F : Err → σ → κ → Prop) : Prop where
  active : ∀ {app c}, R app c → ¬ halted c
  accepted : ∀ {payload w w' c}, R w.app c → payload.length < 128 →
    dispatch payload payload.length w = (.noError, w') → R w'.app (deliver payload c)
  refused : ∀ {payload w w' c err}, R w.app c → payload.length < 128 →
    dispatch payload payload.length w = (err, w') → err ≠ .noError →
    F err w'.app (deliver payload c)

/-- What a pass over `data` leaves is where the deframer is on its way through `data`. Frames of
the sizes `done` were finished before. -/
def Simulates (config : ServerConfig) (deliver : List UInt8 → κ → κ) (halted : κ → Prop)
    [DecidablePred halted] (R : σ → κ → Prop) (F : Err → σ → κ → Prop) (done : List ℕ)
    (s : State UInt8 κ) (data : List UInt8) : Pass σ → Prop
  | .failed err rs w =>
      ∃ s' rest, ∃ n : ℕ, rs.packetLength = n ∧
        run frameSize deliver halted s data = run frameSize deliver halted s' rest ∧
        s'.sizes = done ++ [n] ∧ err ≠ .noError ∧
        (config.maxRecvPacketSize < n ∧ rest = [] ∧ R w.app s'.consumer ∨ F err w.app s'.consumer)
  | .suspended rs w =>
      ∃ n : ℕ, rs.packetLength = n ∧
        (run frameSize deliver halted s data).sizes = done ++ [n] ∧
        R w.app (run frameSize deliver halted s data).consumer ∧
        AtPhase rs w.pools done (run frameSize deliver halted s data)
  | .finished rs w rest =>
      ∃ s', ∃ n : ℕ, rs.packetLength = n ∧
        run frameSize deliver halted s data = run frameSize deliver halted s' rest ∧
        s'.phase = .header ∧ s'.sizes = done ++ [n] ∧ Idle rs ∧ R w.app s'.consumer

theorem returnPacket_app (rs : ReceiverState) (w : World σ) :
    (returnPacket rs w).2.app = w.app := by
  unfold returnPacket
  split
  · split <;> rfl
  · rfl

theorem returnPacket_packetLength (rs : ReceiverState) (w : World σ) :
    (returnPacket rs w).1.packetLength = rs.packetLength := by
  unfold returnPacket
  split <;> rfl

theorem idle_returnPacket (w : World σ) (hbyte : rs.varintCurrentByte = 0)
    (hcompression : rs.compression = false) (hencryption : rs.encryption = false) :
    Idle { (returnPacket rs w).1 with line := 0 } := by
  unfold returnPacket
  split
  · exact ⟨rfl, rfl, hbyte, hcompression, hencryption⟩
  · rename_i hreturn
    exact ⟨rfl, by simpa using hreturn, hbyte, hcompression, hencryption⟩

theorem packetReady_ok {w w' : World σ} (hcompression : rs.compression = false)
    (hcall : dispatch (rs.packet.bytes w.pools rs.packetLength.toNat) rs.packetLength w =
      (.noError, w')) :
    packetReady dispatch rs w data =
      .finished { (returnPacket rs w').1 with line := 0 } (returnPacket rs w').2 data := by
  unfold packetReady
  rw [if_neg (by simp [hcompression]), hcall]

theorem packetReady_failed {w w' : World σ} {err : Err} (hcompression : rs.compression = false)
    (hcall : dispatch (rs.packet.bytes w.pools rs.packetLength.toNat) rs.packetLength w = (err, w'))
    (herr : err ≠ .noError) : packetReady dispatch rs w data = .failed err rs w' := by
  unfold packetReady
  rw [if_neg (by simp [hcompression]), hcall]
  cases err <;> first | exact absurd rfl herr | rfl

/-- A complete packet is delivered as the deframer delivers it. -/
theorem packetReady_simulates (hconsumes : Consumes dispatch deliver halted R F)
    (payload : List UInt8) {rest : List UInt8} {done : List ℕ} {c : κ}
    (hrelated : R w.app c) (hbyte : rs.varintCurrentByte = 0)
    (hcompression : rs.compression = false) (hencryption : rs.encryption = false)
    (hshort : payload.length < 128) (hlength : rs.packetLength = payload.length)
    (hbytes : rs.packet.bytes w.pools payload.length = payload)
    (hrun : run frameSize deliver halted s data = run frameSize deliver halted
      ⟨.header, done ++ [payload.length], deliver payload c⟩ rest) :
    Simulates config deliver halted R F done s data (packetReady dispatch rs w rest) := by
  rcases hcall : dispatch payload payload.length w with ⟨err, w'⟩
  have hdispatch : dispatch (rs.packet.bytes w.pools rs.packetLength.toNat) rs.packetLength w =
      (err, w') := by
    rw [hlength, Int.toNat_natCast, hbytes, hcall]
  by_cases hok : err = .noError
  · subst hok
    rw [packetReady_ok hcompression hdispatch]
    refine ⟨_, payload.length, (returnPacket_packetLength _ _).trans hlength, hrun, rfl, rfl,
      idle_returnPacket _ hbyte hcompression hencryption, ?_⟩
    rw [returnPacket_app]
    exact hconsumes.accepted hrelated hshort hcall
  · rw [packetReady_failed hcompression hdispatch hok]
    exact ⟨_, rest, payload.length, hlength, hrun, rfl, hok,
      Or.inr (hconsumes.refused hrelated hshort hcall hok)⟩

theorem canCopy_eq (rs : ReceiverState) (data : List UInt8) :
    canCopy rs data = min rs.leftToRead data.length := by
  unfold canCopy
  split <;> omega

theorem Holding.offset {n : ℕ} {got : List UInt8} (h : Holding rs w.pools n got) :
    sizeSub (toSize rs.packetLength) rs.leftToRead = got.length := by
  have hlt := h.size_lt
  have hgot := h.got_lt
  rw [h.packetLength, h.leftToRead, toSize_ofNat_of_lt hlt, sizeSub_of_le (by omega) (by omega)]
  omega

/-- The copy loop takes the bytes that belong to the payload. -/
theorem Holding.copyIn {n : ℕ} {got : List UInt8} (h : Holding rs w.pools n got)
    (data : List UInt8) :
    (copyIn rs w data).app = w.app ∧
      ∃ b, rs.packet = .buffer b ∧
        (copyIn rs w data).pools.contents b (got.length + min (n - got.length) data.length) =
          got ++ data.take (n - got.length) := by
  obtain ⟨b, hpacket, hcontents⟩ := h.buffer
  have htake : data.take (min (n - got.length) data.length) = data.take (n - got.length) := by
    rw [← List.take_take, List.take_length]
  have hoffset : sizeSub (toSize rs.packetLength) (n - got.length) = got.length := by
    rw [← h.leftToRead]
    exact h.offset
  refine ⟨by simp [CmcServer.copyIn, hpacket], b, hpacket, ?_⟩
  have hmem := contents_memcpy hcontents (data.take (n - got.length))
  rw [List.length_take] at hmem
  simp only [CmcServer.copyIn, hpacket, hoffset, canCopy_eq, h.leftToRead, htake]
  exact hmem

/-- The copy loop, with the bytes `got` already in the buffer. -/
theorem copyPayload_simulates (hconsumes : Consumes dispatch deliver halted R F)
    (s' : State UInt8 κ) {n : ℕ} {got stream : List UInt8} {done : List ℕ}
    (hrelated : R w.app s'.consumer) (hholding : Holding rs w.pools n got)
    (hphase : s'.phase = .payload n got) (hsizes : s'.sizes = done ++ [n])
    (hrun : run frameSize deliver halted s stream = run frameSize deliver halted s' data) :
    Simulates config deliver halted R F done s stream (copyPayload dispatch rs w data) := by
  have hgot := hholding.got_lt
  have hpayload := run_payload frameSize deliver halted (hconsumes.active hrelated) hphase hgot
    data
  rcases hholding.copyIn data with ⟨happ, b, hpacket, hcontents⟩
  have hcopied : R (copyIn rs w data).app s'.consumer := by
    rw [happ]
    exact hrelated
  unfold copyPayload
  rw [if_neg (by simp [hholding.encryption]), canCopy_eq, hholding.leftToRead]
  by_cases henough : n - got.length ≤ data.length
  · have hmin : min (n - got.length) data.length = n - got.length := by omega
    have hlen : (got ++ data.take (n - got.length)).length = n := by
      simp only [List.length_append, List.length_take, hmin]
      omega
    rw [hmin, if_pos (by omega)]
    rw [if_pos henough, complete, hsizes] at hpayload
    refine packetReady_simulates hconsumes (got ++ data.take (n - got.length)) hcopied
      hholding.varintCurrentByte hholding.compression hholding.encryption ?_ ?_ ?_ ?_
    · rw [hlen]
      exact hholding.size_lt
    · rw [hlen]
      exact hholding.packetLength
    · rw [hlen, hpacket, PacketPtr.bytes, ← hcontents, hmin]
      congr 1
      omega
    · rw [hlen]
      exact hrun.trans hpayload
  · have hmin : min (n - got.length) data.length = data.length := by omega
    have htake : data.take (n - got.length) = data := List.take_of_length_le (by omega)
    rw [hmin, htake] at hcontents
    rw [hmin, if_neg (by omega)]
    rw [if_neg henough] at hpayload
    have hfilling : Filling { rs with leftToRead := n - got.length - data.length, line := copyLine }
        (copyIn rs w data).pools n (got ++ data) :=
      { shouldReturn := hholding.shouldReturn
        varintCurrentByte := hholding.varintCurrentByte
        compression := hholding.compression
        encryption := hholding.encryption
        packetLength := hholding.packetLength
        leftToRead := by
          simp only [List.length_append]
          omega
        size_lt := hholding.size_lt
        got_lt := by
          simp only [List.length_append]
          omega
        buffer := ⟨b, hpacket, by rw [List.length_append]; exact hcontents⟩
        line := rfl }
    rw [Simulates, hrun.trans hpayload]
    exact ⟨n, hholding.packetLength, hsizes, hcopied, hfilling, hsizes⟩

theorem receivePayload_simulates (hconsumes : Consumes dispatch deliver halted R F) {b : UInt8}
    (hrelated : R w.app s.consumer) (hphase : s.phase = .header)
    (hbyte : rs.varintCurrentByte = 0) (hcompression : rs.compression = false)
    (hencryption : rs.encryption = false) (hlength : rs.packetLength = frameSize b) :
    Simulates config deliver halted R F s.sizes s (b :: data)
      (receivePayload config dispatch rs w data) := by
  have hactive := hconsumes.active hrelated
  have hheader := run_header frameSize deliver halted hactive hphase b data
  have hsize : toSize rs.packetLength = frameSize b := by
    rw [hlength, toSize_ofNat_of_lt (frameSize_lt b)]
  unfold receivePayload
  rw [hsize]
  by_cases hfast : frameSize b ≤ data.length
  · rw [if_pos hfast] at hheader ⊢
    have hlen : (data.take (frameSize b)).length = frameSize b := by
      rw [List.length_take]
      omega
    rw [hlength, Int.toNat_natCast]
    refine packetReady_simulates hconsumes (data.take (frameSize b)) hrelated hbyte hcompression
      hencryption ?_ ?_ ?_ ?_
    · rw [hlen]
      exact frameSize_lt b
    · rw [hlen]
    · rw [hlen]
      rfl
    · rw [hlen]
      exact hheader
  · rw [if_neg hfast] at hheader ⊢
    by_cases hfit : frameSize b ≤ config.maxRecvPacketSize
    · rw [if_neg (by simpa using hfit)]
      rcases hget : w.pools.bufferPoolGetProtocolRecv config with ⟨buffer, pools'⟩
      have hpos : frameSize b ≠ 0 := by omega
      refine copyPayload_simulates hconsumes (announce s (frameSize b)) hrelated ?_
        (announce_phase s (frameSize b)) rfl (run_announce _ _ _ hactive hphase hpos data)
      exact {
        shouldReturn := rfl
        varintCurrentByte := hbyte
        compression := hcompression
        encryption := hencryption
        packetLength := hlength
        leftToRead := rfl
        size_lt := frameSize_lt b
        got_lt := by simpa using Nat.pos_of_ne_zero hpos
        buffer := ⟨buffer, rfl, rfl⟩ }
    · rw [if_pos (by simpa using hfit)]
      refine ⟨_, [], frameSize b, hlength, hheader, rfl, by decide, Or.inl ⟨?_, rfl, hrelated⟩⟩
      exact Nat.not_le.mp hfit

variable (config) in
theorem receiverPass_simulates (hconsumes : Consumes dispatch deliver halted R F) {done : List ℕ}
    (hrelated : R w.app s.consumer) (hphase : AtPhase rs w.pools done s) (hdata : data ≠ []) :
    Simulates config deliver halted R F done s data (receiverPass config dispatch rs w data) := by
  unfold receiverPass
  unfold AtPhase at hphase
  split at hphase
  · rename_i hheader
    rcases hphase with ⟨hidle, rfl⟩
    rcases List.exists_cons_of_ne_nil hdata with ⟨b, rest, rfl⟩
    rw [if_pos hidle.line,
      fetchLength_cons { rs with varintLength := 0, packetLength := 0 }
        hidle.varintCurrentByte rfl rfl]
    exact receivePayload_simulates hconsumes hrelated hheader hidle.varintCurrentByte
      hidle.compression hidle.encryption rfl
  · rename_i n got hpayload
    rcases hphase with ⟨hfilling, hsizes⟩
    have hzero : ¬ rs.line = 0 := by
      rw [hfilling.line]
      decide
    have hlength : ¬ rs.line = lengthLine := by
      rw [hfilling.line]
      decide
    rw [if_neg hzero, if_neg hlength, if_pos hfilling.line]
    exact copyPayload_simulates hconsumes s hrelated hfilling.toHolding hpayload hsizes rfl

/-! ## One call -/

theorem receiverConsumeData_eq (hdata : data ≠ []) :
    receiverConsumeData config dispatch rs w data =
      match receiverPass config dispatch rs w data with
      | .failed err rs w => (err, { (returnPacket rs w).1 with line := 0 }, (returnPacket rs w).2)
      | .suspended rs w => (.noError, rs, w)
      | .finished rs w rest => receiverConsumeData config dispatch rs w rest := by
  rw [receiverConsumeData, if_neg hdata]
  split <;> rename_i h <;> rw [h]

theorem decodedLengths_eq (hdata : data ≠ []) :
    decodedLengths config dispatch rs w data =
      match receiverPass config dispatch rs w data with
      | .failed _ rs _ => [rs.packetLength]
      | .suspended rs _ => [rs.packetLength]
      | .finished rs w rest => rs.packetLength :: decodedLengths config dispatch rs w rest := by
  rw [decodedLengths, if_neg hdata]
  split <;> rename_i h <;> rw [h]

theorem atPhase_header {done : List ℕ} {bufs : BufferPools} (hidle : Idle rs)
    (hphase : s.phase = .header) (hsizes : s.sizes = done) : AtPhase rs bufs done s := by
  unfold AtPhase
  rw [hphase]
  exact ⟨hidle, hsizes⟩

/-- What a call leaves after an error: the packet that was just delivered was refused, or the frame
is too large for a buffer. -/
def Fails (config : ServerConfig) (R : σ → κ → Prop) (F : Err → σ → κ → Prop) (err : Err) (app : σ)
    (s : State UInt8 κ) : Prop :=
  (∃ n ∈ s.sizes, config.maxRecvPacketSize < n) ∧ R app s.consumer ∨ F err app s.consumer

variable (config data) in
/-- A call follows the deframer until an error. -/
theorem receiverConsumeData_follows (hconsumes : Consumes dispatch deliver halted R F)
    {done : List ℕ} (hrelated : R w.app s.consumer) (hphase : AtPhase rs w.pools done s) :
    let result := receiverConsumeData config dispatch rs w data
    let after := run frameSize deliver halted s data
    (result.1 = .noError →
      R result.2.2.app after.consumer ∧ ∃ done, AtPhase result.2.1 result.2.2.pools done after) ∧
    (result.1 ≠ .noError → ∃ s' rest, after = run frameSize deliver halted s' rest ∧
      Fails config R F result.1 result.2.2.app s') := by
  induction rs, w, data using receiverConsumeData.induct config dispatch generalizing s done with
  | case1 rs w =>
      rw [receiverConsumeData, if_pos rfl]
      exact ⟨fun _ => ⟨hrelated, done, hphase⟩, fun hne => absurd rfl hne⟩
  | case2 rs w data hdata err rs' w' hpass =>
      have hsim := receiverPass_simulates config hconsumes hrelated hphase hdata
      rw [hpass] at hsim
      rcases hsim with ⟨s', rest, n, -, hrun, hsizes, hfail, hcause⟩
      rw [receiverConsumeData_eq hdata, hpass]
      refine ⟨fun hok => absurd hok hfail, fun _ => ⟨s', rest, hrun, ?_⟩⟩
      rw [Fails, returnPacket_app]
      rcases hcause with ⟨hlarge, -, hrelated'⟩ | hrefused
      · exact Or.inl ⟨⟨n, by simp [hsizes], hlarge⟩, hrelated'⟩
      · exact Or.inr hrefused
  | case3 rs w data hdata rs' w' hpass =>
      have hsim := receiverPass_simulates config hconsumes hrelated hphase hdata
      rw [hpass] at hsim
      rcases hsim with ⟨n, -, -, hrelated', hat⟩
      rw [receiverConsumeData_eq hdata, hpass]
      exact ⟨fun _ => ⟨hrelated', done, hat⟩, fun hne => absurd rfl hne⟩
  | case4 rs w data hdata rs' w' rest hpass ih =>
      have hsim := receiverPass_simulates config hconsumes hrelated hphase hdata
      rw [hpass] at hsim
      rcases hsim with ⟨s', n, -, hrun, hheader, hsizes, hidle, hrelated'⟩
      rw [receiverConsumeData_eq hdata, hpass, hrun]
      exact ih hrelated' (atPhase_header hidle hheader hsizes)

/-- Where a call over `data` leaves the receiver, against the deframer. After an error the
deframer has just delivered the packet that was refused. -/
def Ends (deliver : List UInt8 → κ → κ) (halted : κ → Prop) [DecidablePred halted]
    (R : σ → κ → Prop) (F : Err → σ → κ → Prop) (s : State UInt8 κ) (data : List UInt8)
    (result : Err × ReceiverState × World σ) : Prop :=
  (result.1 = .noError →
    R result.2.2.app (run frameSize deliver halted s data).consumer ∧
      ∃ done, AtPhase result.2.1 result.2.2.pools done (run frameSize deliver halted s data)) ∧
  (result.1 ≠ .noError → ∃ s' rest,
    run frameSize deliver halted s data = run frameSize deliver halted s' rest ∧
      F result.1 result.2.2.app s'.consumer)

variable (config) in
/-- A call simulates the deframer on its chunk, if no frame is too large. -/
theorem receiverConsumeData_ends (hconsumes : Consumes dispatch deliver halted R F)
    {done : List ℕ} (hrelated : R w.app s.consumer) (hphase : AtPhase rs w.pools done s)
    (hfits : ∀ n ∈ (run frameSize deliver halted s data).sizes, n ≤ config.maxRecvPacketSize) :
    Ends deliver halted R F s data (receiverConsumeData config dispatch rs w data) := by
  have hfollows := receiverConsumeData_follows config data hconsumes hrelated hphase
  refine ⟨hfollows.1, fun hne => ?_⟩
  rcases hfollows.2 hne with ⟨s', rest, hrun, ⟨⟨n, hn, hlarge⟩, -⟩ | hrefused⟩
  · rw [hrun] at hfits
    exact absurd (hfits n ((sizes_run _ _ _ s' rest).subset hn)) (Nat.not_le.mpr hlarge)
  · exact ⟨s', rest, hrun, hrefused⟩

end

/-! ## Dispatchers that are functions -/

section

variable {σ : Type*} (config : ServerConfig) (handle : List UInt8 → ℤ → σ → Err × σ)
  (pools : List UInt8 → ℤ → World (σ × List Delivery) → BufferPools)
  {rs : ReceiverState} {w : World (σ × List Delivery)} {s : State UInt8 (Session σ)}
  {data : List UInt8}

/-- A session with the result `err`, as a dispatcher keeps it. -/
def Keeping (err : Err) (app : σ × List Delivery) (c : Session σ) : Prop :=
  err = c.err ∧ app = (c.state, c.log)

theorem recorded_consumes :
    Consumes (recorded handle pools) (Session.deliver handle) Session.Halted (Keeping .noError)
      Keeping where
  active := fun h hhalt => hhalt h.1.symm
  accepted := by
    rintro payload w w' c ⟨-, happ⟩ - hcall
    simp only [recorded, happ, Prod.mk.injEq] at hcall
    rcases hcall with ⟨herr, rfl⟩
    exact ⟨herr.symm, by simp [Session.deliver]⟩
  refused := by
    rintro payload w w' c err ⟨-, happ⟩ - hcall -
    simp only [recorded, happ, Prod.mk.injEq] at hcall
    rcases hcall with ⟨herr, rfl⟩
    exact ⟨herr.symm, by simp [Session.deliver]⟩

def Agrees (result : Err × ReceiverState × World (σ × List Delivery))
    (s : State UInt8 (Session σ)) : Prop :=
  SameSession result.1 result.2.2 s.consumer ∧
    (result.1 = .noError → ∃ done, AtPhase result.2.1 result.2.2.pools done s)

/-- A call simulates the deframer on its chunk. -/
theorem receiverConsumeData_simulates {done : List ℕ}
    (hsession : SameSession .noError w s.consumer) (hphase : AtPhase rs w.pools done s)
    (hfits : ∀ n ∈ (deframe handle s data).sizes, n ≤ config.maxRecvPacketSize) :
    Agrees (receiverConsumeData config (recorded handle pools) rs w data)
      (deframe handle s data) := by
  have hends := receiverConsumeData_ends config (recorded_consumes handle pools) hsession hphase
    hfits
  rcases hresult : receiverConsumeData config (recorded handle pools) rs w data with ⟨err, rs', w'⟩
  rw [hresult] at hends
  by_cases hok : err = .noError
  · rcases hends.1 hok with ⟨hsame, hat⟩
    exact ⟨⟨hok.trans hsame.1, hsame.2⟩, fun _ => hat⟩
  · rcases hends.2 hok with ⟨s', rest, hrun, hsame⟩
    have hhalt : Session.Halted s'.consumer := fun h => hok (hsame.1.trans h)
    rw [deframe, hrun, run_of_halted _ _ _ hhalt]
    exact ⟨hsame, fun h => absurd h hok⟩

/-- The lengths that a call decodes are the sizes that the deframer reads. -/
theorem sizes_deframe (data : List UInt8) (hsession : SameSession .noError w s.consumer)
    (hidle : Idle rs) (hheader : s.phase = .header) :
    (deframe handle s data).sizes.map Int.ofNat =
      s.sizes.map Int.ofNat ++ decodedLengths config (recorded handle pools) rs w data := by
  induction rs, w, data using decodedLengths.induct config (recorded handle pools)
    generalizing s with
  | case1 rs w =>
      rw [decodedLengths, if_pos rfl]
      simp
  | case2 rs w data hdata err rs' w' hpass =>
      have hsim := receiverPass_simulates config (recorded_consumes handle pools)
        hsession (atPhase_header hidle hheader rfl) hdata
      rw [hpass] at hsim
      rcases hsim with ⟨s', rest, n, hlength, hrun, hsizes, hfail, hcause⟩
      have hend : deframe handle s data = s' := by
        rcases hcause with ⟨-, rfl, -⟩ | hsame
        · exact hrun
        · have hhalt : Session.Halted s'.consumer := fun h => hfail (hsame.1.trans h)
          rw [deframe, hrun, run_of_halted _ _ _ hhalt]
      rw [decodedLengths_eq hdata, hpass, hend, hsizes]
      simp [hlength]
  | case3 rs w data hdata rs' w' hpass =>
      have hsim := receiverPass_simulates config (recorded_consumes handle pools)
        hsession (atPhase_header hidle hheader rfl) hdata
      rw [hpass] at hsim
      rcases hsim with ⟨n, hlength, hsizes, -⟩
      rw [decodedLengths_eq hdata, hpass, deframe, hsizes]
      simp [hlength]
  | case4 rs w data hdata rs' w' rest hpass ih =>
      have hsim := receiverPass_simulates config (recorded_consumes handle pools)
        hsession (atPhase_header hidle hheader rfl) hdata
      rw [hpass] at hsim
      rcases hsim with ⟨s', n, hlength, hrun, hheader', hsizes, hidle', hsame⟩
      rw [decodedLengths_eq hdata, hpass, deframe, hrun]
      have hrest := ih hsame hidle' hheader'
      rw [deframe, hsizes] at hrest
      rw [hrest]
      simp [hlength]

/-- The calls for the chunks of a stream simulate the deframer on the whole stream. -/
theorem receiveChunks_simulates {chunks : List (List UInt8)} {done : List ℕ}
    (hsession : SameSession .noError w s.consumer) (hphase : AtPhase rs w.pools done s)
    (hfits : ∀ n ∈ (deframe handle s chunks.flatten).sizes, n ≤ config.maxRecvPacketSize) :
    Agrees (receiveChunks config (recorded handle pools) rs w chunks)
      (deframe handle s chunks.flatten) := by
  induction chunks generalizing rs w s done with
  | nil => exact ⟨hsession, fun _ => ⟨done, hphase⟩⟩
  | cons data chunks ih =>
      have hsplit : deframe handle s (data :: chunks).flatten =
          deframe handle (deframe handle s data) chunks.flatten := by
        rw [List.flatten_cons]
        exact run_append _ _ _ _ _ _
      rw [hsplit] at hfits ⊢
      have hcall := receiverConsumeData_simulates config handle pools
        hsession hphase fun n hn => hfits n ((sizes_run _ _ _ _ _).subset hn)
      obtain ⟨err, rs', w', hresult⟩ : ∃ err rs' w',
          receiverConsumeData config (recorded handle pools) rs w data = (err, rs', w') :=
        ⟨_, _, _, rfl⟩
      rw [hresult] at hcall
      by_cases hok : err = .noError
      · subst hok
        obtain ⟨done', hphase'⟩ := hcall.2 rfl
        rw [receiveChunks, hresult]
        exact ih hcall.1 hphase' hfits
      · have hhalt : Session.Halted (deframe handle s data).consumer := fun h =>
          hok (hcall.1.1.trans h)
        have hrest : deframe handle (deframe handle s data) chunks.flatten =
            deframe handle s data := run_of_halted _ _ _ hhalt _
        have hstop : receiveChunks config (recorded handle pools) rs w (data :: chunks) =
            (err, rs', w') := by
          rw [receiveChunks, hresult]
          cases err <;> first | exact absurd rfl hok | rfl
        rw [hstop, hrest]
        exact hcall

end

end CmcServer
