import CmcServer.Verification.Receiver.Fragmentation
import CmcServer.Model.Request

/-! # Framing

The receiver against the frames that `server_send_packet` builds. -/

namespace CmcServer

open Deframer Bytes

/-- The frame that `server_send_packet` sends for a packet, whose size it takes as an
`int32_t`. -/
def frameOf (payload : List UInt8) : Option (List UInt8) :=
  (sendVecs payload (toInt32 payload.length)).map List.flatten

def framesOf : List (List UInt8) → Option (List UInt8)
  | [] => some []
  | payload :: payloads => do
      let frame ← frameOf payload
      let rest ← framesOf payloads
      return frame ++ rest

/-- What `protocol_read_varint` decodes from the start of a frame. -/
def readLength (frame : List UInt8) (junk : ℕ → UInt8) : ℤ :=
  (protocolReadVarint (ofList frame junk) frame.length 0).value

section

variable {σ : Type*} (config : ServerConfig) (handle : List UInt8 → ℤ → σ → Err × σ)
  (pools : List UInt8 → ℤ → World (σ × List Delivery) → BufferPools) (bufs : BufferPools)
  (state : σ)

/-- The receiver of a new client takes a stream of frames apart into the packets it was built
from, decodes the lengths that `protocol_read_varint` decodes, and is ready for the next frame. -/
def FramingAgrees (junk : ℕ → UInt8) (payloads : List (List UInt8)) (stream : List UInt8) : Prop :=
  let w := freshWorld bufs state
  let result := receiverConsumeData config (recorded handle pools) .initial w stream
  result.1 = .noError ∧
    result.2.2.app.2 = payloads.map (fun payload => ⟨payload, payload.length, .noError⟩) ∧
    result.2.1.line = 0 ∧ result.2.1.shouldReturn = false ∧
    decodedLengths config (recorded handle pools) .initial w stream =
      payloads.map fun payload => readLength ((frameOf payload).getD []) junk

end

/-! ## Frames with one byte of length -/

theorem frameOf_eq {payload : List UInt8} (h : payload.length < 2 ^ 31) :
    frameOf payload = some (Base128.encode payload.length ++ payload) := by
  have hsize : toInt32 payload.length = (payload.length : ℕ) :=
    toInt32_of_range (by omega) (by omega)
  rw [frameOf, sendVecs, hsize, protocolWriteVarint_nat (by omega)]
  simp

theorem frameOf_short {payload : List UInt8} (h : payload.length < 128) :
    frameOf payload = some (UInt8.ofNat payload.length :: payload) := by
  rw [frameOf_eq (by omega), Base128.encode_of_lt h]
  rfl

theorem frameSize_ofNat {n : ℕ} (h : n < 128) : frameSize (UInt8.ofNat n) = n := by
  rw [frameSize_eq_mod, UInt8.toNat_ofNat']
  omega

theorem readLength_short {payload : List UInt8} (h : payload.length < 128)
    (junk : ℕ → UInt8) : readLength ((frameOf payload).getD []) junk = payload.length := by
  have hframe : At (ofList (UInt8.ofNat payload.length :: payload) junk) 0
      (Base128.encode payload.length) := by
    rw [Base128.encode_of_lt h]
    have hall := at_ofList (UInt8.ofNat payload.length :: payload) junk
    exact at_cons.mpr ⟨(at_cons.mp hall).1, at_nil _ _⟩
  have hfits : (Base128.encode payload.length).length ≤ payload.length + 1 := by
    simp [Base128.encode_of_lt h]
  have hread := protocolReadVarint_encode (by omega) hframe hfits
  rw [frameOf_short h, Option.getD_some, readLength, List.length_cons, hread]

section

variable {σ : Type*} {config : ServerConfig} {handle : List UInt8 → ℤ → σ → Err × σ}
  {pools : List UInt8 → ℤ → World (σ × List Delivery) → BufferPools} {bufs : BufferPools}
  {state : σ} {payloads : List (List UInt8)} {stream : List UInt8}

/-- The deframer takes a stream of short frames apart. -/
theorem deframe_frames (hok : ∀ payload n s, (handle payload n s).1 = .noError)
    (hshort : ∀ payload ∈ payloads, payload.length < 128)
    (hstream : framesOf payloads = some stream) {s : State UInt8 (Session σ)}
    (hactive : ¬ s.consumer.Halted) (hphase : s.phase = .header) :
    let s' := deframe handle s stream
    ¬ s'.consumer.Halted ∧ s'.phase = .header ∧
      s'.sizes = s.sizes ++ payloads.map List.length ∧
      s'.consumer.log =
        s.consumer.log ++ payloads.map fun payload => ⟨payload, payload.length, .noError⟩ := by
  induction payloads generalizing s stream with
  | nil =>
      simp only [framesOf, Option.some.injEq] at hstream
      subst hstream
      simp [deframe, hactive, hphase]
  | cons payload payloads ih =>
      have hlen : payload.length < 128 := hshort payload (by simp)
      simp only [framesOf, frameOf_short hlen, Option.bind_eq_bind, Option.bind_some] at hstream
      cases hrest : framesOf payloads with
      | none => simp [hrest] at hstream
      | some rest =>
          simp only [hrest, Option.bind_some, Option.pure_def, Option.some.injEq] at hstream
          subst hstream
          have hsize := frameSize_ofNat hlen
          have hrun := run_header frameSize (Session.deliver handle) Session.Halted hactive hphase
            (UInt8.ofNat payload.length) (payload ++ rest)
          rw [hsize, if_pos (by simp), List.take_left, List.drop_left] at hrun
          have hdelivered : ¬ (s.consumer.deliver handle payload).Halted := fun h => h (hok _ _ _)
          obtain ⟨hactive', hphase', hsizes, hlog⟩ := ih
            (fun p hp => hshort p (List.mem_cons_of_mem _ hp)) hrest
            (s := complete (Session.deliver handle) (announce s payload.length) payload)
            hdelivered rfl
          simp only [List.cons_append]
          rw [deframe, hrun]
          refine ⟨hactive', hphase', ?_, ?_⟩
          · rw [hsizes]
            simp [complete, announce]
          · rw [hlog]
            simp [complete, announce, Session.deliver, hok]

/-! ## The receiver takes no other frames apart -/

/-- Every payload so far was shorter than 128 bytes. -/
def Session.ShortLog (s : Session σ) : Prop := ∀ d ∈ s.log, d.payload.length < 128

theorem Session.shortLog_deliver {b : UInt8} {payload : List UInt8} {s : Session σ}
    (hsize : payload.length = frameSize b) (h : s.ShortLog) :
    (s.deliver handle payload).ShortLog := by
  intro d hd
  rcases List.mem_append.mp hd with hd | hd
  · exact h d hd
  · rw [List.mem_singleton.mp hd, hsize]
    exact frameSize_lt b

theorem shortLog_deframe (stream : List UInt8) :
    (deframe handle (freshDeframer state) stream).consumer.ShortLog :=
  run_consumer _ _ _ (fun _ _ _ hsize _ h => Session.shortLog_deliver hsize h)
    (sized_fresh state) (by simp [freshDeframer, Session.ShortLog]) stream

theorem deframe_sizes_lt {s : State UInt8 (Session σ)} (hs : ∀ n ∈ s.sizes, n < 128)
    (stream : List UInt8) : ∀ n ∈ (deframe handle s stream).sizes, n < 128 := by
  induction stream generalizing s with
  | nil => exact hs
  | cons b stream ih =>
      apply ih
      intro n hn
      have hannounced : ∀ m ∈ s.sizes ++ [frameSize b], m < 128 := by
        intro m hm
        rcases List.mem_append.mp hm with hm | hm
        · exact hs m hm
        · rw [List.mem_singleton.mp hm]
          exact frameSize_lt b
      unfold step at hn
      split at hn
      · exact hs n hn
      · split at hn
        · split at hn <;> exact hannounced n hn
        · unfold collect at hn
          split at hn <;> exact hs n hn

theorem lengths_of_framingAgrees {junk : ℕ → UInt8}
    (hsize : ∀ payload ∈ payloads, payload.length ≤ config.maxRecvPacketSize)
    (h : FramingAgrees config handle pools bufs state junk payloads stream) :
    ∀ payload ∈ payloads, payload.length < 128 := by
  intro payload hpayload
  by_contra hlong
  have hmax := hsize payload hpayload
  have hfits : ∀ n ∈ (deframe handle (freshDeframer state) stream).sizes,
      n ≤ config.maxRecvPacketSize := by
    intro n hn
    have hlt := deframe_sizes_lt (by simp [freshDeframer]) stream n hn
    omega
  have happ := (receiverConsumeData_fresh config handle pools bufs state hfits).1.2
  have hlog : (deframe handle (freshDeframer state) stream).consumer.log =
      payloads.map fun payload => ⟨payload, payload.length, .noError⟩ :=
    (congrArg Prod.snd happ).symm.trans h.2.1
  have hmem : (⟨payload, payload.length, .noError⟩ : Delivery) ∈
      (deframe handle (freshDeframer state) stream).consumer.log := by
    rw [hlog]
    exact List.mem_map_of_mem hpayload
  exact hlong (shortLog_deframe stream _ hmem)

theorem framingAgrees_of_lengths (hok : ∀ payload n s, (handle payload n s).1 = .noError)
    (hstream : framesOf payloads = some stream)
    (hsize : ∀ payload ∈ payloads, payload.length ≤ config.maxRecvPacketSize)
    (hshort : ∀ payload ∈ payloads, payload.length < 128) (junk : ℕ → UInt8) :
    FramingAgrees config handle pools bufs state junk payloads stream := by
  have hstart : ¬ (freshDeframer state).consumer.Halted := fun h => h rfl
  obtain ⟨hactive, hphase, hsizes, hlog⟩ := deframe_frames hok hshort hstream hstart rfl
  have hfits : ∀ n ∈ (deframe handle (freshDeframer state) stream).sizes,
      n ≤ config.maxRecvPacketSize := by
    intro n hn
    rw [hsizes] at hn
    obtain ⟨payload, hpayload, rfl⟩ := List.mem_map.mp (by simpa [freshDeframer] using hn)
    exact hsize payload hpayload
  obtain ⟨⟨herr, happ⟩, hat⟩ := receiverConsumeData_fresh config handle pools bufs state hfits
  have hnoError : (receiverConsumeData config (recorded handle pools) .initial
      (freshWorld bufs state) stream).1 = .noError := by
    rw [herr]
    by_contra hne
    exact hactive hne
  obtain ⟨done, hidle⟩ := hat hnoError
  rw [AtPhase, hphase] at hidle
  refine ⟨hnoError, ?_, hidle.1.line, hidle.1.shouldReturn, ?_⟩
  · rw [happ, hlog]
    simp [freshDeframer]
  · rw [decodedLengths_fresh, hsizes]
    simp only [freshDeframer, List.nil_append, List.map_map]
    apply List.map_congr_left
    intro payload hpayload
    exact (readLength_short (hshort payload hpayload) junk).symm

/-- With a dispatcher that accepts every packet, the receiver takes the frames of packets apart
exactly when every packet has fewer than 128 bytes, that is a length of one byte. -/
theorem framing_agrees_iff_one_byte_lengths
    (hok : ∀ payload n s, (handle payload n s).1 = .noError)
    (hstream : framesOf payloads = some stream)
    (hsize : ∀ payload ∈ payloads, payload.length ≤ config.maxRecvPacketSize)
    (junk : ℕ → UInt8) :
    FramingAgrees config handle pools bufs state junk payloads stream ↔
      ∀ payload ∈ payloads, payload.length < 128 :=
  ⟨lengths_of_framingAgrees hsize,
    fun hshort => framingAgrees_of_lengths hok hstream hsize hshort junk⟩

end

/-- Two short frames. -/
theorem framing_agrees_two_frames :
    FramingAgrees defaultConfig (fun _ _ (s : Unit) => (.noError, s)) (fun _ _ w => w.pools)
      .initial () (fun _ => 0) [[0x41], [0x42, 0x43]] [1, 0x41, 2, 0x42, 0x43] := by
  have hstream : framesOf [[0x41], [0x42, 0x43]] = some [1, 0x41, 2, 0x42, 0x43] := by decide
  exact (framing_agrees_iff_one_byte_lengths (fun _ _ _ => rfl) hstream (by decide) _).mpr
    (by decide)

/-- The frame of a packet of 128 bytes is not taken apart: its first byte is read as an empty
packet. -/
theorem framing_disagrees_two_byte_length :
    ¬ ∀ payloads stream, framesOf payloads = some stream →
      (∀ payload ∈ payloads, payload.length ≤ defaultConfig.maxRecvPacketSize) →
      FramingAgrees defaultConfig (fun _ _ (s : Unit) => (.noError, s)) (fun _ _ w => w.pools)
        .initial () (fun _ => 0) payloads stream := by
  intro h
  have hsize : ∀ payload ∈ [List.replicate 128 (0 : UInt8)],
      payload.length ≤ defaultConfig.maxRecvPacketSize := by
    simp [defaultConfig]
  have hstream : framesOf [List.replicate 128 0] =
      some (Base128.encode 128 ++ List.replicate 128 0) := by
    rw [framesOf, frameOf_eq (by simp)]
    simp [framesOf]
  have hagrees := h _ _ hstream hsize
  have hlt := lengths_of_framingAgrees hsize hagrees (List.replicate 128 0) (by simp)
  simp at hlt

end CmcServer
