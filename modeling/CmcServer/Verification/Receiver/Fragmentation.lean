import CmcServer.Verification.Receiver.Simulation

/-! # Fragmentation independence

How a stream is cut into received chunks changes neither the calls of `dispatch_packet` nor the
first error. -/

namespace CmcServer

open Deframer

def freshWorld {σ : Type*} (bufs : BufferPools) (state : σ) : World (σ × List Delivery) :=
  ⟨bufs, state, []⟩

def freshDeframer {σ : Type*} (state : σ) : State UInt8 (Session σ) :=
  ⟨.header, [], .noError, state, []⟩

section

variable {σ : Type*} (config : ServerConfig) (handle : List UInt8 → ℤ → σ → Err × σ)
  (pools : List UInt8 → ℤ → World (σ × List Delivery) → BufferPools) (bufs : BufferPools)
  (state : σ)

theorem atPhase_fresh : AtPhase .initial bufs [] (freshDeframer state) :=
  ⟨Idle.initial, rfl⟩

theorem sized_fresh : (freshDeframer state).Sized frameSize := by
  intro n got h
  cases h

/-- The lengths decoded from an uncut stream are the sizes that the deframer reads. -/
theorem decodedLengths_fresh (stream : List UInt8) :
    decodedLengths config (recorded handle pools) .initial (freshWorld bufs state) stream =
      (deframe handle (freshDeframer state) stream).sizes.map Int.ofNat := by
  have hsession : SameSession .noError (freshWorld bufs state) (freshDeframer state).consumer :=
    ⟨rfl, rfl⟩
  have h := sizes_deframe config handle pools stream hsession Idle.initial rfl
  simpa [freshDeframer] using h.symm

/-- The error of a session is the result of its last call, and the only one. -/
def Session.LastFailed (s : Session σ) : Prop :=
  (s.err = .noError ∧ ∀ d ∈ s.log, d.err = .noError) ∨
    s.err ≠ .noError ∧ ∃ before last, s.log = before ++ [last] ∧ last.err = s.err ∧
      ∀ d ∈ before, d.err = .noError

theorem Session.lastFailed_deliver {handle : List UInt8 → ℤ → σ → Err × σ} {s : Session σ}
    (payload : List UInt8) (hactive : ¬ s.Halted) (h : s.LastFailed) :
    (s.deliver handle payload).LastFailed := by
  obtain ⟨-, hlog⟩ | ⟨hfailed, -⟩ := h
  · by_cases hok : (handle payload payload.length s.state).1 = .noError
    · refine Or.inl ⟨hok, ?_⟩
      intro d hd
      rcases List.mem_append.mp hd with hd | hd
      · exact hlog d hd
      · rw [List.mem_singleton.mp hd]
        exact hok
    · exact Or.inr ⟨hok, s.log, _, rfl, rfl, hlog⟩
  · exact absurd hfailed hactive

theorem lastFailed_deframe (stream : List UInt8) :
    (deframe handle (freshDeframer state) stream).consumer.LastFailed :=
  run_consumer _ _ _ (fun _ payload _ _ hactive h => Session.lastFailed_deliver payload hactive h)
    (sized_fresh state) (Or.inl ⟨rfl, by simp [freshDeframer]⟩) stream

/-- The uncut stream simulates the deframer. -/
theorem receiverConsumeData_fresh {stream : List UInt8}
    (hfits : ∀ n ∈ (deframe handle (freshDeframer state) stream).sizes,
      n ≤ config.maxRecvPacketSize) :
    Agrees
      (receiverConsumeData config (recorded handle pools) .initial (freshWorld bufs state) stream)
      (deframe handle (freshDeframer state) stream) :=
  receiverConsumeData_simulates config handle pools ⟨rfl, rfl⟩ (atPhase_fresh bufs state) hfits

/-- Any cut of the stream simulates the deframer on the whole stream. -/
theorem receiveChunks_fresh {chunks : List (List UInt8)}
    (hfits : ∀ n ∈ (deframe handle (freshDeframer state) chunks.flatten).sizes,
      n ≤ config.maxRecvPacketSize) :
    Agrees
      (receiveChunks config (recorded handle pools) .initial (freshWorld bufs state) chunks)
      (deframe handle (freshDeframer state) chunks.flatten) :=
  receiveChunks_simulates config handle pools ⟨rfl, rfl⟩ (atPhase_fresh bufs state) hfits

end

end CmcServer
