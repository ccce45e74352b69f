import Mathlib.Data.List.Basic
import Mathlib.Tactic.Common

/-! # Length-prefixed streams, one element at a time

A deframer reads a header element, which gives the size of the payload after it, collects the
payload and delivers it to a consumer. It handles one element at a time, so how a stream is cut
into chunks does not matter to it. -/

namespace Deframer

/-- The deframer waits for a header, or has part of a payload. -/
inductive Phase (α : Type*) where
  | header
  | payload (size : ℕ) (got : List α)

/-- The phase, the sizes read so far and the state of the consumer. -/
structure State (α σ : Type*) where
  phase : Phase α
  sizes : List ℕ
  consumer : σ

variable {α σ : Type*} (size : α → ℕ) (deliver : List α → σ → σ) (halted : σ → Prop)
  [DecidablePred halted]

/-- A complete payload goes to the consumer. -/
def complete (s : State α σ) (payload : List α) : State α σ :=
  { s with phase := .header, consumer := deliver payload s.consumer }

/-- The size of the next payload is known. -/
def announce (s : State α σ) (n : ℕ) : State α σ :=
  { s with phase := .payload n [], sizes := s.sizes ++ [n] }

theorem announce_phase (s : State α σ) (n : ℕ) : (announce s n).phase = .payload n [] := rfl

/-- One more element of a payload. -/
def collect (s : State α σ) (n : ℕ) (got : List α) (a : α) : State α σ :=
  if got.length + 1 < n then { s with phase := .payload n (got ++ [a]) }
  else complete deliver s (got ++ [a])

def step (s : State α σ) (a : α) : State α σ :=
  if halted s.consumer then s
  else
    match s.phase with
    | .header =>
        if size a = 0 then complete deliver (announce s (size a)) [] else announce s (size a)
    | .payload n got => collect deliver s n got a

def run (s : State α σ) (stream : List α) : State α σ :=
  stream.foldl (step size deliver halted) s

/-! ## Streams in chunks -/

@[simp] theorem run_nil (s : State α σ) : run size deliver halted s [] = s := rfl

@[simp] theorem run_cons (s : State α σ) (a : α) (stream : List α) :
    run size deliver halted s (a :: stream) =
      run size deliver halted (step size deliver halted s a) stream := rfl

theorem run_append (s : State α σ) (xs ys : List α) :
    run size deliver halted s (xs ++ ys) =
      run size deliver halted (run size deliver halted s xs) ys :=
  List.foldl_append

theorem run_of_halted {s : State α σ} (h : halted s.consumer) (stream : List α) :
    run size deliver halted s stream = s := by
  induction stream with
  | nil => rfl
  | cons a stream ih => rw [run_cons, step, if_pos h, ih]

/-! ## The sizes that were read -/

theorem sizes_step (s : State α σ) (a : α) :
    s.sizes <+: (step size deliver halted s a).sizes := by
  unfold step
  split
  · exact List.prefix_refl _
  · split
    · split <;> exact List.prefix_append _ _
    · unfold collect
      split <;> exact List.prefix_refl _

theorem sizes_run (s : State α σ) (stream : List α) :
    s.sizes <+: (run size deliver halted s stream).sizes := by
  induction stream generalizing s with
  | nil => exact List.prefix_refl _
  | cons a stream ih => exact (sizes_step size deliver halted s a).trans (ih _)

/-! ## Whole payloads at once -/

theorem run_payload {s : State α σ} {n : ℕ} {got : List α} (hs : ¬ halted s.consumer)
    (hphase : s.phase = .payload n got) (hgot : got.length < n) (stream : List α) :
    run size deliver halted s stream =
      if n - got.length ≤ stream.length then
        run size deliver halted
          (complete deliver s (got ++ stream.take (n - got.length)))
          (stream.drop (n - got.length))
      else { s with phase := .payload n (got ++ stream) } := by
  induction stream generalizing s got with
  | nil =>
      rw [if_neg (by simp; omega), List.append_nil, ← hphase, run_nil]
  | cons a stream ih =>
      rw [run_cons, step, if_neg hs, hphase]
      unfold collect
      obtain ⟨k, hk⟩ : ∃ k, n - got.length = k + 1 := ⟨n - got.length - 1, by omega⟩
      by_cases hmore : got.length + 1 < n
      · -- the element is not the last one of the payload
        have hlen : n - (got ++ [a]).length = k := by simp; omega
        have hnext := ih (s := { s with phase := .payload n (got ++ [a]) }) hs rfl (by simp; omega)
        simp only [hlen] at hnext
        simp only [if_pos hmore, hnext, hk, List.length_cons, Nat.add_le_add_iff_right,
          List.take_succ_cons, List.drop_succ_cons, List.append_assoc, List.singleton_append]
        rfl
      · have hlast : k = 0 := by omega
        simp only [if_neg hmore, hk, hlast]
        rw [if_pos (by simp)]
        rfl

theorem run_announce {s : State α σ} (hs : ¬ halted s.consumer) (hphase : s.phase = .header)
    {a : α} (ha : size a ≠ 0) (stream : List α) :
    run size deliver halted s (a :: stream) =
      run size deliver halted (announce s (size a)) stream := by
  rw [run_cons, step, if_neg hs, hphase]
  simp [ha]

theorem run_header {s : State α σ} (hs : ¬ halted s.consumer) (hphase : s.phase = .header)
    (a : α) (stream : List α) :
    run size deliver halted s (a :: stream) =
      if size a ≤ stream.length then
        run size deliver halted (complete deliver (announce s (size a)) (stream.take (size a)))
          (stream.drop (size a))
      else { announce s (size a) with phase := .payload (size a) stream } := by
  by_cases hzero : size a = 0
  · rw [run_cons, step, if_neg hs, hphase]
    simp [hzero]
  · rw [run_announce size deliver halted hs hphase hzero]
    have hrun := run_payload size deliver halted (s := announce s (size a)) hs
      (announce_phase s (size a)) (by simp; omega) stream
    simpa [hzero] using hrun

/-! ## What the stream is made of -/

/-- A header and a payload of its size. -/
def IsFrame (frame : List α) : Prop := ∃ a payload, frame = a :: payload ∧ payload.length = size a

/-- The stream is made of whole frames and of the part of a frame that the phase has seen. -/
def State.Parsed (s : State α σ) (stream : List α) : Prop :=
  ∃ frames : List (List α), (∀ frame ∈ frames, IsFrame size frame) ∧
    match s.phase with
    | .header => stream = frames.flatten
    | .payload n got => ∃ a, n = size a ∧ got.length < n ∧ stream = frames.flatten ++ a :: got

theorem parsed_step {s : State α σ} {stream : List α} (h : s.Parsed size stream)
    (hs : ¬ halted s.consumer) (a : α) :
    (step size deliver halted s a).Parsed size (stream ++ [a]) := by
  obtain ⟨frames, hframes, hphase⟩ := h
  have hmore : ∀ frame, IsFrame size frame → ∀ f ∈ frames ++ [frame], IsFrame size f := by
    intro frame hframe f hf
    obtain hf | hf := List.mem_append.mp hf
    · exact hframes f hf
    · rwa [List.mem_singleton.mp hf]
  rw [step, if_neg hs]
  split
  · rename_i hheader
    rw [hheader] at hphase
    by_cases hzero : size a = 0
    · rw [if_pos hzero]
      exact ⟨frames ++ [[a]], hmore [a] ⟨a, [], rfl, hzero.symm⟩, by simp [complete, hphase]⟩
    · rw [if_neg hzero]
      refine ⟨frames, hframes, a, rfl, ?_, ?_⟩
      · simpa using Nat.pos_of_ne_zero hzero
      · rw [hphase]
  · rename_i n got hpayload
    rw [hpayload] at hphase
    obtain ⟨b, hb, hlt, hstream⟩ := hphase
    rw [collect]
    split
    · exact ⟨frames, hframes, b, hb, by simpa using ‹got.length + 1 < n›, by simp [hstream]⟩
    · have hframe : IsFrame size (b :: (got ++ [a])) :=
        ⟨b, got ++ [a], rfl, by rw [List.length_append, List.length_singleton]; omega⟩
      exact ⟨frames ++ [b :: (got ++ [a])], hmore _ hframe, by simp [complete, hstream]⟩

/-- A deframer that does not halt has taken its stream apart. -/
theorem parsed_run (hactive : ∀ c, ¬ halted c) {s : State α σ} {seen : List α}
    (h : s.Parsed size seen) (stream : List α) :
    (run size deliver halted s stream).Parsed size (seen ++ stream) := by
  induction stream generalizing s seen with
  | nil => rwa [List.append_nil]
  | cons a stream ih =>
      rw [run_cons, ← List.singleton_append, ← List.append_assoc]
      exact ih (parsed_step size deliver halted h (hactive _) a)

/-! ## What the consumer gets -/

/-- A payload that is not complete yet belongs to a header. -/
def State.Sized (s : State α σ) : Prop :=
  ∀ n got, s.phase = .payload n got → got.length < n ∧ ∃ a, n = size a

/-- The deframer delivers payloads of the size in their header, so what every such delivery
preserves holds of the consumer after any stream. -/
theorem run_consumer {inv : σ → Prop}
    (hdeliver : ∀ a payload c, payload.length = size a → ¬ halted c → inv c →
      inv (deliver payload c))
    {s : State α σ} (hsized : s.Sized size) (hs : inv s.consumer) (stream : List α) :
    inv (run size deliver halted s stream).consumer := by
  induction stream generalizing s with
  | nil => exact hs
  | cons a stream ih =>
      rw [run_cons]
      by_cases hhalt : halted s.consumer
      · rw [step, if_pos hhalt]
        exact ih hsized hs
      · rw [step, if_neg hhalt]
        cases hphase : s.phase with
        | header =>
            by_cases hzero : size a = 0
            · simp only [hzero, if_true]
              refine ih ?_ (hdeliver a [] _ hzero.symm hhalt hs)
              intro n got h
              cases h
            · simp only [hzero, if_false]
              refine ih ?_ hs
              intro n got h
              cases h
              exact ⟨Nat.pos_of_ne_zero hzero, a, rfl⟩
        | payload n got =>
            obtain ⟨hlt, b, hb⟩ := hsized n got hphase
            simp only [collect]
            by_cases hmore : got.length + 1 < n
            · rw [if_pos hmore]
              refine ih ?_ hs
              intro n' got' h
              cases h
              exact ⟨by simpa using hmore, b, hb⟩
            · rw [if_neg hmore]
              refine ih ?_ (hdeliver b _ _ (by simp; omega) hhalt hs)
              intro n' got' h
              cases h

/-- What relates a consumer to the one after a delivery relates it to the one after any stream. -/
theorem consumer_run {r : σ → σ → Prop} (hrefl : ∀ c, r c c)
    (htrans : ∀ {a b c}, r a b → r b c → r a c) (hdeliver : ∀ payload c, r c (deliver payload c))
    (s : State α σ) (stream : List α) :
    r s.consumer (run size deliver halted s stream).consumer := by
  induction stream generalizing s with
  | nil => exact hrefl _
  | cons a stream ih =>
      refine htrans ?_ (ih (step size deliver halted s a))
      rw [step]
      split
      · exact hrefl _
      · split
        · split
          · exact hdeliver _ _
          · exact hrefl _
        · rw [collect]
          split
          · exact hrefl _
          · exact hdeliver _ _

end Deframer
