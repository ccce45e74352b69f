import CmcServer.Verification.ProtoDef.Places

/-! # Rules for the emitted statements -/

namespace CmcServer.ProtoDef

open EarlyReturn

/-! ## Sequences and loops -/

section

variable (sizeof : Ty → ℕ) (env : Env)

theorem exec_seq_assoc (c d e : Cmd) :
    exec sizeof (.seq c (.seq d e)) env = exec sizeof (.seq (.seq c d) e) env := by
  funext s
  simp only [exec]
  rw [Outcome.bind_assoc]

theorem exec_skip_seq (c : Cmd) : exec sizeof (.seq .skip c) env = exec sizeof c env := by
  funext s
  simp [exec]

theorem exec_seq_skip (c : Cmd) : exec sizeof (.seq c .skip) env = exec sizeof c env := by
  funext s
  rw [exec]
  cases exec sizeof c env s <;> rfl

theorem exec_seq_skip_seq (c d : Cmd) :
    exec sizeof (.seq c (.seq .skip d)) env = exec sizeof (.seq c d) env := by
  funext s
  simp [exec]

theorem exec_loop (i : ℕ) (length : Len) (body : Cmd) :
    exec sizeof (.loop i length body) env =
      loop (fun n s => (n : ℤ) < length.value (env.bind i n) s)
        (fun n => exec sizeof body (env.bind i n)) loopFuel 0 := by
  funext s
  rw [exec]

end

/-- The value of a length has at most 64 bits, so no loop runs out of fuel. -/
theorem lt_loopFuel : 2 ^ 63 - 1 < loopFuel + 0 := by
  rw [loopFuel]
  omega

/-! ## Lengths -/

theorem Len.value_lt (length : Len) (env : Env) (s : Core) : length.value env s < 2 ^ 63 := by
  rw [Len.value]
  split
  · exact (toInt64_bounds _).2
  · have := (toInt32_bounds (s.mem (length.place.loc env))).2
    omega

theorem Len.value_congr {length : Len} {env env' : Env} {s s' : Core}
    (hloc : length.place.loc env' = length.place.loc env)
    (hmem : s'.mem (length.place.loc env) = s.mem (length.place.loc env)) :
    length.value env' s' = length.value env s := by
  rw [Len.value, Len.value, hloc, hmem]

theorem Len.product_of_range {length : Len} {env : Env} {s : Core} {n : ℤ}
    (hlo : 0 ≤ length.value env s * n) (hhi : length.value env s * n < 2 ^ 31) :
    length.product env s n = length.value env s * n := by
  rw [Len.product]
  split
  · exact toInt64_of_range (by omega) (by omega)
  · exact toInt32_of_range (by omega) (by omega)

/-! ## What only grows -/

namespace Core

/-- No access and no count is forgotten, and what was not accessed keeps its contents. -/
structure Grows (s s' : Core) : Prop where
  touched : s.touched ≤ s'.touched
  counts : s.counts <:+ s'.counts
  kept : ∀ i, s'.touched ≤ i → s'.buffer i = s.buffer i

theorem Grows.refl (s : Core) : s.Grows s := ⟨le_refl _, List.suffix_refl _, fun _ _ => rfl⟩

theorem touch_le (s : Core) (n : ℕ) : (s.touch n).touched ≤ max s.touched (s.data + n) := by
  rw [touch_touched]
  split <;> omega

theorem le_touch (s : Core) (n : ℕ) : s.touched ≤ (s.touch n).touched := by
  rw [touch_touched]
  split <;> omega

theorem Grows.read {s₀ s s' : Core} (h : Grows s₀ s) (n : ℕ)
    (htouched : s'.touched = (s.touch n).touched) (hcounts : s'.counts = s.counts)
    (hbuffer : s'.buffer = s.buffer) : Grows s₀ s' where
  touched := by
    rw [htouched]
    exact h.touched.trans (s.le_touch n)
  counts := by
    rw [hcounts]
    exact h.counts
  kept := by
    intro i hi
    rw [hbuffer]
    apply h.kept
    rw [htouched] at hi
    exact (s.le_touch n).trans hi

theorem Grows.write {s₀ s s' : Core} (h : Grows s₀ s) (bytes : List UInt8)
    (htouched : s'.touched = (s.touch bytes.length).touched) (hcounts : s'.counts = s.counts)
    (hbuffer : s'.buffer = Bytes.store s.buffer s.data bytes) : Grows s₀ s' where
  touched := by
    rw [htouched]
    exact h.touched.trans (s.le_touch _)
  counts := by
    rw [hcounts]
    exact h.counts
  kept := by
    intro i hi
    rw [htouched] at hi
    have hbefore := h.kept i ((s.le_touch _).trans hi)
    rw [hbuffer, Bytes.store, if_neg, hbefore]
    rintro ⟨hlo, hhi⟩
    rw [touch_touched, if_neg (by omega)] at hi
    have := le_max_right s.touched (s.data + bytes.length)
    omega

end Core

theorem finish_all {Q : Core → Prop} {size ret : ℤ} {o : Outcome Core} {s : Core} (h : o.All Q)
    (hs : finish size o = some (ret, s)) : Q s := by
  cases o with
  | next s' =>
      cases hs
      exact h
  | ret s' =>
      cases hs
      exact h
  | diverge => cases hs

/-- The statements that have no statements in them. -/
def Cmd.IsAtom : Cmd → Prop
  | .seq .. | .ite .. | .loop .. | .call .. | .callFixed .. => False
  | _ => True

/-- What the statements without statements in them preserve, and the return from a call, every
statement preserves. -/
theorem exec_all {sizeof : Ty → ℕ} {Q : Core → Prop}
    (hatom : ∀ c env s, Cmd.IsAtom c → Q s → (exec sizeof c env s).All Q)
    (hresume : ∀ caller s ret, Q caller → Q s → (resume caller (some (ret, s))).All Q)
    (hresumeFixed : ∀ caller s n, Q caller → Q s → (resumeFixed caller n (.next s)).All Q)
    (c : Cmd) (env : Env) {s : Core} (hs : Q s) : (exec sizeof c env s).All Q := by
  induction c generalizing env s with
  | seq c d ihc ihd => exact (ihc env hs).bind fun s' hs' => ihd env hs'
  | ite test c d ihc ihd =>
      rw [exec]
      split
      · exact ihc env hs
      · exact ihd env hs
  | loop i length body ih =>
      exact all_loop (fun n s' hs' => ih (env.bind i n) hs') _ _ hs
  | call body place ih =>
      rw [exec]
      cases hfinish : finish s.size (exec sizeof body ⟨place.loc env, fun _ => 0⟩ s) with
      | none => trivial
      | some result => exact hresume s result.2 result.1 hs (finish_all (ih _ hs) hfinish)
  | callFixed body place n ih =>
      have hbody := ih ⟨place.loc env, fun _ => 0⟩ hs
      rw [exec]
      revert hbody
      cases exec sizeof body ⟨place.loc env, fun _ => 0⟩ s with
      | next s' => exact hresumeFixed s s' n hs
      | ret s' => exact id
      | diverge => exact id
  | _ => exact hatom _ env s trivial hs

theorem exec_grows_atom {sizeof : Ty → ℕ} {s₀ : Core} {c : Cmd} (hatom : c.IsAtom) (env : Env)
    {s : Core} (hs : s₀.Grows s) : (exec sizeof c env s).All s₀.Grows := by
  cases c with
  | skip => exact hs
  | fail => exact hs
  | checkSize n =>
      rw [exec]
      split <;> exact hs
  | subSize n => exact ⟨hs.touched, hs.counts, hs.kept⟩
  | checkCount length n =>
      rw [exec]
      split
      · exact hs
      · exact ⟨hs.touched, hs.counts.trans (List.suffix_cons (length.value env s, n) s.counts),
          hs.kept⟩
  | subCount length n => exact ⟨hs.touched, hs.counts, hs.kept⟩
  | setRest length => exact ⟨hs.touched, hs.counts, hs.kept⟩
  | alloc length element =>
      rw [exec]
      split
      · exact hs
      · exact ⟨hs.touched, hs.counts, hs.kept⟩
  | fixed dir n place =>
      cases dir with
      | read => exact hs.read n.size.toNat rfl rfl rfl
      | write => exact hs.write (n.encode (s.mem (place.loc env))) rfl rfl rfl
  | bits dir fields place =>
      cases dir with
      | read => exact hs.read (bitsSize fields) rfl rfl rfl
      | write =>
          exact hs.write (Bytes.be (bitsSize fields)
            (pack (bitsSize fields) (place.loc env) s.mem fields 0 0)) rfl rfl rfl
  | «variable» dir n place =>
      cases dir with
      | read =>
          rw [exec, readVariable]
          split <;> exact hs.read (n.read s (s.mem (place.loc env))).inspected rfl rfl rfl
      | write =>
          rw [exec, writeVariable]
          split
          · exact hs
          · split
            · trivial
            · rename_i bytes _
              exact hs.write bytes rfl rfl rfl
  | _ => exact hatom.elim

theorem exec_grows (sizeof : Ty → ℕ) (s₀ : Core) (c : Cmd) (env : Env) {s : Core}
    (hs : s₀.Grows s) : (exec sizeof c env s).All s₀.Grows := by
  refine exec_all ?_ ?_ ?_ c env hs
  · intro c env s hatom hs
    exact exec_grows_atom hatom env hs
  · intro caller s ret _ hs
    rw [resume]
    split <;> exact ⟨hs.touched, hs.counts, hs.kept⟩
  · intro caller s n _ hs
    exact ⟨hs.touched, hs.counts, hs.kept⟩

end CmcServer.ProtoDef
