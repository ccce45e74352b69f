import CmcServer.Verification.ProtoDef.Decoding

/-! # Options

The generators of an option emit its flag, and the room check of the inner type when its size is
fixed. The code of the inner type is left out. -/

namespace CmcServer.ProtoDef

open Bytes EarlyReturn

/-! ## Types with code -/

mutual

/-- A void is only a case of a switch in the type. Elsewhere the methods of `ProtoDefVoid` raise an
exception, so there is no code. -/
def Ty.Emits : Ty → Prop
  | .native _ | .bitfield _ => True
  | .typedef _ base => base.Emits
  | .void => False
  | .container fields => fields.Emits
  | .switch _ _ cases => cases.Emits
  | .array count element => count.Emits ∧ element.Emits
  | .rest element => element.Emits
  | .option base => base.Emits

def Fields.Emits : Fields → Prop
  | .nil => True
  | .cons _ t fields => t.Emits ∧ fields.Emits

def Cases.Emits : Cases → Prop
  | .nil => True
  | .cons _ t _ cases => (t.isVoid = true ∨ t.Emits) ∧ cases.Emits

end

/-! ## The codec of an option -/

/-- `data` moved on by `n` bytes, and the remaining size says so. -/
structure InStep (n : ℕ) (s s' : Core) : Prop where
  data : s'.data = s.data + n
  size : s'.size = s.size - n

section

variable (sizeof : Ty → ℕ) (rnd : String → ℕ → ℕ) (nbt : Loc → List UInt8)
  (fn : String) (t : Ty) (place : LVal) (k : ℕ) (env : Env)

/-- Where there is room, the writer emits the flag and, if it is set, all of the inner value. What
is emitted behind the option goes on from there. -/
def WritesOption (s : Core) : Prop :=
  let bytes := (Ty.option t).encode nbt s.mem (place.spot env)
  bytes.length ≤ s.size → s.size < 2 ^ 31 →
    ∃ s', (∀ after, exec sizeof (.seq (genWriteCode rnd fn (.option t) place k) after) env s =
        exec sizeof after env s') ∧
      InStep bytes.length s s' ∧ s'.buffer = store s.buffer s.data bytes ∧ s'.mem = s.mem

/-- From the bytes of an option the reader gets its flag and, if it is set, all of the inner
value, into memory that holds `before`. What is emitted behind the option goes on from there. -/
def ReadsOption (before m : Loc → ℤ) : Prop :=
  let bytes := (Ty.option t).encode nbt m (place.spot env)
  ∀ s : Core, At s.buffer s.data bytes → bytes.length ≤ s.size → s.size < 2 ^ 31 →
    s.mem = before →
      ∃ s', (∀ after, exec sizeof (.seq (genReadCode rnd fn (.option t) place k) after) env s =
          exec sizeof after env s') ∧
        InStep bytes.length s s' ∧ ∀ l ∈ (Ty.option t).scalars m (place.spot env), s'.mem l = m l

end

/-! ## What is emitted -/

section

variable {sizeof : Ty → ℕ} {rnd : String → ℕ → ℕ} {nbt : Loc → List UInt8} {fn : String} {t : Ty}
  {place : LVal} {k : ℕ} {env : Env} {s : Core}

def afterFlagWritten (l : Loc) (s : Core) : Core :=
  writeFixed .u8 l { s with size := toInt32 (s.size - 1) }

def afterFlagRead (l : Loc) (s : Core) : Core :=
  readFixed .bool l { s with size := toInt32 (s.size - 1) }

theorem exec_option_write (hroom : 1 ≤ s.size) (after : Cmd) :
    exec sizeof (.seq (genWriteCode rnd fn (.option t) place k) after) env s =
      (if s.mem ((place.spot env).sub "present").loc ≠ 0 then
        exec sizeof (reserve t) env (afterFlagWritten ((place.spot env).sub "present").loc s)
      else .next (afterFlagWritten ((place.spot env).sub "present").loc s)).bind
        (exec sizeof after env) := by
  simp only [genWriteCode, genCode, exec, if_neg (not_lt.mpr hroom), Outcome.next_bind,
    Test.holds, loc_member, decide_eq_true_eq]
  rfl

theorem exec_option_read (hroom : 1 ≤ s.size) (after : Cmd) :
    exec sizeof (.seq (genReadCode rnd fn (.option t) place k) after) env s =
      (if (afterFlagRead ((place.spot env).sub "present").loc s).mem
          ((place.spot env).sub "present").loc ≠ 0 then
        exec sizeof (reserve t) env (afterFlagRead ((place.spot env).sub "present").loc s)
      else .next (afterFlagRead ((place.spot env).sub "present").loc s)).bind
        (exec sizeof after env) := by
  simp only [genReadCode, genCode, exec, if_neg (not_lt.mpr hroom), Outcome.next_bind,
    Test.holds, loc_member, decide_eq_true_eq]
  rfl

theorem exec_reserve {s' : Core} (h : exec sizeof (reserve t) env s = .next s') :
    s'.data = s.data ∧ s'.mem = s.mem := by
  rw [reserve] at h
  by_cases hvar : t.isVariable = true
  · rw [if_pos hvar] at h
    cases h
    exact ⟨rfl, rfl⟩
  · rw [if_neg hvar] at h
    simp only [exec] at h
    by_cases hsize : s.size < t.getSize
    · rw [if_pos hsize] at h
      cases h
    · rw [if_neg hsize] at h
      cases h
      exact ⟨rfl, rfl⟩

/-- The state behind an option is the one behind its flag, but for the remaining size. -/
theorem next_of_reserve {b : Prop} [Decidable b] {s' : Core}
    (h : (if b then exec sizeof (reserve t) env s else .next s).bind (exec sizeof .skip env) =
      .next s') : s'.data = s.data ∧ s'.mem = s.mem := by
  have hnext : (if b then exec sizeof (reserve t) env s else .next s) = .next s' := by
    cases ho : (if b then exec sizeof (reserve t) env s else .next s) with
    | next u =>
        rw [ho] at h
        exact h
    | ret u =>
        rw [ho] at h
        cases h
    | diverge =>
        rw [ho] at h
        cases h
  by_cases hb : b
  · rw [if_pos hb] at hnext
    exact exec_reserve hnext
  · rw [if_neg hb] at hnext
    cases hnext
    exact ⟨rfl, rfl⟩

end

/-! ## Which options are kept -/

section

variable (nbt : Loc → List UInt8) (before m : Loc → ℤ) (t : Ty) (p : Spot)

/-- The option is not set, or its value has no bytes and is there before anything is read. -/
def OptionKept : Prop :=
  m (p.sub "present").loc ≠ 0 →
    t.encode nbt m (p.sub "value") = [] ∧ ∀ l ∈ t.scalars m (p.sub "value"), before l = m l

theorem length_encode_option : ((Ty.option t).encode nbt m p).length =
    1 + if m (p.sub "present").loc = 0 then 0 else (t.encode nbt m (p.sub "value")).length := by
  have hflag := length_encode_native .u8 (m (p.sub "present").loc)
  rw [Ty.encode, List.length_append, hflag]
  split <;> rfl

variable {nbt before m t p}

/-- Only the flag of an option that is kept has bytes. -/
theorem OptionKept.encode (h : OptionKept nbt before m t p) :
    (Ty.option t).encode nbt m p = Native.u8.encode (m (p.sub "present").loc) := by
  rw [Ty.encode]
  by_cases hflag : m (p.sub "present").loc = 0
  · rw [if_pos hflag, List.append_nil]
  · rw [if_neg hflag, (h hflag).1, List.append_nil]

/-- A value without bytes has no room check. -/
theorem reserve_of_encode_nil (h : t.encode nbt m p = []) : reserve t = .skip := by
  rw [reserve, if_pos]
  by_contra hfixed
  have hlen := length_encode_fixed nbt m t (Bool.not_eq_true _ ▸ hfixed) p
  rw [h] at hlen
  have hsize : 0 < t.getSize := by
    by_contra hneg
    exact hfixed (decide_eq_true (not_lt.mp hneg))
  simp at hlen
  omega

theorem OptionKept.exec_reserve (h : OptionKept nbt before m t p) (sizeof : Ty → ℕ) (env : Env)
    (s : Core) :
    (if m (p.sub "present").loc ≠ 0 then exec sizeof (reserve t) env s else .next s) = .next s := by
  by_cases hflag : m (p.sub "present").loc = 0
  · rw [if_neg (not_not.mpr hflag)]
  · rw [if_pos hflag, reserve_of_encode_nil (h hflag).1]
    rfl

theorem present_ne {l : Loc} (hl : l ∈ t.scalars m (p.sub "value")) :
    l ≠ (p.sub "present").loc := by
  rintro rfl
  have hunder := t.scalars_under m (p.sub "value") _ hl
  rw [Spot.loc_sub, Spot.loc_sub, Loc.sub_of_ne (by decide), Loc.sub_of_ne (by decide)] at hunder
  have hsel := cons_suffix_unique hunder (List.suffix_refl (.field "present" :: p.loc))
  simp at hsel

end

section

variable {sizeof : Ty → ℕ} {rnd : String → ℕ → ℕ} {nbt : Loc → List UInt8} {fn : String} {t : Ty}
  {place : LVal} {k : ℕ} {env : Env} {before m : Loc → ℤ}

theorem OptionKept.writes {s : Core} (h : OptionKept nbt before s.mem t (place.spot env)) :
    WritesOption sizeof rnd nbt fn t place k env s := by
  intro hroom hsize
  generalize henc : (Ty.option t).encode nbt s.mem (place.spot env) = bytes at hroom ⊢
  have hbytes : bytes = Native.u8.encode (s.mem ((place.spot env).sub "present").loc) :=
    henc.symm.trans h.encode
  have hlen : bytes.length = 1 := by
    rw [hbytes]
    exact length_encode_native .u8 _
  have hleft : toInt32 (s.size - 1) = s.size - 1 := toInt32_of_range (by omega) (by omega)
  refine ⟨afterFlagWritten ((place.spot env).sub "present").loc s, ?_, ⟨?_, ?_⟩, ?_, rfl⟩
  · intro after
    rw [exec_option_write (by omega), h.exec_reserve]
    rfl
  · rw [hlen]
    rfl
  · rw [hlen]
    exact hleft
  · rw [hbytes]
    rfl

theorem OptionKept.reads (h : OptionKept nbt before m t (place.spot env))
    (hflag : m ((place.spot env).sub "present").loc = 0 ∨
      m ((place.spot env).sub "present").loc = 1) :
    ReadsOption sizeof rnd nbt fn t place k env before m := by
  intro s hat hroom hsize hbefore
  generalize henc : (Ty.option t).encode nbt m (place.spot env) = bytes at hat hroom ⊢
  have hbytes : bytes = Native.bool.encode (m ((place.spot env).sub "present").loc) := by
    rw [← henc, h.encode]
    rcases hflag with hflag | hflag <;> rw [hflag] <;> rfl
  have hlen : bytes.length = 1 := by
    rw [hbytes]
    exact length_encode_native .bool _
  have hleft : toInt32 (s.size - 1) = s.size - 1 := toInt32_of_range (by omega) (by omega)
  have hpresent : Native.bool.decode (load s.buffer s.data 1) =
      m ((place.spot env).sub "present").loc := by
    have hload := load_eq_of_at hat
    rw [hlen] at hload
    rw [hload, hbytes]
    exact decode_encode (n := .bool) rfl hflag
  have hmem : ∀ l, (afterFlagRead ((place.spot env).sub "present").loc s).mem l =
      if l = ((place.spot env).sub "present").loc then m l else s.mem l := by
    intro l
    by_cases hl : l = ((place.spot env).sub "present").loc
    · rw [if_pos hl, hl, ← hpresent]
      exact Function.update_self ..
    · rw [if_neg hl]
      exact Function.update_of_ne hl _ _
  refine ⟨afterFlagRead ((place.spot env).sub "present").loc s, ?_, ⟨?_, ?_⟩, ?_⟩
  · intro after
    rw [exec_option_read (by omega), hmem, if_pos rfl, h.exec_reserve]
    rfl
  · rw [hlen]
    rfl
  · rw [hlen]
    exact hleft
  · intro l hl
    rw [hmem]
    by_cases hpl : l = ((place.spot env).sub "present").loc
    · rw [if_pos hpl]
    · rw [if_neg hpl, hbefore]
      rw [Ty.scalars, List.mem_cons] at hl
      by_cases hset : m ((place.spot env).sub "present").loc = 0
      · rw [if_pos hset] at hl
        exact absurd hl (by simp [hpl])
      · rw [if_neg hset] at hl
        exact (h hset).2 l (hl.resolve_left hpl)

/-- An option is written and read back, at any place, into any memory and in front of anything,
exactly when it is not set or its value has no bytes and is there before. -/
theorem option_codec_iff (sizeof : Ty → ℕ) (rnd : String → ℕ → ℕ) (nbt : Loc → List UInt8)
    (fn : String) (t : Ty) (_hemits : t.Emits) (place : LVal) (k : ℕ) (env : Env)
    (before m : Loc → ℤ)
    (hflag : m ((place.spot env).sub "present").loc = 0 ∨
      m ((place.spot env).sub "present").loc = 1)
    (hlt : ((Ty.option t).encode nbt m (place.spot env)).length < 2 ^ 31) :
    (∀ s : Core, s.mem = m → WritesOption sizeof rnd nbt fn t place k env s) ∧
        ReadsOption sizeof rnd nbt fn t place k env before m ↔
      OptionKept nbt before m t (place.spot env) := by
  constructor
  · rintro ⟨hwrites, hreads⟩ hset
    have hlen := length_encode_option nbt m t (place.spot env)
    rw [if_neg hset] at hlen
    have hsize : (((Ty.option t).encode nbt m (place.spot env)).length : ℤ) < 2 ^ 31 := by
      exact_mod_cast hlt
    let s : Core := ⟨fun _ => 0, 0, ((Ty.option t).encode nbt m (place.spot env)).length,
      TickArena.initArena 0, m, 0, []⟩
    have hempty : t.encode nbt m ((place.spot env).sub "value") = [] := by
      obtain ⟨s', hafter, hstep, -⟩ := hwrites s rfl le_rfl hsize
      have hnext := hafter .skip
      rw [exec_option_write (by dsimp only [s]; omega)] at hnext
      have hdata := (next_of_reserve hnext).1
      have hmoved := hstep.data
      have hone : (afterFlagWritten ((place.spot env).sub "present").loc s).data = s.data + 1 := rfl
      rw [hdata, hone] at hmoved
      apply List.eq_nil_of_length_eq_zero
      dsimp only [s] at hmoved
      omega
    refine ⟨hempty, ?_⟩
    intro l hl
    let r : Core := ⟨ofList ((Ty.option t).encode nbt m (place.spot env)) fun _ => 0, 0,
      ((Ty.option t).encode nbt m (place.spot env)).length, TickArena.initArena 0, before, 0, []⟩
    obtain ⟨r', hafter, -, hmem⟩ := hreads r (at_ofList _ _) le_rfl hsize rfl
    have hnext := hafter .skip
    rw [exec_option_read (by dsimp only [r]; omega)] at hnext
    have hscalar : l ∈ (Ty.option t).scalars m (place.spot env) := by
      rw [Ty.scalars, if_neg hset]
      exact List.mem_cons_of_mem _ hl
    rw [← hmem l hscalar, (next_of_reserve hnext).2]
    exact (Function.update_of_ne (present_ne hl) _ _).symm
  · intro hkept
    refine ⟨?_, hkept.reads hflag⟩
    rintro s rfl
    exact hkept.writes

/-- An option that is not set, in an element of an array that held something else. -/
theorem option_codec_absent :
    (∀ s : Core, s.mem = (fun _ => 0) → WritesOption (fun _ => 1) (fun _ k => k) (fun _ => []) "p"
        (.native .varint) ⟨.packet, [.index 0, .arrow "elements"]⟩ 0 ⟨[], fun _ => 0⟩ s) ∧
      ReadsOption (fun _ => 1) (fun _ k => k) (fun _ => []) "p" (.native .varint)
        ⟨.packet, [.index 0, .arrow "elements"]⟩ 0 ⟨[], fun _ => 0⟩ (fun _ => 7) fun _ => 0 :=
  (option_codec_iff _ _ _ _ (.native .varint) trivial _ _ _ _ _ (Or.inl rfl) (by decide)).mpr
    fun hset => absurd rfl hset

/-- An option that is set to 1 is written without its value. -/
theorem option_drops_value : ¬ ∀ (sizeof : Ty → ℕ) (rnd : String → ℕ → ℕ)
    (nbt : Loc → List UInt8) (fn : String) (t : Ty), t.Emits →
    ∀ (place : LVal) (k : ℕ) (env : Env) (before m : Loc → ℤ),
      (Ty.option t).IsValue m (place.spot env) →
      ((Ty.option t).encode nbt m (place.spot env)).length < 2 ^ 31 →
        (∀ s : Core, s.mem = m → WritesOption sizeof rnd nbt fn t place k env s) ∧
          ReadsOption sizeof rnd nbt fn t place k env before m := by
  intro h
  have hcodec := h (fun _ => 1) (fun _ k => k) (fun _ => []) "p" (.native .u8) trivial
    ⟨.packet, []⟩ 0 ⟨[], fun _ => 0⟩ (fun _ => 0) (fun _ => 1)
    ⟨Or.inr rfl, fun _ => ⟨by decide, by decide⟩⟩ (by decide)
  obtain ⟨s', hafter, hstep, -⟩ := hcodec.1 ⟨fun _ => 0, 0, 2, TickArena.initArena 0, fun _ => 1, 0,
    []⟩ rfl (by decide) (by decide)
  cases hafter .skip
  exact absurd hstep.data (by decide)

end

end CmcServer.ProtoDef
