import CmcServer.Verification.ProtoDef.Accepted
import CmcServer.Verification.ProtoDef.Layout
import CmcServer.Verification.ProtoDef.Statements
import CmcServer.Verification.Varint.Correctness

/-! # Generated readers copy values

On the encoding of a value a generated reader moves behind it and copies the scalars of the value
into memory. -/

namespace CmcServer.ProtoDef

open Bytes EarlyReturn

/-! ## Natives -/

theorem twosComplement_emod {w : ℕ} {value : ℤ} (hlo : -(256 ^ w) ≤ 2 * value)
    (hhi : 2 * value < 256 ^ w) :
    twosComplement w ((value % 256 ^ w).toNat % 256 ^ w) = value := by
  have hpos : (0 : ℤ) < 256 ^ w := Int.pow_pos (by decide)
  have hcast : (((value % 256 ^ w).toNat % 256 ^ w : ℕ) : ℤ) = value % (256 ^ w : ℕ) := by
    push_cast
    rw [Int.toNat_of_nonneg (Int.emod_nonneg _ hpos.ne'), Int.emod_emod_of_dvd _ dvd_rfl]
  rw [twosComplement, hcast, Int.emod_bmod, Int.bmod_eq_of_le]
  · push_cast
    omega
  · push_cast
    omega

/-- What is written for a native of fixed size is read back. -/
theorem decode_encode {n : Native} (h : (Ty.native n).isVariable = false) {value : ℤ}
    (hvalue : n.InRange value) : n.decode (n.encode value) = value := by
  have hpos := native_size_pos h
  have hunsigned : ∀ w : ℕ, 0 ≤ value → value < 256 ^ w →
      ((value % 256 ^ w).toNat % 256 ^ w : ℕ) = value := by
    intro w hlo hhi
    rw [Int.emod_eq_of_lt hlo hhi, Nat.mod_eq_of_lt]
    · exact Int.toNat_of_nonneg hlo
    · have hnat : (value.toNat : ℤ) < (256 ^ w : ℕ) := by
        push_cast
        rwa [Int.toNat_of_nonneg hlo]
      exact_mod_cast hnat
  cases n with
  | u8 | u16 =>
      simp only [Native.decode, Native.encode, ofBe_be]
      exact hunsigned _ hvalue.1 hvalue.2
  | f32 | f64 | uuid =>
      simp only [Native.decode, Native.encode, List.reverse_reverse, ofBe_be]
      exact hunsigned _ hvalue.1 hvalue.2
  | i8 | i16 | i32 | i64 =>
      simp only [Native.decode, Native.encode, ofBe_be, length_be]
      exact twosComplement_emod hvalue.1 hvalue.2
  | bool =>
      rcases hvalue with rfl | rfl <;> rfl
  | varint | varlong | nbt => simp [Native.size] at hpos

/-! ## Copies -/

def copyAt (m : Loc → ℤ) (ls : List Loc) (mem : Loc → ℤ) (l : Loc) : ℤ :=
  if l ∈ ls then m l else mem l

section

variable {m mem : Loc → ℤ} {ls ls' : List Loc} {l : Loc}

theorem copyAt_of_mem (h : l ∈ ls) : copyAt m ls mem l = m l := if_pos h

theorem copyAt_of_not_mem (h : l ∉ ls) : copyAt m ls mem l = mem l := if_neg h

theorem copyAt_nil : copyAt m [] mem = mem := by
  funext l
  exact copyAt_of_not_mem List.not_mem_nil

theorem copyAt_append : copyAt m (ls ++ ls') mem = copyAt m ls' (copyAt m ls mem) := by
  funext l
  simp only [copyAt, List.mem_append]
  by_cases hls' : l ∈ ls'
  · rw [if_pos (Or.inr hls'), if_pos hls']
  · by_cases hls : l ∈ ls
    · rw [if_pos (Or.inl hls), if_neg hls', if_pos hls]
    · rw [if_neg (by simp [hls, hls']), if_neg hls', if_neg hls]

theorem copyAt_singleton : copyAt m [l] mem = Function.update mem l (m l) := by
  funext l'
  by_cases h : l' = l
  · rw [h, copyAt_of_mem (List.mem_singleton_self l), Function.update_self]
  · rw [copyAt_of_not_mem (by simpa using h), Function.update_of_ne h]

theorem copyAt_eq (h : mem l = m l) : copyAt m ls mem l = m l := by
  rw [copyAt]
  split
  · rfl
  · exact h

end

/-! ## Arena memory -/

section

variable (sizeof : Ty → ℕ) (m : Loc → ℤ)

mutual

/-- The arena memory that a reader takes for the value at a place. -/
def Ty.need : Ty → Spot → ℕ
  | .typedef _ base, p => base.need ⟨p.loc, []⟩
  | .container fields, p => fields.need p
  | .switch _ compareTo cases, p => cases.need (p.parent.sub compareTo).loc p
  | .array _ element, p =>
      countAt m p * sizeof element +
        ((List.range (countAt m p)).map fun j => element.need ((p.sub "elements").elem j)).sum
  | .rest element, p => countAt m p * sizeof element
  | .native _, _ | .void, _ | .bitfield _, _ | .option _, _ => 0

def Fields.need : Fields → Spot → ℕ
  | .nil, _ => 0
  | .cons name t fields, p => t.need (p.sub name) + fields.need p

def Cases.need : Cases → Loc → Spot → ℕ
  | .nil, _, _ => 0
  | .cons name t value cases, discriminant, p =>
      if value.holds m discriminant then t.need (p.sub name)
      else cases.need discriminant p

end

end

/-! ## Reading -/

section

variable {m : Loc → ℤ}

/-- `bytes` are in front, `paid` of them may be taken from the remaining size, the arena has room
for `need` more bytes and the memory at `ls` is zero. -/
structure Readable (bytes : List UInt8) (paid need : ℕ) (ls : List Loc) (s : Core) : Prop where
  bytes_at : At s.buffer s.data bytes
  paid_le : (paid : ℤ) ≤ s.size
  size_lt : s.size < 2 ^ 31
  need_le : s.arena.currentOffset + need ≤ s.arena.maxSize
  maxSize_lt : s.arena.maxSize < 2 ^ 64
  zero : ∀ l ∈ ls, s.mem l = 0

/-- `n` bytes were read into the scalars at `ls`. -/
structure Decoded (m : Loc → ℤ) (n paid need : ℕ) (ls : List Loc) (s s' : Core) : Prop where
  data : s'.data = s.data + n
  size : s'.size = s.size - paid
  buffer : s'.buffer = s.buffer
  arena : s'.arena = { s.arena with currentOffset := s.arena.currentOffset + need }
  mem : s'.mem = copyAt m ls s.mem

theorem Decoded.nil (s : Core) : Decoded m 0 0 0 [] s s :=
  ⟨rfl, by simp, rfl, rfl, copyAt_nil.symm⟩

theorem Decoded.append {n n' paid paid' need need' : ℕ} {ls ls' : List Loc} {s s' s'' : Core}
    (h : Decoded m n paid need ls s s') (h' : Decoded m n' paid' need' ls' s' s'') :
    Decoded m (n + n') (paid + paid') (need + need') (ls ++ ls') s s'' where
  data := by
    rw [h'.data, h.data, Nat.add_assoc]
  size := by
    rw [h'.size, h.size]
    push_cast
    omega
  buffer := h'.buffer.trans h.buffer
  arena := by
    rw [h'.arena, h.arena]
    simp only [Nat.add_assoc]
  mem := by
    rw [h'.mem, h.mem, copyAt_append]

section

variable {xs ys : List UInt8} {a b c d : ℕ} {ls ls' : List Loc} {s s' : Core}

theorem Readable.left (h : Readable (xs ++ ys) (a + b) (c + d) (ls ++ ls') s) :
    Readable xs a c ls s where
  bytes_at := (at_append.mp h.bytes_at).1
  paid_le := by
    have := h.paid_le
    push_cast at this
    omega
  size_lt := h.size_lt
  need_le := by
    have := h.need_le
    omega
  maxSize_lt := h.maxSize_lt
  zero := fun l hl => h.zero l (List.mem_append_left _ hl)

theorem Readable.right (h : Readable (xs ++ ys) (a + b) (c + d) (ls ++ ls') s)
    (hdecoded : Decoded m xs.length a c ls s s') (hdisjoint : ls.Disjoint ls') :
    Readable ys b d ls' s' where
  bytes_at := by
    rw [hdecoded.buffer, hdecoded.data]
    exact (at_append.mp h.bytes_at).2
  paid_le := by
    have := h.paid_le
    rw [hdecoded.size]
    push_cast at this
    omega
  size_lt := by
    have := h.size_lt
    rw [hdecoded.size]
    omega
  need_le := by
    have := h.need_le
    rw [hdecoded.arena]
    dsimp only
    omega
  maxSize_lt := by
    rw [hdecoded.arena]
    exact h.maxSize_lt
  zero := by
    intro l hl
    rw [hdecoded.mem, copyAt_of_not_mem fun hmem => hdisjoint hmem hl]
    exact h.zero l (List.mem_append_right _ hl)

end

/-- From `s` the statement reads `bytes` into the scalars at `ls`. -/
def Decodes (sizeof : Ty → ℕ) (m : Loc → ℤ) (c : Cmd) (env : Env) (s : Core)
    (bytes : List UInt8) (paid need : ℕ) (ls : List Loc) : Prop :=
  Readable bytes paid need ls s →
    FallsTo (exec sizeof c env) s (Decoded m bytes.length paid need ls s)

section

variable {sizeof : Ty → ℕ} {env : Env} {c d : Cmd} {s : Core} {xs ys : List UInt8}
  {a b na nb : ℕ} {ls ls' : List Loc}

theorem decodes_skip : Decodes sizeof m .skip env s [] 0 0 [] := fun _ => ⟨s, rfl, .nil s⟩

theorem Decodes.seq (hc : Decodes sizeof m c env s xs a na ls)
    (hd : ∀ s', Decoded m xs.length a na ls s s' → Decodes sizeof m d env s' ys b nb ls')
    (hdisjoint : ls.Disjoint ls') :
    Decodes sizeof m (.seq c d) env s (xs ++ ys) (a + b) (na + nb) (ls ++ ls') := by
  intro hs
  rcases hc hs.left with ⟨s₁, hs₁, hdecoded₁⟩
  rcases hd s₁ hdecoded₁ (hs.right hdecoded₁ hdisjoint) with ⟨s₂, hs₂, hdecoded₂⟩
  refine ⟨s₂, ?_, ?_⟩
  · rw [exec, hs₁, Outcome.next_bind, hs₂]
  · rw [List.length_append]
    exact hdecoded₁.append hdecoded₂

theorem Decodes.skip_seq (h : Decodes sizeof m c env s xs a na ls) :
    Decodes sizeof m (.seq .skip c) env s xs a na ls := by
  intro hs
  rw [exec_skip_seq]
  exact h hs

theorem Decodes.ite {test : Test} {t : Bool} (htest : test.holds env s = t)
    (hc : t = true → Decodes sizeof m c env s xs a na ls)
    (hd : t = false → Decodes sizeof m d env s xs a na ls) :
    Decodes sizeof m (.ite test c d) env s xs a na ls := by
  intro hs
  rw [FallsTo, exec, htest]
  cases t with
  | true => exact hc rfl hs
  | false => exact hd rfl hs

theorem decodes_subSize (n : ℕ) : Decodes sizeof m (.subSize n) env s [] n 0 [] := by
  intro hs
  have hle := hs.paid_le
  have hlt := hs.size_lt
  have hsize : toInt32 (s.size - n) = s.size - n := toInt32_of_range (by omega) (by omega)
  refine ⟨{ s with size := toInt32 (s.size - n) }, by rw [exec], ?_⟩
  exact ⟨rfl, hsize, rfl, rfl, copyAt_nil.symm⟩

/-- What is paid for at once is read afterwards. -/
theorem Decodes.pay {n : ℕ} (hc : ∀ s, Decodes sizeof m c env s xs 0 na ls) :
    Decodes sizeof m (.seq (.subSize n) c) env s xs n na ls := by
  have h := (decodes_subSize n).seq (fun s' (_ : Decoded m _ n 0 [] s s') => hc s')
    (List.disjoint_nil_left _)
  rwa [List.nil_append, List.nil_append, Nat.add_zero, Nat.zero_add] at h

theorem Decodes.assoc {e : Cmd} (h : Decodes sizeof m (.seq c (.seq d e)) env s xs a na ls) :
    Decodes sizeof m (.seq (.seq c d) e) env s xs a na ls := by
  intro hs
  rw [← exec_seq_assoc]
  exact h hs

theorem Decodes.check {n : ℤ} (hn : n ≤ a) (h : Decodes sizeof m c env s xs a na ls) :
    Decodes sizeof m (.seq (.checkSize n) c) env s xs a na ls := by
  intro hs
  have hle := hs.paid_le
  rw [FallsTo, exec, exec, if_neg (by omega), Outcome.next_bind]
  exact h hs

/-! ## Single natives -/

theorem decodes_fixed {n : Native} (h : (Ty.native n).isVariable = false) (place : LVal)
    (hvalue : n.InRange (m (place.loc env))) :
    Decodes sizeof m (.fixed .read n place) env s (n.encode (m (place.loc env))) 0 0
      [place.loc env] := by
  intro hs
  have hload := load_eq_of_at hs.bytes_at
  rw [length_encode_native] at hload
  refine ⟨readFixed n (place.loc env) s, by rw [exec], ?_⟩
  exact {
    data := by
      rw [length_encode_native]
      rfl
    size := by simp [readFixed]
    buffer := rfl
    arena := rfl
    mem := by
      rw [copyAt_singleton, readFixed, hload, decode_encode h hvalue]
      rfl }

theorem decodes_varint (place : LVal) (hvalue : Native.InRange .varint (m (place.loc env))) :
    Decodes sizeof m (.variable .read .varint place) env s
      (Base128.encode (m (place.loc env)).toNat)
      (Base128.encode (m (place.loc env)).toNat).length 0 [place.loc env] := by
  intro hs
  have hvalueNat : ((m (place.loc env)).toNat : ℤ) = m (place.loc env) :=
    Int.toNat_of_nonneg hvalue.1
  have hsmall : (m (place.loc env)).toNat < 2 ^ 31 := by
    have := hvalue.2
    omega
  have hle := hs.paid_le
  have hlt := hs.size_lt
  have hsizeNat : ((s.size.toNat : ℕ) : ℤ) = s.size := Int.toNat_of_nonneg (by omega)
  have hrest : At s.rest 0 (Base128.encode (m (place.loc env)).toNat) := by
    intro i hi
    rw [Core.rest, Nat.zero_add]
    exact hs.bytes_at i hi
  have hlen : (Base128.encode (m (place.loc env)).toNat).length ≤ s.size.toNat := by omega
  have hread := protocolReadVarint_encode hsmall hrest hlen
  rw [hsizeNat, hvalueNat] at hread
  have hzero : s.mem (place.loc env) = 0 := hs.zero _ (List.mem_singleton_self _)
  generalize Base128.encode (m (place.loc env)).toNat = bytes at hread hle
  have hsize : toInt32 (s.size - bytes.length) = s.size - bytes.length :=
    toInt32_of_range (by omega) (by omega)
  refine ⟨{ (s.touch bytes.length).assign (place.loc env) (m (place.loc env)) with
    data := s.data + bytes.length
    size := toInt32 (s.size - bytes.length) }, ?_, ?_⟩
  · rw [exec, readVariable, hzero, Native.read, hread]
    simp only [Core.assign_data, Core.assign_size, Core.touch_data, Core.touch_size]
    rw [if_neg (by omega), Int.toNat_natCast]
  · exact ⟨rfl, hsize, rfl, rfl, copyAt_singleton.symm⟩

end

end

end CmcServer.ProtoDef
