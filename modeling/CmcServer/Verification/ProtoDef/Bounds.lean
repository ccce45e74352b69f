import CmcServer.Model.Packets
import CmcServer.Verification.ProtoDef.Scan
import CmcServer.Verification.Varint.Correctness

/-! # Generated readers and the end of the buffer

Readers stay inside their buffer as long as no array count makes the room check wrong. -/

namespace CmcServer.ProtoDef

open EarlyReturn

/-! ## Statements one at a time -/

section

variable {sizeof : Ty → ℕ} {env : Env} {P Q Q' R : Core → Prop} {c d : Cmd}

theorem triple_skip (h : ∀ s, P s → Q s) : Triple P (exec sizeof .skip env) Q R := h

theorem triple_seq (hc : Triple P (exec sizeof c env) Q R)
    (hd : Triple Q (exec sizeof d env) Q' R) : Triple P (exec sizeof (.seq c d) env) Q' R :=
  hc.seq hd

/-- Two statements in front of a third, taken together. -/
theorem triple_seq_pair {e : Cmd} (hcd : Triple P (exec sizeof (.seq c d) env) Q R)
    (he : Triple Q (exec sizeof e env) Q' R) :
    Triple P (exec sizeof (.seq c (.seq d e)) env) Q' R := by
  rw [exec_seq_assoc]
  exact triple_seq hcd he

theorem triple_ite {test : Test} (hc : Triple P (exec sizeof c env) Q R)
    (hd : Triple P (exec sizeof d env) Q R) : Triple P (exec sizeof (.ite test c d) env) Q R := by
  intro s hs
  simp only [exec]
  split
  · exact hc s hs
  · exact hd s hs

end

/-! ## Types of fixed size -/

/-- A statement that reads `n` bytes at once into the place `l`. -/
structure FixedRead (n : ℕ) (l : Loc) (s s' : Core) : Prop where
  data : s'.data = s.data + n
  size : s'.size = s.size
  counts : s'.counts = s.counts
  touched : s'.touched = (s.touch n).touched
  mem : ∀ p, ¬ l <:+ p → s'.mem p = s.mem p

theorem unpack_of_not_suffix {l p : Loc} (h : ¬ l <:+ p) (packed : ℕ) (fields : List BitField)
    (offset : ℕ) (mem : Loc → ℤ) : unpack l packed fields offset mem p = mem p := by
  induction fields generalizing offset mem with
  | nil => rfl
  | cons field fields ih =>
      have hne : p ≠ l.sub field.name := by
        rintro rfl
        exact h (l.suffix_sub field.name)
      rw [unpack, ih, Function.update_of_ne hne]

/-- The code of a type of fixed size reads all of it, without a check. -/
theorem exec_fixed_read (sizeof : Ty → ℕ) (rnd : String → ℕ → ℕ) (t : Ty) (fn : String)
    (h : t.isVariable = false) (place : LVal) (k : ℕ) (env : Env) (s : Core) :
    ∃ s', exec sizeof (genCode .read rnd fn t place k) env s = .next s' ∧
      FixedRead t.getSize.toNat (place.loc env) s s' := by
  induction t, h using Ty.fixed_induction generalizing fn place k env with
  | native n h =>
      refine ⟨readFixed n (place.loc env) s, ?_, ?_⟩
      · rw [genCode_native_fixed _ _ _ _ _ h]
        rfl
      · exact {
          data := rfl
          size := rfl
          counts := rfl
          touched := rfl
          mem := by
            intro p hp
            refine Function.update_of_ne ?_ _ _
            rintro rfl
            exact hp (List.suffix_refl _) }
  | typedef name base hbase h ih =>
      rcases ih name (fixedSourceOf .read base) 0 ⟨place.loc env, fun _ => 0⟩ with
        ⟨s', hs', hread⟩
      refine ⟨{ s' with data := s.data + base.getSize.toNat, size := s.size }, ?_, ?_⟩
      · rw [genCode_typedef_fixed _ _ _ _ _ _ hbase, exec, hs']
        rfl
      · exact {
          data := rfl
          size := rfl
          counts := hread.counts
          touched := hread.touched
          mem := hread.mem }
  | bitfield fields h =>
      have hne := bitfield_ne_nil h
      rw [bitfield_getSize hne, Int.toNat_natCast]
      refine ⟨readBits fields (place.loc env) s, rfl, ?_⟩
      exact {
        data := rfl
        size := rfl
        counts := rfl
        touched := rfl
        mem := fun p hp => unpack_of_not_suffix hp _ _ _ _ }

/-! ## The invariant -/

/-- Every count that a room check let pass is non-negative, and its elements take a number of
bytes that is an `int`. -/
def CountsOk (counts : List (ℤ × ℤ)) : Prop := ∀ c ∈ counts, 0 ≤ c.1 ∧ c.1 * c.2 < 2 ^ 31

/-- With `reserved` bytes paid for, the rest of the buffer is at `data` and has `size` bytes. -/
def Room (total : ℕ) (reserved : ℤ) (s : Core) : Prop :=
  CountsOk s.counts → 0 ≤ s.size ∧ s.data + s.size + reserved ≤ total ∧ s.touched ≤ total

/-- Nothing past the end was read. -/
def Safe (total : ℕ) (s : Core) : Prop := CountsOk s.counts → s.touched ≤ total

theorem FixedRead.countsOk {n : ℕ} {l : Loc} {s s' : Core} (h : FixedRead n l s s')
    (hok : CountsOk s'.counts) : CountsOk s.counts := by
  rwa [h.counts] at hok

theorem FixedRead.touched_le {n : ℕ} {l : Loc} {s s' : Core} (h : FixedRead n l s s') :
    s'.touched ≤ max s.touched (s.data + n) := h.touched.trans_le (s.touch_le n)

/-- Up to `n` bytes that were paid for, a read stays where it was. -/
theorem FixedRead.inside {n : ℤ} {l : Loc} {s s' : Core} (hread : FixedRead n.toNat l s s')
    (hpos : 0 < n) {total : ℕ} {low high : ℤ} (hfits : high - low + n ≤ total)
    (h : CountsOk s.counts → low ≤ s.size ∧ s.data + s.size ≤ high ∧ s.touched ≤ total)
    (hok : CountsOk s'.counts) :
    low ≤ s'.size ∧ s'.data + s'.size ≤ high + n ∧ s'.touched ≤ total := by
  rcases h (hread.countsOk hok) with ⟨hsize, hroom, hsafe⟩
  have htouched := hread.touched_le
  rw [hread.size, hread.data]
  exact ⟨hsize, by omega, by omega⟩

theorem Room.safe {total : ℕ} {reserved : ℤ} {s : Core} (h : Room total reserved s) :
    Safe total s :=
  fun hok => (h hok).2.2

section

variable {total : ℕ} {sizeof : Ty → ℕ} {rnd : String → ℕ → ℕ} {env : Env}

theorem CountsOk.of_suffix {counts counts' : List (ℤ × ℤ)} (h : CountsOk counts')
    (hsuffix : counts <:+ counts') : CountsOk counts :=
  fun c hc => h c (hsuffix.subset hc)

theorem native_read_inspected (n : Native) (s : Core) (value : ℤ) :
    ((n.read s value).ret = -1 ∨ (n.read s value).ret = (n.read s value).inspected) ∧
      (n.read s value).inspected ≤ s.size.toNat := by
  cases n with
  | varint =>
      simpa [Native.read, protocolReadVarint] using
        readLoop_inspected orGroup 32 s.rest s.size.toNat 0 0 value
  | varlong =>
      simpa [Native.read, protocolReadVarlong] using
        readLoop_inspected orGroupLong 64 s.rest s.size.toNat 0 0 value
  | _ => exact ⟨Or.inl rfl, Nat.zero_le _⟩

/-- A native of variable size reads inside the remaining size. -/
theorem room_readVariable (htotal : total < 2 ^ 31) (n : Native) (l : Loc) :
    Triple (Room total 0) (readVariable n l) (Room total 0) (Safe total) := by
  intro s hs
  rcases native_read_inspected n s (s.mem l) with ⟨hret, hle⟩
  have htouched := s.touch_le (n.read s (s.mem l)).inspected
  rw [readVariable]
  split
  · intro hok
    rcases hs hok with ⟨hsize, hroom, hsafe⟩
    rw [Core.assign_touched]
    omega
  · rename_i hnonneg
    intro hok
    rcases hs hok with ⟨hsize, hroom, hsafe⟩
    have hinspected : (n.read s (s.mem l)).ret = (n.read s (s.mem l)).inspected := by
      rcases hret with hret | hret
      · omega
      · exact hret
    have hnext : toInt32 (s.size - (n.read s (s.mem l)).ret) =
        s.size - (n.read s (s.mem l)).ret := toInt32_of_range (by omega) (by omega)
    simp only [Core.assign_size, Core.assign_data, Core.assign_touched, Core.touch_size,
      Core.touch_data, hnext]
    push_cast
    omega

/-- The room check of a type of fixed size pays for it. -/
theorem room_reserve (htotal : total < 2 ^ 31) {t : Ty} (h : t.isVariable = false) :
    Triple (Room total 0) (exec sizeof (reserve t) env) (Room total t.getSize) (Safe total) := by
  have hpos := Ty.getSize_pos h
  intro s hs
  rw [reserve_fixed h]
  simp only [exec]
  split
  · exact hs.safe
  · rename_i hfits
    intro hok
    rcases hs hok with ⟨hsize, hroom, hsafe⟩
    have hnext : toInt32 (s.size - t.getSize) = s.size - t.getSize :=
      toInt32_of_range (by omega) (by omega)
    simp only [hnext]
    omega

/-- The code of a type of fixed size uses what was paid for. -/
theorem room_fixed {t : Ty} (h : t.isVariable = false) (fn : String) (place : LVal) (k : ℕ) :
    Triple (Room total t.getSize) (exec sizeof (genCode .read rnd fn t place k) env)
      (Room total 0) (Safe total) := by
  intro s hs
  rcases exec_fixed_read sizeof rnd t fn h place k env s with ⟨s', hs', hread⟩
  rw [hs']
  intro hok
  have hpaid : CountsOk s.counts → 0 ≤ s.size ∧ s.data + s.size ≤ total - t.getSize ∧
      s.touched ≤ total := by
    intro hok
    rcases hs hok with ⟨hsize, hroom, hsafe⟩
    exact ⟨hsize, by omega, hsafe⟩
  have hroom := hread.inside (Ty.getSize_pos h) (by omega) hpaid hok
  omega

/-! ## Arrays -/

/-- The elements from `j` on, of `n` bytes each, are paid for. -/
def ElementRoom (total : ℕ) (env : Env) (length : Len) (n : ℤ) (j : ℕ) (s : Core) : Prop :=
  CountsOk s.counts → (j : ℤ) ≤ length.value env s ∧ 0 ≤ s.size ∧
    s.data + s.size + (length.value env s - j) * n ≤ total ∧ s.touched ≤ total

/-- The room check of the elements pays for them. -/
theorem room_reserveElements (htotal : total < 2 ^ 31) {t : Ty} (h : t.isVariable = false)
    (length : Len) :
    Triple (Room total 0) (exec sizeof (reserveElements length t) env)
      (ElementRoom total env length t.getSize 0) (Safe total) := by
  have hpos := Ty.getSize_pos h
  intro s hs
  rw [reserveElements_fixed length h]
  simp only [exec]
  have hbefore : CountsOk ((length.value env s, t.getSize) :: s.counts) →
      (0 ≤ length.value env s ∧ length.value env s * t.getSize < 2 ^ 31) ∧
        CountsOk s.counts := by
    intro hok
    exact ⟨hok _ List.mem_cons_self, fun c hc => hok c (List.mem_cons_of_mem _ hc)⟩
  split
  · exact hs.safe
  · rename_i hfits
    intro hok
    rcases hbefore hok with ⟨⟨hnonneg, hlt⟩, hok⟩
    rcases hs hok with ⟨hsize, hroom, hsafe⟩
    have hmul : 0 ≤ length.value env s * t.getSize := Int.mul_nonneg hnonneg hpos.le
    have hproduct := Len.product_of_range hmul hlt
    have hproduct' : length.product env
        { s with counts := (length.value env s, t.getSize) :: s.counts } t.getSize =
          length.value env s * t.getSize := hproduct
    rw [hproduct] at hfits
    have hnext : toInt32 (s.size - length.value env s * t.getSize) =
        s.size - length.value env s * t.getSize := toInt32_of_range (by omega) (by omega)
    have hvalue : length.value env
        { s with
          size := s.size - length.value env s * t.getSize
          counts := (length.value env s, t.getSize) :: s.counts } = length.value env s := rfl
    simp only [hproduct', hnext, hvalue]
    refine ⟨hnonneg, by omega, ?_, hsafe⟩
    simp only [Nat.cast_zero, sub_zero]
    omega

theorem triple_alloc {P R : Core → Prop} (hP : ∀ s arena, P s → P { s with arena })
    (hR : ∀ s, P s → R s) (length : Len) (t : Ty) :
    Triple P (exec sizeof (.alloc length t) env) P R := by
  intro s hs
  simp only [exec]
  split
  · exact hR s hs
  · exact hP s _ hs

/-- The rule for loops. The value of a length has at most 64 bits, so every loop ends. -/
theorem triple_loop {I : ℕ → Core → Prop} {R : Core → Prop} {i : ℕ} {length : Len} {body : Cmd}
    (hbody : ∀ n : ℕ, Triple (fun s => I n s ∧ (n : ℤ) < length.value (env.bind i n) s)
      (exec sizeof body (env.bind i n)) (I (n + 1)) R) :
    Triple (I 0) (exec sizeof (.loop i length body) env)
      (fun s => ∃ n : ℕ, I n s ∧ length.value (env.bind i n) s ≤ n) R := by
  have hbound : ∀ (n : ℕ) (s : Core), I n s →
      decide ((n : ℤ) < length.value (env.bind i n) s) = true → n < 2 ^ 63 - 1 := by
    intro n s _ hmore
    have hlt := length.value_lt (env.bind i n) s
    have := of_decide_eq_true hmore
    omega
  have hloop := Triple.loop hbound (fun n => (hbody n).mono
    (fun s hs => ⟨hs.1, of_decide_eq_true hs.2⟩) (fun s hs => hs))
    lt_loopFuel (Nat.zero_le _)
  rw [exec_loop]
  refine Triple.mono hloop (fun s hs => hs) ?_
  rintro s ⟨n, hn, hmore⟩
  exact ⟨n, hn, Int.not_lt.mp (of_decide_eq_false hmore)⟩

theorem element_not_suffix_length (l : Loc) (value : ℤ) :
    ¬ (.index value :: l.sub "elements") <:+ l.sub "length" := by
  intro h
  have hlen := h.length_le
  simp [Loc.sub] at hlen

/-- The loop over elements of fixed size uses what was paid for. -/
theorem room_fixedLoop {t : Ty} (h : t.isVariable = false) (fn : String) {place : LVal}
    {used : List ℕ} (huses : place.Uses used) {i : ℕ} (hfresh : i ∉ used) (wide : Bool) (k : ℕ) :
    Triple (ElementRoom total env ⟨accessField place "length", wide⟩ t.getSize 0)
      (exec sizeof (.loop i ⟨accessField place "length", wide⟩
        (genCode .read rnd fn t ((accessField place "elements").at i) k)) env)
      (Room total 0) (Safe total) := by
  set length : Len := ⟨accessField place "length", wide⟩ with hlength
  have hloc : ∀ n : ℤ, length.place.loc (env.bind i n) = length.place.loc env :=
    fun n => LVal.loc_bind (huses.accessField _) hfresh env n
  have hvalue : ∀ (n : ℤ) (s : Core), length.value (env.bind i n) s = length.value env s :=
    fun n s => Len.value_congr (hloc n) rfl
  refine Triple.mono (triple_loop (I := ElementRoom total env length t.getSize) ?_)
    (fun s hs => hs) ?_
  · rintro n s ⟨hs, hmore⟩
    rw [hvalue] at hmore
    rcases exec_fixed_read sizeof rnd t fn h ((accessField place "elements").at i) k
      (env.bind i n) s with ⟨s', hs', hread⟩
    have hpos := Ty.getSize_pos h
    rw [hs']
    intro hok
    have hmem : s'.mem (length.place.loc env) = s.mem (length.place.loc env) := by
      apply hread.mem
      rw [hlength, loc_at, loc_accessField, loc_accessField, LVal.loc_bind huses hfresh]
      exact element_not_suffix_length _ _
    have hsame : length.value env s' = length.value env s := Len.value_congr rfl hmem
    rcases hs (hread.countsOk hok) with ⟨hle, hsize, hroom, hsafe⟩
    have htouched := hread.touched_le
    rw [hsame, hread.size, hread.data]
    have hstep : (length.value env s - n) * t.getSize =
        (length.value env s - (n + 1 : ℕ)) * t.getSize + t.getSize := by
      push_cast
      ring
    have hrest : 0 ≤ (length.value env s - (n + 1 : ℕ)) * t.getSize :=
      Int.mul_nonneg (by push_cast; omega) hpos.le
    refine ⟨by push_cast; omega, hsize, ?_, ?_⟩
    · push_cast at hstep hrest ⊢
      omega
    · omega
  · rintro s ⟨n, hs, hdone⟩ hok
    rw [hvalue] at hdone
    rcases hs hok with ⟨hle, hsize, hroom, hsafe⟩
    have heq : length.value env s - n = 0 := by omega
    rw [heq, zero_mul] at hroom
    exact ⟨hsize, hroom, hsafe⟩

/-- A rest buffer pays for a quarter of what is left, and takes that many bytes. -/
theorem room_setRest (htotal : total < 2 ^ 31) (place : LVal) :
    Triple (Room total 0) (exec sizeof (.setRest place) env)
      (ElementRoom total env ⟨place, false⟩ 1 0) (Safe total) := by
  intro s hs hok
  rcases hs hok with ⟨hsize, hroom, hsafe⟩
  have hquarter : toSize s.size = s.size.toNat := toSize_of_nonneg hsize (by omega)
  have hvalue : toInt32 (toSize s.size / 4 : ℕ) = (s.size.toNat / 4 : ℕ) := by
    rw [hquarter]
    exact toInt32_of_range (by omega) (by omega)
  have hnext : toInt32 (s.size - (s.size.toNat / 4 : ℕ)) = s.size - (s.size.toNat / 4 : ℕ) :=
    toInt32_of_range (by omega) (by omega)
  have hlength : toInt32 (s.size.toNat / 4 : ℕ) = (s.size.toNat / 4 : ℕ) :=
    toInt32_of_range (by omega) (by omega)
  simp only [Len.value, Core.assign_mem, Core.assign_data, Core.assign_touched,
    Function.update_self, hvalue, hnext, hlength, if_false, Bool.false_eq_true]
  omega

end

/-! ## All types -/

mutual

/-- The trees that `generate_type` makes: the only array without a count type is a buffer of
bytes, and a bitfield has fields. -/
def Ty.Built : Ty → Prop
  | .native _ => True
  | .typedef _ base => base.Built
  | .void => True
  | .container fields => fields.Built
  | .switch _ _ cases => cases.Built
  | .array count element => count.Built ∧ element.Built
  | .rest element => element = .native .u8
  | .bitfield fields => fields ≠ []
  | .option base => base.Built

def Fields.Built : Fields → Prop
  | .nil => True
  | .cons _ t fields => t.Built ∧ fields.Built

def Cases.Built : Cases → Prop
  | .nil => True
  | .cons _ t _ cases => t.Built ∧ cases.Built

end

section

variable {total : ℕ} (htotal : total < 2 ^ 31) (sizeof : Ty → ℕ) (rnd : String → ℕ → ℕ)

include htotal

/-- The function of a typedef keeps the room of its caller. -/
theorem room_call {body : Cmd} {place : LVal} {env : Env}
    (hbody : Triple (Room total 0) (exec sizeof body ⟨place.loc env, fun _ => 0⟩) (Room total 0)
      (Safe total)) :
    Triple (Room total 0) (exec sizeof (.call body place) env) (Room total 0) (Safe total) := by
  intro s hs
  have hends := hbody s hs
  have hgrows := exec_grows sizeof s body ⟨place.loc env, fun _ => 0⟩ (.refl s)
  rw [exec]
  revert hends hgrows
  cases exec sizeof body ⟨place.loc env, fun _ => 0⟩ s with
  | next s' =>
      intro hends hgrows
      rw [finish, resume]
      split
      · exact hends.safe
      · rename_i hret
        intro hok
        rcases hs (hok.of_suffix hgrows.counts) with ⟨hsize, hroom, hsafe⟩
        rcases hends hok with ⟨hsize', hroom', hsafe'⟩
        have hdiff : toInt32 (s.size - s'.size) = s.size - s'.size :=
          toInt32_of_range (by omega) (by omega)
        have hnext : toInt32 (s.size - (s.size - s'.size)) = s'.size := by
          rw [Int.sub_sub_self]
          exact toInt32_of_range (by omega) (by omega)
        rw [hdiff] at hret ⊢
        simp only [hnext]
        push_cast
        omega
  | ret s' =>
      intro hends _
      exact hends
  | diverge =>
      intro hends
      exact hends.elim

theorem room_reserved {t : Ty} {fn : String} {place : LVal} {k : ℕ} {env : Env}
    (hvariable : t.isVariable = true → Triple (Room total 0)
      (exec sizeof (genCode .read rnd fn t place k) env) (Room total 0) (Safe total)) :
    Triple (Room total 0) (exec sizeof (.seq (reserve t) (genCode .read rnd fn t place k)) env)
      (Room total 0) (Safe total) := by
  cases h : t.isVariable with
  | true =>
      rw [reserve_variable h]
      exact triple_seq (triple_skip fun s hs => hs) (hvariable h)
  | false =>
      exact triple_seq (room_reserve htotal h) (room_fixed h fn place k)

/-- In a run of fixed fields that was checked, `consumed` of its `checked` bytes were read. -/
def RunRoom (total : ℕ) (checked consumed : ℤ) (s : Core) : Prop :=
  CountsOk s.counts → checked ≤ s.size ∧ s.data + s.size ≤ total + consumed ∧ s.touched ≤ total

omit htotal in
theorem fixedTotal_nonneg (fields : Fields) : 0 ≤ fields.fixedTotal := by
  cases fields with
  | nil => exact le_refl 0
  | cons name t fields =>
      have hrest := fixedTotal_nonneg fields
      rw [Fields.fixedTotal]
      cases h : t.isVariable with
      | true => simp
      | false =>
          rw [Ty.isVariable, isVariableSize, decide_eq_false_iff_not] at h
          simp only [Bool.false_eq_true, if_false]
          omega

omit htotal in
theorem Room.mono {reserved : ℤ} (h : 0 ≤ reserved) {s : Core} (hs : Room total reserved s) :
    Room total 0 s := by
  intro hok
  rcases hs hok with ⟨hsize, hroom, hsafe⟩
  exact ⟨hsize, by omega, hsafe⟩

omit htotal in
theorem run_check (checked : ℤ) (env : Env) :
    Triple (Room total 0) (exec sizeof (.checkSize checked) env) (RunRoom total checked 0)
      (Safe total) := by
  intro s hs
  rw [exec]
  split
  · exact hs.safe
  · intro hok
    rcases hs hok with ⟨hsize, hroom, hsafe⟩
    exact ⟨by omega, by omega, hsafe⟩

omit htotal in
theorem run_field {t : Ty} (h : t.isVariable = false) (fn : String) (place : LVal) (k : ℕ)
    (env : Env) {checked consumed : ℤ} (hfits : consumed + t.getSize ≤ checked) :
    Triple (RunRoom total checked consumed) (exec sizeof (genCode .read rnd fn t place k) env)
      (RunRoom total checked (consumed + t.getSize)) (Safe total) := by
  intro s hs
  rcases exec_fixed_read sizeof rnd t fn h place k env s with ⟨s', hs', hread⟩
  rw [hs']
  intro hok
  have hroom := hread.inside (Ty.getSize_pos h) (by omega) hs hok
  rwa [add_assoc] at hroom

theorem run_end (checked : ℤ) (env : Env) :
    Triple (RunRoom total checked checked) (exec sizeof (.subSize checked) env) (Room total 0)
      (Safe total) := by
  intro s hs hok
  rcases hs hok with ⟨hsize, hroom, hsafe⟩
  have hnext : toInt32 (s.size - checked) = s.size - checked :=
    toInt32_of_range (by omega) (by omega)
  simp only [hnext]
  exact ⟨by omega, by omega, hsafe⟩

mutual

theorem Ty.room (t : Ty) (hbuilt : t.Built) (hvar : t.isVariable = true) {fn : String}
    {used : List ℕ} {k : ℕ} (hfresh : t.Fresh rnd fn used k) {place : LVal}
    (huses : place.Uses used) (env : Env) :
    Triple (Room total 0) (exec sizeof (genCode .read rnd fn t place k) env) (Room total 0)
      (Safe total) := by
  cases t with
  | native n =>
      rw [genCode_native_variable _ _ _ _ _ hvar]
      exact room_readVariable htotal n _
  | typedef name base =>
      have hbase : base.isVariable = true := by simpa using hvar
      rw [genCode_typedef_variable _ _ _ _ _ _ hbase]
      exact room_call htotal sizeof
        (base.room hbuilt hbase hfresh (uses_sourceOf base []) _)
  | void => exact triple_skip fun s hs => hs
  | container fields =>
      rw [genCode]
      exact (fields.room hbuilt hfresh huses env).1
  | «switch» up compareTo cases =>
      rw [genCode]
      exact cases.room hbuilt hfresh huses _ env
  | array count element =>
      rcases hbuilt with ⟨hcount, helement⟩
      rcases hfresh with ⟨hfcount, hi, hfelement⟩
      rw [genCode]
      refine triple_seq_pair (room_reserved htotal sizeof rnd fun hvar' =>
        count.room hcount hvar' hfcount (huses.accessField "length") env) ?_
      cases helem : element.isVariable with
      | true =>
          rw [reserveElements_variable _ helem]
          refine triple_seq (triple_skip fun s hs => hs) ?_
          refine triple_seq (triple_alloc (fun s arena hs => hs) (fun s hs => hs.safe) _ _) ?_
          refine Triple.mono (triple_loop (I := fun _ => Room total 0) fun n => ?_)
            (fun s hs => hs) (fun s hs => hs.choose_spec.1)
          have hbody := element.room helement helem hfelement
            ((huses.accessField "elements").at _) (env.bind (rnd fn (k + count.draws)) n)
          exact hbody.mono (fun s hs => hs.1) (fun s hs => hs)
      | false =>
          refine triple_seq (room_reserveElements htotal helem _) ?_
          refine triple_seq (triple_alloc (fun s arena hs => hs)
            (fun s hs hok => (hs hok).2.2.2) _ _) ?_
          exact room_fixedLoop helem fn huses hi _ _
  | rest element =>
      have hu8 : (Ty.native .u8).isVariable = false := by decide
      rw [show element = .native .u8 from hbuilt, genCode]
      refine triple_seq (triple_seq (room_setRest htotal _) (triple_alloc
        (fun s arena hs => hs) (fun s hs hok => (hs hok).2.2.2) _ _)) ?_
      exact room_fixedLoop hu8 fn huses hfresh.1 _ _
  | bitfield fields =>
      rw [bitfield_fixed hbuilt] at hvar
      cases hvar
  | option base =>
      have hbool : (Ty.native .bool).isVariable = false := by decide
      have hreserve : Triple (Room total 0) (exec sizeof (reserve base) env) (Room total 0)
          (Safe total) := by
        cases h : base.isVariable with
        | true =>
            rw [reserve_variable h]
            exact triple_skip fun s hs => hs
        | false =>
            exact (room_reserve htotal h).mono (fun s hs => hs)
              (fun s hs => hs.mono (Ty.getSize_pos h).le)
      have hpaid : Triple (Room total 0) (exec sizeof (reserve (.native .bool)) env)
          (Room total (Ty.native .bool).getSize) (Safe total) :=
        room_reserve htotal hbool
      have hflag : Triple (Room total (Ty.native .bool).getSize)
          (exec sizeof (genCode .read rnd fn (.native .bool) (accessField place "present") k) env)
          (Room total 0) (Safe total) := room_fixed hbool fn _ k
      rw [genCode_native_fixed _ _ _ _ _ hbool] at hflag
      rw [reserve_fixed hbool] at hpaid
      rw [genCode]
      refine triple_seq_pair hpaid (triple_seq hflag ?_)
      exact triple_ite hreserve (triple_skip fun s hs => hs)

theorem Fields.room (fields : Fields) (hbuilt : fields.Built) {fn : String} {used : List ℕ}
    {k : ℕ} (hfresh : fields.Fresh rnd fn used k) {place : LVal} (huses : place.Uses used)
    (env : Env) :
    Triple (Room total 0) (exec sizeof (genFields .read rnd fn none fields place k) env)
        (Room total 0) (Safe total) ∧
      ∀ checked consumed : ℤ, consumed + fields.fixedTotal = checked →
        Triple (RunRoom total checked consumed)
          (exec sizeof (genFields .read rnd fn (some checked) fields place k) env)
          (Room total 0) (Safe total) := by
  cases fields with
  | nil =>
      refine ⟨triple_skip fun s hs => hs, ?_⟩
      intro checked consumed h
      rw [Fields.fixedTotal, add_zero] at h
      subst h
      exact run_end htotal sizeof _ env
  | cons name t fields =>
      rcases hbuilt with ⟨hbt, hbrest⟩
      rcases hfresh with ⟨hft, hfrest⟩
      have hrest := fields.room hbrest hfrest huses env
      have huses' := huses.accessField name
      cases h : t.isVariable with
      | true =>
          have ht := t.room hbt h hft huses' env
          refine ⟨?_, ?_⟩
          · simp only [genFields, h, if_true]
            exact triple_seq (triple_skip fun s hs => hs) (triple_seq ht hrest.1)
          · intro checked consumed hconsumed
            simp only [Fields.fixedTotal, h, if_true, add_zero] at hconsumed
            subst hconsumed
            simp only [genFields, h, if_true]
            exact triple_seq (run_end htotal sizeof _ env) (triple_seq ht hrest.1)
      | false =>
          have hnonneg := fixedTotal_nonneg fields
          have htotal' : (Fields.cons name t fields).fixedTotal =
              t.getSize + fields.fixedTotal := by
            simp [Fields.fixedTotal, h]
          refine ⟨?_, ?_⟩
          · simp only [genFields, h, if_false, Bool.false_eq_true]
            refine triple_seq (run_check sizeof _ env) (triple_seq
              (run_field sizeof rnd h fn _ k env (by omega)) (hrest.2 _ _ (by omega)))
          · intro checked consumed hconsumed
            simp only [genFields, h, if_false, Bool.false_eq_true]
            exact triple_seq (run_field sizeof rnd h fn _ k env (by omega))
              (hrest.2 _ _ (by omega))

theorem Cases.room (cases : Cases) (hbuilt : cases.Built) {fn : String} {used : List ℕ}
    {k : ℕ} (hfresh : cases.Fresh rnd fn used k) {place : LVal} (huses : place.Uses used)
    (discriminant : LVal) (env : Env) :
    Triple (Room total 0) (exec sizeof (genCases .read rnd fn discriminant cases place k) env)
        (Room total 0) (Safe total) := by
  cases cases with
  | nil => exact fun s hs => hs.safe
  | cons name t value cases =>
      rcases hbuilt with ⟨hbt, hbrest⟩
      rcases hfresh with ⟨hft, hfrest⟩
      have hrest := cases.room hbrest hfrest huses discriminant env
      have hcode : Triple (Room total 0)
          (exec sizeof (caseCode t (genCode .read rnd fn t (accessField place name) k)) env)
          (Room total 0) (Safe total) := by
        rw [caseCode]
        split
        · exact triple_skip fun s hs => hs
        · exact room_reserved htotal sizeof rnd fun hvar =>
            t.room hbt hvar hft (huses.accessField name) env
      cases value with
      | default =>
          rw [genCases]
          exact hcode
      | int value =>
          simp only [genCases]
          exact triple_ite hcode hrest
      | bool value =>
          simp only [genCases]
          exact triple_ite hcode hrest
      | string value =>
          simp only [genCases]
          exact triple_ite hcode hrest

end

end

/-! ## Generated readers -/

/-- The state in which a reader is called on a buffer of `size` bytes. -/
def Core.start (buffer : ℕ → UInt8) (size : ℕ) (arena : TickArena) (mem : Loc → ℤ) : Core :=
  ⟨buffer, 0, size, arena, mem, 0, []⟩

/-- A call of a generated reader ends, and keeps the room of its caller. -/
theorem call_room {total : ℕ} (htotal : total < 2 ^ 31) (sizeof : Ty → ℕ) (rnd : String → ℕ → ℕ)
    {name : String} {t : Ty} (hbuilt : t.Built) (hvar : t.isVariable = true)
    (hfresh : t.Fresh rnd name [] 0) (packet : Loc) {s : Core} (hs : Room total 0 s) :
    ∃ ret s', callFunction sizeof (generateRead rnd name t) packet s = some (ret, s') ∧
      Safe total s' := by
  have hroom := t.room htotal sizeof rnd hbuilt hvar hfresh (uses_sourceOf t [])
    ⟨packet, fun _ => 0⟩ s hs
  rw [callFunction, generateRead, genReadCode]
  revert hroom
  cases exec sizeof (genCode .read rnd name t (sourceOf t) 0) ⟨packet, fun _ => 0⟩ s with
  | next s' => exact fun hroom => ⟨_, s', rfl, hroom.safe⟩
  | ret s' => exact fun hsafe => ⟨_, s', rfl, hsafe⟩
  | diverge => exact False.elim

section

theorem built_encryptionResponse : Packets.loginEncryptionResponse.Built := by
  simp [Packets.loginEncryptionResponse, Packets.container, Packets.buffer, Packets.varint,
    Ty.Built, Fields.Built]

theorem fresh_encryptionResponse :
    Packets.loginEncryptionResponse.Fresh (fun _ k => k) "login_packet_encryption_response" []
      0 := by
  simp [Packets.loginEncryptionResponse, Packets.container, Packets.buffer, Packets.varint,
    Ty.Fresh, Fields.Fresh]

/-- The arena after an earlier packet of the tick took 64 bytes of it. -/
def usedArena : TickArena := { TickArena.initArena 0x100000000 with currentOffset := 64 }

end

end CmcServer.ProtoDef
