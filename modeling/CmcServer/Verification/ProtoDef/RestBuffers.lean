import CmcServer.Verification.ProtoDef.RoundTrip

/-! # Rest buffers

The reader of an array without a count takes a quarter of the remaining bytes for the number of
its elements, whatever their size is, and pays one byte for each. -/

namespace CmcServer.ProtoDef

open Bytes EarlyReturn

/-! ## A field at the end of a container -/

def Fields.snoc : Fields → String → Ty → Fields
  | .nil, last, t => .cons last t .nil
  | .cons name u fields, last, t => .cons name u (fields.snoc last t)

theorem Fields.fixedTotal_snoc (fields : Fields) (last : String) {t : Ty}
    (h : t.isVariable = true) : (fields.snoc last t).fixedTotal = fields.fixedTotal := by
  cases fields with
  | nil => simp [Fields.snoc, Fields.fixedTotal, h]
  | cons name u fields => simp only [Fields.snoc, Fields.fixedTotal, fields.fixedTotal_snoc last h]

theorem Fields.need_snoc (sizeof : Ty → ℕ) (m : Loc → ℤ) (fields : Fields) (last : String)
    (t : Ty) (p : Spot) :
    (fields.snoc last t).need sizeof m p =
      fields.need sizeof m p + t.need sizeof m (p.sub last) := by
  cases fields with
  | nil => simp [Fields.snoc, Fields.need]
  | cons name u fields =>
      simp only [Fields.snoc, Fields.need, fields.need_snoc sizeof m last t p, Nat.add_assoc]

theorem Fields.isValue_snoc (m : Loc → ℤ) (fields : Fields) (last : String) (t : Ty) (p : Spot) :
    (fields.snoc last t).IsValue m p ↔ fields.IsValue m p ∧ t.IsValue m (p.sub last) := by
  cases fields with
  | nil => simp [Fields.snoc, Fields.IsValue]
  | cons name u fields =>
      simp only [Fields.snoc, Fields.IsValue, fields.isValue_snoc m last t p, and_assoc]

/-- The code of a last field of variable size stands behind that of the others. -/
theorem exec_snoc (sizeof : Ty → ℕ) (dir : Dir) (rnd : String → ℕ → ℕ) (fn : String)
    (fields : Fields) (last : String) {t : Ty} (h : t.isVariable = true) (run : Option ℤ)
    (place : LVal) (k : ℕ) (env : Env) :
    exec sizeof (genFields dir rnd fn run (fields.snoc last t) place k) env =
      exec sizeof (.seq (genFields dir rnd fn run fields place k)
        (genCode dir rnd fn t (accessField place last) (k + fields.draws))) env := by
  cases fields with
  | nil =>
      simp only [Fields.snoc, genFields, h, if_true, Fields.draws, Nat.add_zero]
      rw [exec_seq_assoc]
      exact exec_seq_skip sizeof env _
  | cons name u fields =>
      have hrest := fun run k => exec_snoc sizeof dir rnd fn fields last h run place k env
      have hdraws : k + (Fields.cons name u fields).draws = k + u.draws + fields.draws := by
        rw [Fields.draws, Nat.add_assoc]
      funext s
      cases hu : u.isVariable with
      | true =>
          simp only [Fields.snoc, genFields, hu, if_true, hdraws, exec, hrest, Outcome.bind_assoc]
      | false =>
          have htotal : (Fields.cons name u (fields.snoc last t)).fixedTotal =
              (Fields.cons name u fields).fixedTotal :=
            (Fields.cons name u fields).fixedTotal_snoc last h
          cases run with
          | none =>
              simp only [Fields.snoc, genFields, hu, if_false, Bool.false_eq_true, hdraws, htotal,
                exec, hrest, Outcome.bind_assoc]
          | some total =>
              simp only [Fields.snoc, genFields, hu, if_false, Bool.false_eq_true, hdraws, exec,
                hrest, Outcome.bind_assoc]

/-! ## What the reader of the rest takes -/

/-- The number of elements that the code of an array without a count takes. -/
def Core.restCount (s : Core) : ℤ := toInt32 (toSize s.size / 4 : ℕ)

/-- The remaining size is an `int` and the arena is not overfull. -/
structure Core.Sane (s : Core) : Prop where
  lo : -(2 ^ 31) ≤ s.size
  hi : s.size < 2 ^ 31
  offset_le : s.arena.currentOffset ≤ s.arena.maxSize
  maxSize_lt : s.arena.maxSize < 2 ^ 64

theorem Core.Sane.resized {s s' : Core} (h : s.Sane) (harena : s'.arena = s.arena) {n : ℤ}
    (hsize : s'.size = toInt32 n) : s'.Sane := by
  obtain ⟨hlo, hhi⟩ := toInt32_bounds n
  rw [← hsize] at hlo hhi
  exact ⟨hlo, hhi, harena ▸ h.offset_le, harena ▸ h.maxSize_lt⟩

theorem Core.Sane.same {s s' : Core} (h : s.Sane) (harena : s'.arena = s.arena)
    (hsize : s'.size = s.size) : s'.Sane :=
  ⟨hsize ▸ h.lo, hsize ▸ h.hi, harena ▸ h.offset_le, harena ▸ h.maxSize_lt⟩

theorem exec_sane_atom {sizeof : Ty → ℕ} {c : Cmd} (hatom : c.IsAtom) (env : Env) {s : Core}
    (hs : s.Sane) : (exec sizeof c env s).All Core.Sane := by
  cases c with
  | skip => exact hs
  | fail => exact hs
  | checkSize n =>
      rw [exec]
      split <;> exact hs
  | subSize n => exact hs.resized rfl rfl
  | checkCount length n =>
      rw [exec]
      split
      · exact hs
      · exact hs.same rfl rfl
  | subCount length n => exact hs.resized rfl rfl
  | setRest length => exact hs.resized rfl rfl
  | alloc length element =>
      rw [exec]
      split
      · exact hs
      · rename_i arena halloc
        rw [TickArena.tickArenaAllocUnlocked] at halloc
        split at halloc
        · cases halloc
        · rename_i hfits
          cases halloc
          exact ⟨hs.lo, hs.hi, not_lt.mp hfits, hs.maxSize_lt⟩
  | fixed dir n place => cases dir <;> exact hs.same rfl rfl
  | bits dir fields place => cases dir <;> exact hs.same rfl rfl
  | «variable» dir n place =>
      cases dir with
      | read =>
          rw [exec, readVariable]
          split
          · exact hs.same rfl rfl
          · exact hs.resized rfl rfl
      | write =>
          rw [exec, writeVariable]
          split
          · exact hs
          · split
            · trivial
            · exact hs.resized rfl rfl
  | _ => exact hatom.elim

theorem exec_sane (sizeof : Ty → ℕ) (c : Cmd) (env : Env) {s : Core} (hs : s.Sane) :
    (exec sizeof c env s).All Core.Sane := by
  refine exec_all ?_ ?_ ?_ c env hs
  · intro c env s hatom hs
    exact exec_sane_atom hatom env hs
  · intro caller s ret hcaller hs
    rw [resume]
    split
    · exact ⟨hcaller.lo, hcaller.hi, hs.offset_le, hs.maxSize_lt⟩
    · exact hs.resized rfl rfl
  · intro caller s n hcaller hs
    exact ⟨hcaller.lo, hcaller.hi, hs.offset_le, hs.maxSize_lt⟩

def Core.takeRest (s : Core) (l : Loc) : Core :=
  { s.assign l s.restCount with size := toInt32 (s.size - s.restCount) }

theorem Core.takeRest_size (s : Core) (l : Loc) :
    (s.takeRest l).size = toInt32 (s.size - s.restCount) := rfl

theorem Core.takeRest_mem (s : Core) (l : Loc) :
    (s.takeRest l).mem = Function.update s.mem l s.restCount := rfl

section

variable (sizeof : Ty → ℕ) (rnd : String → ℕ → ℕ) (fn : String) {element : Ty} (place : LVal)
  (k : ℕ) (env : Env) (s : Core)

theorem exec_rest_read :
    exec sizeof (genReadCode rnd fn (.rest element) place k) env s =
      (exec sizeof (.alloc ⟨accessField place "length", false⟩ element) env
        (s.takeRest ((accessField place "length").loc env))).bind
        (exec sizeof (.loop (rnd fn k) ⟨accessField place "length", false⟩
          (genCode .read rnd fn element ((accessField place "elements").at (rnd fn k)) (k + 1)))
          env) := by
  rw [genReadCode, genCode, exec, exec]
  rfl

/-- Elements of fixed size are read without a look at the remaining size. -/
theorem size_of_rest_read (h : element.isVariable = false) :
    (exec sizeof (genReadCode rnd fn (.rest element) place k) env s).All
      fun s' => s'.size = toInt32 (s.size - s.restCount) := by
  rw [exec_rest_read]
  refine Outcome.All.bind ?_ ?_
  · rw [exec]
    split <;> rfl
  · intro t ht
    refine all_loop ?_ _ _ ht
    intro j u hu
    obtain ⟨u', hu', hread⟩ := exec_fixed_read sizeof rnd element fn h
      ((accessField place "elements").at (rnd fn k)) (k + 1) (env.bind (rnd fn k) j) u
    rw [hu']
    exact hread.size.trans hu

variable {s}

theorem exec_loop_of_nonpos (i : ℕ) (length : Len) (body : Cmd)
    (h : length.value (env.bind i 0) s ≤ 0) :
    exec sizeof (.loop i length body) env s = .next s := by
  rw [exec_loop]
  apply loop_of_not_more
  · rw [loopFuel]
    decide
  · simpa using h

/-- Without elements to take, their number is stored and nothing of them is read. -/
theorem exec_rest_read_of_nonpos {used : List ℕ} (huses : place.Uses used)
    (hfresh : rnd fn k ∉ used) (hcount : s.restCount ≤ 0) :
    exec sizeof (genReadCode rnd fn (.rest element) place k) env s =
      exec sizeof (.alloc ⟨accessField place "length", false⟩ element) env
        (s.takeRest ((accessField place "length").loc env)) := by
  rw [exec_rest_read]
  have hlen : ∀ u : Core, u.mem = (s.takeRest ((accessField place "length").loc env)).mem →
      exec sizeof (.loop (rnd fn k) ⟨accessField place "length", false⟩
        (genCode .read rnd fn element ((accessField place "elements").at (rnd fn k)) (k + 1)))
        env u = .next u := by
    intro u hu
    apply exec_loop_of_nonpos
    rw [Len.value, LVal.loc_bind (huses.accessField "length") hfresh, hu]
    have hbounds := toInt32_bounds (toSize s.size / 4 : ℕ)
    rw [← Core.restCount] at hbounds
    rw [if_neg Bool.false_ne_true, Core.takeRest_mem, Function.update_self,
      toInt32_of_range hbounds.1 hbounds.2]
    exact hcount
  rw [exec]
  split
  · rfl
  · exact hlen _ rfl

theorem exec_alloc_of_zero (hs : s.Sane) (length : Len) (h : length.value env s = 0) :
    exec sizeof (.alloc length element) env s = .next s := by
  have hoffset := hs.offset_le
  have hmax := hs.maxSize_lt
  have hadd : sizeAdd s.arena.currentOffset 0 = s.arena.currentOffset := sizeAdd_of_lt (by omega)
  have hzero : toSize (length.value env s * sizeof element) = 0 := by
    rw [h, Int.zero_mul]
    rfl
  rw [exec, hzero, TickArena.tickArenaAllocUnlocked, hadd, if_neg (not_lt.mpr hoffset)]

theorem exec_rest_read_of_zero {used : List ℕ} (huses : place.Uses used)
    (hfresh : rnd fn k ∉ used) (hs : s.Sane) (hcount : s.restCount = 0) :
    exec sizeof (genReadCode rnd fn (.rest element) place k) env s =
      .next (s.takeRest ((accessField place "length").loc env)) := by
  rw [exec_rest_read_of_nonpos sizeof rnd fn place k env huses hfresh hcount.le]
  apply exec_alloc_of_zero
  · exact hs.resized rfl rfl
  · rw [Len.value, if_neg Bool.false_ne_true, Core.takeRest_mem,
      Function.update_self, hcount]
    rfl

end

/-! ## The count and the remaining size -/

section

variable {s : Core}

theorem restCount_of_nonneg (hlo : 0 ≤ s.size) (hhi : s.size < 2 ^ 31) :
    s.restCount = s.size / 4 := by
  rw [Core.restCount, toSize_of_nonneg hlo (by omega), toInt32_of_range] <;> omega

/-- The conversion to `size_t` adds a multiple of four. -/
theorem restCount_of_neg (hlo : -(2 ^ 31) ≤ s.size) (hhi : s.size < 0) :
    s.restCount = s.size / 4 := by
  have hquarter : ((toSize s.size / 4 : ℕ) : ℤ) =
      s.size / 4 + 2 ^ 30 * (2 ^ 32 : ℕ) := by
    rw [toSize]
    omega
  rw [Core.restCount, hquarter, toInt32, Int.add_mul_bmod_self_right, Int.bmod_eq_of_le] <;> omega

/-- As many elements as there are bytes are only taken of no bytes or of a negative size. -/
theorem size_of_restCount (hs : s.Sane) (h : s.restCount = s.size) :
    s.size = 0 ∨ s.size = -1 := by
  have hlo := hs.lo
  have hhi := hs.hi
  by_cases hneg : s.size < 0
  · rw [restCount_of_neg hlo hneg] at h
    omega
  · rw [restCount_of_nonneg (by omega) hhi] at h
    omega

theorem eq_of_toInt32_sub {x y : ℤ} (hx : -(2 ^ 31) ≤ x ∧ x < 2 ^ 31)
    (hy : -(2 ^ 31) ≤ y ∧ y < 2 ^ 31) (h : toInt32 (x - y) = 0) : x = y := by
  rw [toInt32, Int.bmod_def] at h
  omega

theorem eq_zero_of_toInt32_sub {n x : ℤ} (hx : -(2 ^ 31) ≤ x ∧ x < 2 ^ 31)
    (h : toInt32 (n - x) = n) : x = 0 := by
  rw [toInt32, Int.bmod_def] at h
  omega

/-- A quarter of `r` bytes is all that the elements of `n` bytes take only if both are nothing. -/
theorem quarter_eq_elements {r n : ℤ} (hr : 0 ≤ r) (hn : 0 < n) (h : r / 4 = n * (r / n)) :
    r < 4 ∧ r < n := by
  have hle := Int.mul_ediv_self_le (x := r) (k := n) hn.ne'
  have hlt := Int.lt_mul_ediv_self_add (x := r) (k := n) hn
  have hquot : r / n = 0 := by
    by_contra hne
    have hone : 1 ≤ r / n := by
      have := Int.ediv_nonneg hr hn.le
      omega
    have hmul : n * 1 ≤ n * (r / n) := Int.mul_le_mul_of_nonneg_left hone hn.le
    omega
  rw [hquot, Int.mul_zero] at h hlt
  omega

end

/-! ## Which rest buffers are consumed -/

section

variable (sizeof : Ty → ℕ) (rnd : String → ℕ → ℕ) (name : String) (fields : Fields)
  (last : String) (packet : Loc) (m : Loc → ℤ) (input : ℕ → UInt8) (n : ℕ) (arena : TickArena)
  (mem : Loc → ℤ)

/-- The reader of a container that ends in a rest buffer returns the full size, and has copied the
trailing bytes and their number. -/
def ConsumesRest : Prop :=
  ∃ s, callFunction sizeof
      (generateRead rnd name (.container (fields.snoc last Packets.restBuffer))) packet
        (Core.start input n arena mem) = some ((n : ℤ), s) ∧
    ∀ l ∈ Packets.restBuffer.scalars m (Spot.sub ⟨packet, []⟩ last), s.mem l = m l

/-- The reader of the fields in front of the rest buffer takes all of the bytes. -/
def FrontConsumes : Prop :=
  ∃ s, callFunction sizeof (generateRead rnd name (.container fields)) packet
    (Core.start input n arena mem) = some ((n : ℤ), s)

end

/-- From the remaining size the code of an array without a count takes as many elements as fit,
and no more bytes than they have. -/
def TakesElements (sizeof : Ty → ℕ) (rnd : String → ℕ → ℕ) (fn : String) (element : Ty)
    (place : LVal) (k : ℕ) (env : Env) (s : Core) : Prop :=
  FallsTo (exec sizeof (genReadCode rnd fn (.rest element) place k) env) s fun s' =>
    s'.mem ((accessField place "length").loc env) = s.size / element.getSize ∧
      s'.size = s.size - element.getSize * (s.size / element.getSize)

theorem takesElements_iff (sizeof : Ty → ℕ) (rnd : String → ℕ → ℕ) (fn : String) {element : Ty}
    (h : element.isVariable = false) (place : LVal) (k : ℕ) (env : Env) {used : List ℕ}
    (huses : place.Uses used) (hfresh : rnd fn k ∉ used) {s : Core} (hs : s.Sane)
    (hsize : 0 ≤ s.size) :
    TakesElements sizeof rnd fn element place k env s ↔
      s.size < 4 ∧ s.size < element.getSize := by
  have hpos : 0 < element.getSize := by
    by_contra hneg
    have hvar : element.isVariable = true := decide_eq_true (not_lt.mp hneg)
    rw [h] at hvar
    cases hvar
  have hcount := restCount_of_nonneg hsize hs.hi
  constructor
  · rintro ⟨s', hs', -, htaken⟩
    have hleft := size_of_rest_read sizeof rnd fn place k env s h
    rw [hs', Outcome.All, hcount, toInt32_of_range (by omega) (by have := hs.hi; omega)] at hleft
    apply quarter_eq_elements hsize hpos
    omega
  · rintro ⟨hfour, hless⟩
    have hzero : s.restCount = 0 := by omega
    have hnone : s.size / element.getSize = 0 := Int.ediv_eq_zero_of_lt hsize hless
    refine ⟨_, exec_rest_read_of_zero sizeof rnd fn place k env huses hfresh hs hzero, ?_, ?_⟩
    · rw [Core.takeRest_mem, Function.update_self, hzero, hnone]
    · rw [Core.takeRest_size, hzero, hnone, Int.mul_zero, toInt32_of_range] <;> omega

theorem next_of_finish {size ret : ℤ} {o : Outcome Core} {s : Core} (hret : 0 ≤ ret)
    (h : finish size o = some (ret, s)) : o = .next s ∧ toInt32 (size - s.size) = ret := by
  cases o with
  | next s' =>
      cases h
      exact ⟨rfl, rfl⟩
  | ret s' =>
      cases h
      omega
  | diverge => cases h

theorem next_of_bind {o : Outcome Core} {c : Stmt Core} {s : Core} (h : o.bind c = .next s) :
    ∃ t, o = .next t ∧ c t = .next s := by
  cases o with
  | next t => exact ⟨t, rfl, h⟩
  | ret t => cases h
  | diverge => cases h

theorem alloc_mem {sizeof : Ty → ℕ} {length : Len} {element : Ty} {env : Env} {s s' : Core}
    (h : exec sizeof (.alloc length element) env s = .next s') : s'.mem = s.mem := by
  rw [exec] at h
  split at h
  · cases h
  · cases h
    rfl

section

variable {sizeof : Ty → ℕ} {rnd : String → ℕ → ℕ} {name : String} {fields : Fields}
  {last : String} {packet : Loc} {m : Loc → ℤ} {input : ℕ → UInt8} {n : ℕ} {arena : TickArena}
  {mem : Loc → ℤ}

def restPlace (last : String) : LVal := accessField ⟨.packet, []⟩ last

theorem uses_restPlace (last : String) : (restPlace last).Uses [] :=
  LVal.Uses.accessField (fun _ hi => absurd hi List.not_mem_nil) last

theorem loc_restPlace (packet : Loc) (last : String) (index : ℕ → ℤ) :
    (accessField (restPlace last) "length").loc ⟨packet, index⟩ =
      ((Spot.sub ⟨packet, []⟩ last).sub "length").loc := by
  rw [loc_member, restPlace, spot_accessField]
  rfl

theorem call_snoc (dir : Dir) (s : Core) :
    callFunction sizeof (genCode dir rnd name (.container (fields.snoc last Packets.restBuffer))
        ⟨.packet, []⟩ 0) packet s =
      finish s.size ((exec sizeof (genCode dir rnd name (.container fields) ⟨.packet, []⟩ 0)
        ⟨packet, fun _ => 0⟩ s).bind (exec sizeof (genCode dir rnd name Packets.restBuffer
          (restPlace last) (0 + fields.draws)) ⟨packet, fun _ => 0⟩)) := by
  rw [callFunction, genCode,
    exec_snoc sizeof dir rnd name fields last (t := Packets.restBuffer) (Ty.isVariable_rest _)]
  rfl

theorem consumesRest_iff (hcount : 0 ≤ m ((Spot.sub ⟨packet, []⟩ last).sub "length").loc)
    (hsane : (Core.start input n arena mem).Sane) :
    ConsumesRest sizeof rnd name fields last packet m input n arena mem ↔
      m ((Spot.sub ⟨packet, []⟩ last).sub "length").loc = 0 ∧
        FrontConsumes sizeof rnd name fields packet input n arena mem := by
  have hn : 0 ≤ (n : ℤ) := Int.natCast_nonneg n
  have hfull : toInt32 ((Core.start input n arena mem).size - 0) = n := by
    rw [Int.sub_zero]
    exact toInt32_of_range (le_trans (by decide) hn) hsane.hi
  have hfront := exec_sane sizeof (generateRead rnd name (.container fields))
    ⟨packet, fun _ => 0⟩ hsane
  have hloc := loc_restPlace packet last fun _ => 0
  have hsnoc : callFunction sizeof
      (generateRead rnd name (.container (fields.snoc last Packets.restBuffer))) packet
        (Core.start input n arena mem) =
      finish (Core.start input n arena mem).size
        ((exec sizeof (generateRead rnd name (.container fields)) ⟨packet, fun _ => 0⟩
          (Core.start input n arena mem)).bind
          (exec sizeof (genReadCode rnd name Packets.restBuffer (restPlace last)
            (0 + fields.draws)) ⟨packet, fun _ => 0⟩)) := call_snoc .read _
  constructor
  · rintro ⟨s', hcall, hcopied⟩
    rw [hsnoc] at hcall
    obtain ⟨hnext, hret⟩ := next_of_finish hn hcall
    obtain ⟨s₁, hs₁, hrest⟩ := next_of_bind hnext
    rw [hs₁] at hfront
    have hleft := size_of_rest_read sizeof rnd name (restPlace last) (0 + fields.draws)
      ⟨packet, fun _ => 0⟩ s₁ (rfl : (Ty.native .u8).isVariable = false)
    have hsane' := exec_sane sizeof (genReadCode rnd name Packets.restBuffer (restPlace last)
      (0 + fields.draws)) ⟨packet, fun _ => 0⟩ hfront
    rw [Packets.restBuffer] at hrest hsane'
    rw [hrest] at hleft hsane'
    have hend := eq_zero_of_toInt32_sub ⟨hsane'.lo, hsane'.hi⟩ hret
    have hall : s₁.size = s₁.restCount := by
      apply eq_of_toInt32_sub ⟨hfront.lo, hfront.hi⟩ (toInt32_bounds _)
      rw [← hend]
      exact hleft.symm
    have hnone := size_of_restCount hfront hall.symm
    rw [exec_rest_read_of_nonpos sizeof rnd name (restPlace last) (0 + fields.draws) _
      (uses_restPlace last) List.not_mem_nil (by omega)] at hrest
    have hmem := alloc_mem hrest
    have hlength := hcopied _ (by
      rw [Packets.restBuffer, Ty.scalars]
      exact List.mem_cons_self)
    rw [hmem, Core.takeRest_mem, hloc, Function.update_self] at hlength
    have hzero : s₁.size = 0 := by omega
    refine ⟨by omega, s₁, ?_⟩
    rw [callFunction, hs₁, finish, hzero, hfull]
  · rintro ⟨hzero, s₁, hcall⟩
    obtain ⟨hnext, hret⟩ := next_of_finish hn hcall
    rw [hnext] at hfront
    have hend := eq_zero_of_toInt32_sub ⟨hfront.lo, hfront.hi⟩ hret
    have hnone : s₁.restCount = 0 := by
      rw [restCount_of_nonneg] <;> omega
    have hrest : exec sizeof (genReadCode rnd name Packets.restBuffer (restPlace last)
        (0 + fields.draws)) ⟨packet, fun _ => 0⟩ s₁ =
          .next (s₁.takeRest ((accessField (restPlace last) "length").loc ⟨packet, fun _ => 0⟩)) :=
      exec_rest_read_of_zero sizeof rnd name (restPlace last) (0 + fields.draws)
        ⟨packet, fun _ => 0⟩ (uses_restPlace last) List.not_mem_nil hfront hnone
    refine ⟨s₁.takeRest ((accessField (restPlace last) "length").loc ⟨packet, fun _ => 0⟩), ?_, ?_⟩
    · rw [hsnoc, hnext, Outcome.next_bind, hrest, finish,
        Core.takeRest_size, hend, hnone, show toInt32 (0 - 0) = 0 from rfl, hfull]
    · intro l hl
      have hl : l = ((Spot.sub ⟨packet, []⟩ last).sub "length").loc := by
        simpa [Packets.restBuffer, Ty.scalars, countAt, hzero] using hl
      rw [hl, hzero, Core.takeRest_mem, hloc, Function.update_self, hnone]

theorem exec_rest_write_of_zero {fn : String} {place : LVal} {k : ℕ} {env : Env}
    {used : List ℕ} (huses : place.Uses used) (hfresh : rnd fn k ∉ used) {s : Core}
    (hlength : s.mem ((accessField place "length").loc env) = 0) (hlo : 0 ≤ s.size)
    (hhi : s.size < 2 ^ 31) :
    FallsTo (exec sizeof (genCode .write rnd fn Packets.restBuffer place k) env) s
      fun s' => s'.size = s.size ∧ s'.buffer = s.buffer := by
  let length : Len := ⟨accessField place "length", false⟩
  have hvalue : ∀ env', length.place.loc env' = length.place.loc env → ∀ u : Core,
      u.mem = s.mem → length.value env' u = 0 := by
    intro env' hloc u hmem
    rw [Len.value, if_neg Bool.false_ne_true, hloc, hmem]
    exact congrArg toInt32 hlength
  have hproduct : ∀ u : Core, u.mem = s.mem → length.product env u 1 = 0 := by
    intro u hmem
    rw [Len.product, if_neg Bool.false_ne_true, hvalue env rfl u hmem]
    rfl
  have hbind := LVal.loc_bind (huses.accessField "length") hfresh env 0
  let s₁ : Core := { s with counts := (length.value env s, 1) :: s.counts }
  let s₂ : Core := { s₁ with size := toInt32 (s₁.size - length.product env s₁ 1) }
  have hcheck : exec sizeof (.checkCount length 1) env s = .next s₁ := by
    rw [exec, hproduct s rfl, if_neg (not_lt.mpr hlo)]
  have hloop := exec_loop_of_nonpos sizeof env (s := s₂) (rnd fn k) length
    (genCode .write rnd fn (.native .u8) ((accessField place "elements").at (rnd fn k)) (k + 1))
    (hvalue _ hbind s₂ rfl).le
  refine ⟨s₂, ?_, ?_, rfl⟩
  · rw [Packets.restBuffer, genCode, reserveElements_fixed _ rfl, exec, exec]
    change ((exec sizeof (.checkCount length 1) env s).bind
      (exec sizeof (.subCount length 1) env)).bind _ = _
    rw [hcheck]
    exact hloop
  · dsimp only [s₂]
    rw [hproduct s₁ rfl, Int.sub_zero]
    exact toInt32_of_range (le_trans (by decide) hlo) hhi

/-- Without trailing bytes the fields in front are all there is, so that the reader takes all of
the bytes if it reads these fields back. -/
theorem frontConsumes_of_accepted {rnd' : String → ℕ → ℕ} (nbt : Loc → List UInt8)
    (hacc : (Ty.container fields).Accepted false [])
    (hfresh : (Ty.container fields).Fresh rnd name [] 0)
    (hfresh' : (Ty.container fields).Fresh rnd' name [] 0)
    (hresolves : (Ty.container fields).Resolves ⟨packet, []⟩)
    (hvalue : (Ty.container fields).IsValue m ⟨packet, []⟩)
    (hzero : m ((Spot.sub ⟨packet, []⟩ last).sub "length").loc = 0) {buffer : ℕ → UInt8}
    {size : ℕ} (hsize : size < 2 ^ 31)
    (hroom : ((Ty.container fields).encode nbt m ⟨packet, []⟩).length ≤ size)
    {writerArena : TickArena} {s : Core} (hblank : ∀ l, packet <:+ l → mem l = 0)
    (hwriter : callFunction sizeof
      (generateWrite rnd name (.container (fields.snoc last Packets.restBuffer))) packet
        (Core.start buffer size writerArena m) = some ((n : ℤ), s))
    (hinput : Received sizeof m (.container (fields.snoc last Packets.restBuffer)) packet n
      s.buffer input n arena) :
    FrontConsumes sizeof rnd' name fields packet input n arena mem := by
  have hvar : (Ty.container fields).isVariable = true := Ty.isVariable_container fields
  obtain ⟨s₁, hcall, hbuffer, hleft, hmem⟩ := call_encodes hsize sizeof rnd nbt name _ hacc hvar
    hfresh packet hvalue (sync_start m size buffer writerArena) rfl (by dsimp only; omega)
  obtain ⟨hnext, hret⟩ := next_of_finish (Int.natCast_nonneg _) hcall
  generalize hbytes : (Ty.container fields).encode nbt m ⟨packet, []⟩ = bytes at *
  have hstart : (Core.start buffer size writerArena m).size = size := rfl
  have hnothing : FallsTo (exec sizeof (genCode .write rnd name Packets.restBuffer (restPlace last)
      (0 + fields.draws)) ⟨packet, fun _ => 0⟩) s₁
        fun s' => s'.size = s₁.size ∧ s'.buffer = s₁.buffer :=
    exec_rest_write_of_zero (uses_restPlace last) List.not_mem_nil
      (by rw [loc_restPlace, hmem, hzero]) (by omega) (by omega)
  obtain ⟨s₂, hs₂, hsame, hkept⟩ := hnothing
  have hwhole : callFunction sizeof
      (generateWrite rnd name (.container (fields.snoc last Packets.restBuffer))) packet
        (Core.start buffer size writerArena m) = some ((bytes.length : ℤ), s₂) := by
    refine (call_snoc .write _).trans ?_
    rw [generateWrite, genWriteCode, sourceOf] at hnext
    rw [hnext, Outcome.next_bind, hs₂, finish, hsame, hret]
  rw [hwhole, Option.some_inj, Prod.mk.injEq] at hwriter
  obtain ⟨hn, rfl⟩ := hwriter
  have hn : bytes.length = n := by exact_mod_cast hn
  subst hn
  have hwritten : At s₂.buffer 0 bytes := by
    rw [hkept, hbuffer]
    exact at_store _ _ _
  have hneed := hinput.need_le
  rw [Ty.need, Fields.need_snoc] at hneed
  have hread := (Ty.container fields).decodes sizeof rnd' nbt hacc hvar hfresh'
    (uses_sourceOf (.container fields) []) (shaped_sourceOf (.container fields))
    ⟨packet, fun _ => 0⟩ (by rwa [spot_sourceOf]) (by rwa [spot_sourceOf])
    (Core.start input bytes.length arena mem) (fun hswitch => by cases hswitch)
  rw [spot_sourceOf, hbytes] at hread
  obtain ⟨s₃, hs₃, hdecoded⟩ := hread {
    bytes_at := by
      intro i hi
      have hbyte := hwritten i hi
      simp only [Core.start, Nat.zero_add] at hbyte ⊢
      rw [hinput.starts i hi, hbyte]
    paid_le := le_refl (bytes.length : ℤ)
    size_lt := by
      have := hinput.size_lt
      simp only [Core.start]
      omega
    need_le := by
      rw [Ty.need]
      exact le_trans (Nat.add_le_add_left (Nat.le_add_right _ _) _) hneed
    maxSize_lt := hinput.maxSize_lt
    zero := fun l hl => hblank l ((Ty.container fields).scalars_under m ⟨packet, []⟩ l hl) }
  refine ⟨s₃, ?_⟩
  have hrest : (Core.start input bytes.length arena mem).size - s₃.size = bytes.length := by
    rw [hdecoded.size]
    omega
  rw [callFunction, generateRead, genReadCode, hs₃, finish, hrest,
    toInt32_of_range (by omega) (by omega)]

end

/-- The reader consumes a rest buffer only if there is nothing in it, and an array of fixed elements
without a count only if not even a quarter of what remains, or one element, is a whole one. -/
theorem restBuffer_consumes_iff (sizeof : Ty → ℕ) (rnd rnd' : String → ℕ → ℕ) :
    (∀ (name : String) (fields : Fields) (last : String) (packet : Loc) (m : Loc → ℤ),
      (Ty.container (fields.snoc last Packets.restBuffer)).IsValue m ⟨packet, []⟩ →
      ∀ (buffer : ℕ → UInt8) (size : ℕ) (writerArena : TickArena) (n : ℕ) (s : Core),
        callFunction sizeof
          (generateWrite rnd name (.container (fields.snoc last Packets.restBuffer))) packet
            (Core.start buffer size writerArena m) = some ((n : ℤ), s) →
        ∀ (input : ℕ → UInt8) (arena : TickArena) (mem : Loc → ℤ),
          Received sizeof m (.container (fields.snoc last Packets.restBuffer)) packet n s.buffer
            input n arena →
          (ConsumesRest sizeof rnd' name fields last packet m input n arena mem ↔
            m ((Spot.sub ⟨packet, []⟩ last).sub "length").loc = 0 ∧
              FrontConsumes sizeof rnd' name fields packet input n arena mem)) ∧
    (∀ (fn : String) (element : Ty), element.isVariable = false →
      ∀ (place : LVal) (k : ℕ) (env : Env) (used : List ℕ), place.Uses used →
        rnd' fn k ∉ used →
        ∀ s : Core, 0 ≤ s.size → s.size < 2 ^ 31 →
          s.arena.currentOffset + (s.size / element.getSize).toNat * sizeof element ≤
            s.arena.maxSize → s.arena.maxSize < 2 ^ 64 →
          (TakesElements sizeof rnd' fn element place k env s ↔
            s.size < 4 ∧ s.size < element.getSize)) := by
  constructor
  · intro name fields last packet m hvalue buffer size writerArena n s hwriter input arena mem
      hinput
    rw [Ty.IsValue, Fields.isValue_snoc] at hvalue
    have hlt := hinput.size_lt
    have hneed := hinput.need_le
    apply consumesRest_iff hvalue.2.1.1
    exact {
      lo := by
        simp only [Core.start]
        omega
      hi := by
        simp only [Core.start]
        omega
      offset_le := by
        simp only [Core.start]
        omega
      maxSize_lt := hinput.maxSize_lt }
  · intro fn element h place k env used huses hfresh s hlo hhi hroom hmax
    apply takesElements_iff sizeof rnd' fn h place k env huses hfresh _ hlo
    exact ⟨by omega, hhi, by omega, hmax⟩

section

/-- `packet_custom_payload` without its data. -/
def payloadFront : Fields := .cons "channel" Packets.string .nil

theorem payloadFront_accepted : (Ty.container payloadFront).Accepted false [] := by
  simp [payloadFront, Packets.string, Packets.varint, Ty.Accepted, Fields.Accepted, IsMember,
    Fields.names]

/-- A payload of `n` zeros for a channel with an empty name. -/
def payloadOf (n : ℤ) (l : Loc) : ℤ := if l = [.field "length", .field "data"] then n else 0

theorem payloadOf_isValue {n : ℤ} (hlo : 0 ≤ n) (hhi : n < 2 ^ 31) :
    (Ty.container (payloadFront.snoc "data" Packets.restBuffer)).IsValue (payloadOf n)
      ⟨[], []⟩ := by
  have hlength : payloadOf n ((Spot.sub ⟨[], []⟩ "data").sub "length").loc = n := rfl
  rw [Ty.IsValue, Fields.isValue_snoc]
  refine ⟨?_, ?_, ?_⟩
  · simp [payloadFront, Packets.string, Packets.varint, Fields.IsValue, Ty.IsValue, Native.InRange,
      CountInRange, Ty.isWide, countAt, Spot.sub, Loc.sub, Spot.loc, payloadOf]
  · rw [hlength]
    exact ⟨hlo, hhi⟩
  · intro j _
    have hzero : payloadOf n (((Spot.sub ⟨[], []⟩ "data").sub "elements").elem j).loc = 0 :=
      if_neg (by simp [Spot.loc_elem])
    rw [Ty.IsValue, hzero]
    exact ⟨le_rfl, by decide⟩

/-- A payload without data, and three bytes in front of which stands an array of larger
elements. -/
theorem restBuffer_consumes_empty :
    (∃ s, callFunction (fun _ => 1) (generateWrite (fun _ k => k) "custom_payload"
        (.container (payloadFront.snoc "data" Packets.restBuffer))) []
          (Core.start (fun _ => 0) 1 usedArena (payloadOf 0)) = some (((1 : ℕ) : ℤ), s) ∧
      ∀ input arena mem, (∀ l, mem l = 0) →
        Received (fun _ => 1) (payloadOf 0)
          (.container (payloadFront.snoc "data" Packets.restBuffer)) [] 1 s.buffer input 1 arena →
        ConsumesRest (fun _ => 1) (fun _ k => k) "custom_payload" payloadFront "data" []
          (payloadOf 0) input 1 arena mem) ∧
    TakesElements (fun _ => 4) (fun _ k => k) "ids" (.native .i32) ⟨.packet, []⟩ 0
      ⟨[], fun _ => 0⟩ (Core.start (fun _ => 0) 3 usedArena fun _ => 0) := by
  constructor
  · have hreturns : (callFunction (fun _ => 1) (generateWrite (fun _ k => k) "custom_payload"
        (.container (payloadFront.snoc "data" Packets.restBuffer))) []
          (Core.start (fun _ => 0) 1 usedArena (payloadOf 0))).map Prod.fst = some 1 := by
      decide +kernel
    obtain ⟨⟨ret, s⟩, hcall, rfl⟩ := Option.map_eq_some_iff.mp hreturns
    refine ⟨s, hcall, ?_⟩
    intro input arena mem hblank hinput
    apply ((restBuffer_consumes_iff (fun _ => 1) (fun _ k => k) fun _ k => k).1 "custom_payload"
      payloadFront "data" [] (payloadOf 0) (payloadOf_isValue (by decide) (by decide)) _ _ _ _ _
      hcall _ _ _ hinput).mpr
    refine ⟨rfl, ?_⟩
    refine frontConsumes_of_accepted (fun _ => []) payloadFront_accepted ?_ ?_ ?_ ?_ rfl
      (by decide) ?_ (fun l _ => hblank l) hcall hinput
    · simp [payloadFront, Packets.string, Packets.varint, Ty.Fresh, Fields.Fresh]
    · simp [payloadFront, Packets.string, Packets.varint, Ty.Fresh, Fields.Fresh]
    · simp [payloadFront, Packets.string, Ty.Resolves, Fields.Resolves, Ty.isSwitch]
    · have hwhole := payloadOf_isValue (n := 0) (by decide) (by decide)
      rw [Ty.IsValue, Fields.isValue_snoc] at hwhole
      exact hwhole.1
    · simp [payloadFront, Packets.string, Packets.varint, Ty.encode, Fields.encode, countAt,
        Native.bytes, Spot.sub, Loc.sub, Spot.loc, payloadOf,
        Base128.encode_of_lt (show 0 < 128 by decide)]
  · apply ((restBuffer_consumes_iff (fun _ => 4) (fun _ k => k) fun _ k => k).2 "ids"
      (.native .i32) rfl ⟨.packet, []⟩ 0 ⟨[], fun _ => 0⟩ [] (uses_sourceOf (.container .nil) [])
      List.not_mem_nil _ (by decide) (by decide) (by decide) (by decide)).mpr
    exact ⟨by decide, by decide⟩

/-- The data byte of a payload is left behind. -/
theorem restBuffer_leaves_data : ¬ ∀ (sizeof : Ty → ℕ) (rnd rnd' : String → ℕ → ℕ)
    (name : String) (fields : Fields) (last : String) (packet : Loc) (m : Loc → ℤ),
      (Ty.container (fields.snoc last Packets.restBuffer)).IsValue m ⟨packet, []⟩ →
      ∀ (buffer : ℕ → UInt8) (size : ℕ) (writerArena : TickArena) (n : ℕ) (s : Core),
        callFunction sizeof
          (generateWrite rnd name (.container (fields.snoc last Packets.restBuffer))) packet
            (Core.start buffer size writerArena m) = some ((n : ℤ), s) →
        ∀ (input : ℕ → UInt8) (arena : TickArena) (mem : Loc → ℤ),
          Received sizeof m (.container (fields.snoc last Packets.restBuffer)) packet n s.buffer
            input n arena →
          ConsumesRest sizeof rnd' name fields last packet m input n arena mem := by
  intro h
  have hwritten : (callFunction (fun _ => 1) (generateWrite (fun _ k => k) "custom_payload"
      (.container (payloadFront.snoc "data" Packets.restBuffer))) []
        (Core.start (fun _ => 0) 2 usedArena (payloadOf 1))).map
          (fun result => (result.1, result.2.buffer 0, result.2.buffer 1)) = some (2, 0, 0) := by
    decide +kernel
  obtain ⟨⟨ret, s⟩, hcall, hbytes⟩ := Option.map_eq_some_iff.mp hwritten
  simp only [Prod.mk.injEq] at hbytes
  obtain ⟨rfl, hfirst, hsecond⟩ := hbytes
  have hinput : Received (fun _ => 1) (payloadOf 1)
      (.container (payloadFront.snoc "data" Packets.restBuffer)) [] 2 s.buffer (fun _ => 0) 2
        usedArena := {
    starts := by
      intro i hi
      match i, hi with
      | 0, _ => exact hfirst.symm
      | 1, _ => exact hsecond.symm
    size_le := le_refl 2
    size_lt := by decide
    need_le := by decide
    maxSize_lt := by decide }
  obtain ⟨s', hread, -⟩ := h (fun _ => 1) (fun _ k => k) (fun _ k => k) "custom_payload"
    payloadFront "data" [] (payloadOf 1) (payloadOf_isValue (by decide) (by decide)) _ _ _ _ _
    hcall _ _ (fun _ => 0) hinput
  have hreturns : (callFunction (fun _ => 1) (generateRead (fun _ k => k) "custom_payload"
      (.container (payloadFront.snoc "data" Packets.restBuffer))) []
        (Core.start (fun _ => 0) 2 usedArena fun _ => 0)).map Prod.fst = some 1 := by
    decide +kernel
  rw [hread] at hreturns
  simp at hreturns

end

end CmcServer.ProtoDef
