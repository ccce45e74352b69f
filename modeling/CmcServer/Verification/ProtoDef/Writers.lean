import CmcServer.Verification.ProtoDef.Bounds
import CmcServer.Verification.ProtoDef.Layout
import CmcServer.Verification.ProtoDef.Statements
import CmcServer.Verification.Varint.Correctness

/-! # Generated writers follow the layout

A judgement about statements and pieces that has a rule for each kind of piece holds of a
generated writer and the layout of its value. -/

namespace CmcServer.ProtoDef

open Bytes EarlyReturn

/-! ## Bytes of fixed size -/

/-- A statement that writes `bytes` without a check. -/
structure Wrote (bytes : List UInt8) (s s' : Core) : Prop where
  data : s'.data = s.data + bytes.length
  size : s'.size = s.size
  mem : s'.mem = s.mem
  buffer : s'.buffer = store s.buffer s.data bytes
  touched : s'.touched = (s.touch bytes.length).touched

theorem Wrote.nil (s : Core) : Wrote [] s s :=
  ⟨rfl, rfl, rfl, (store_nil s.buffer s.data).symm, rfl⟩

theorem Wrote.append {xs ys : List UInt8} {s s' s'' : Core} (hx : Wrote xs s s')
    (hy : Wrote ys s' s'') : Wrote (xs ++ ys) s s'' where
  data := by
    rw [hy.data, hx.data, List.length_append, Nat.add_assoc]
  size := hy.size.trans hx.size
  mem := hy.mem.trans hx.mem
  buffer := by
    rw [hy.buffer, hx.buffer, hx.data, store_append]
  touched := by
    have htouched := hx.touched
    rw [Core.touch_touched] at htouched
    rw [hy.touched, Core.touch_touched, Core.touch_touched, htouched, hx.data, List.length_append]
    split <;> split <;> split <;> omega
/-- A statement that writes `bytes` and takes `n` from `size`. -/
structure Charged (n : ℤ) (bytes : List UInt8) (s s' : Core) : Prop where
  wrote : Wrote bytes s { s' with size := s.size }
  size : s'.size = toInt32 (s.size - n)

section

variable (sizeof : Ty → ℕ) (rnd : String → ℕ → ℕ) (nbt : Loc → List UInt8)

/-- The code of a type of fixed size writes all of it, without a check. -/
theorem exec_fixed_write (t : Ty) (fn : String) (h : t.isVariable = false) (place : LVal) (k : ℕ)
    (env : Env) (s : Core) :
    ∃ s', exec sizeof (genCode .write rnd fn t place k) env s = .next s' ∧
      Wrote (t.encode nbt s.mem (place.spot env)) s s' := by
  induction t, h using Ty.fixed_induction generalizing fn place k env with
  | native n h =>
      rw [genCode_native_fixed _ _ _ _ _ h, Ty.encode, LVal.loc_spot, native_bytes_fixed nbt _ h]
      exact ⟨_, rfl, rfl, rfl, rfl, rfl, rfl⟩
  | typedef name base hbase h ih =>
      rcases ih name (sourceOf base) 0 ⟨place.loc env, fun _ => 0⟩ with ⟨s', hs', hwrote⟩
      rw [spot_sourceOf] at hwrote
      have hlen := length_encode_fixed nbt s.mem base hbase ⟨place.loc env, []⟩
      rw [genCode_typedef_fixed _ _ _ _ _ _ hbase, fixedSourceOf, exec, hs', Ty.encode,
        LVal.loc_spot]
      refine ⟨_, rfl, ?_, rfl, hwrote.mem, hwrote.buffer, hwrote.touched⟩
      simp only
      omega
  | bitfield fields h =>
      rw [Ty.encode, LVal.loc_spot]
      exact ⟨_, rfl, rfl, rfl, rfl, rfl, rfl⟩

end

theorem Wrote.charged {n : ℤ} {bytes : List UInt8} {s s' : Core} (h : Wrote bytes s s') :
    Charged n bytes s { s' with size := toInt32 (s'.size - n) } where
  wrote := ⟨h.data, rfl, h.mem, h.buffer, h.touched⟩
  size := by rw [h.size]

theorem Wrote.charged_before {n : ℤ} {bytes : List UInt8} {s s' : Core}
    (h : Wrote bytes { s with size := toInt32 (s.size - n) } s') : Charged n bytes s s' where
  wrote := ⟨h.data, rfl, h.mem, h.buffer, h.touched⟩
  size := h.size

theorem writeVariable_varint {n : Native} (hn : n ≠ .nbt) {l : Loc} {s : Core}
    (hlo : 0 ≤ s.mem l) (hhi : s.mem l < 2 ^ 63) :
    writeVariable n l s =
      .next { (s.writeBytes (Base128.encode (s.mem l).toNat)).advance
          (Base128.encode (s.mem l).toNat).length with
        size := toInt32 (s.size - (Base128.encode (s.mem l).toNat).length) } := by
  have hvalue : ((s.mem l).toNat : ℤ) = s.mem l := Int.toNat_of_nonneg hlo
  have hwrite : protocolWriteVarlong (s.mem l) = some (Base128.encode (s.mem l).toNat) := by
    have h := protocolWriteVarint_nat (n := (s.mem l).toNat) (by omega)
    rwa [hvalue, protocolWriteVarint] at h
  rw [writeVariable, if_neg hn, hwrite]


/-! ## Arrays -/

section

variable {m : Loc → ℤ} {env : Env} {place : LVal} {used : List ℕ} {i : ℕ} {wide : Bool}

theorem len_value (huses : place.Uses used) (hi : i ∉ used) {s : Core}
    (hcount : CountInRange wide (s.mem ((place.spot env).sub "length").loc)) (j : ℤ) :
    (Len.mk (accessField place "length") wide).value (env.bind i j) s =
      countAt s.mem (place.spot env) := by
  have hloc : (accessField place "length").loc (env.bind i j) =
      ((place.spot env).sub "length").loc := by
    rw [loc_accessField, LVal.loc_bind huses hi, Spot.loc_sub, LVal.loc_spot]
  rcases hcount with ⟨hlo, hhi⟩
  rw [Len.value, hloc, countAt, Int.toNat_of_nonneg hlo]
  cases wide with
  | true =>
      simp only [if_true] at hhi ⊢
      exact toInt64_of_range (by omega) hhi
  | false =>
      simp only [if_false, Bool.false_eq_true] at hhi ⊢
      exact toInt32_of_range (by omega) hhi

theorem countAt_lt {p : Spot} (hcount : CountInRange wide (m (p.sub "length").loc)) :
    countAt m p < 2 ^ 63 := by
  rcases hcount with ⟨hlo, hhi⟩
  rw [countAt]
  cases wide with
  | true =>
      simp only [if_true] at hhi
      omega
  | false =>
      simp only [if_false, Bool.false_eq_true] at hhi
      omega

variable (sizeof : Ty → ℕ) (rnd : String → ℕ → ℕ) (nbt : Loc → List UInt8)

/-- The loop over elements of fixed size writes all of them. -/
theorem exec_fixed_loop {t : Ty} (h : t.isVariable = false) (fn : String)
    (huses : place.Uses used) (hi : i ∉ used) (k : ℕ) {s : Core}
    (hcount : CountInRange wide (s.mem ((place.spot env).sub "length").loc)) :
    ∃ s', exec sizeof (.loop i ⟨accessField place "length", wide⟩
        (genCode .write rnd fn t ((accessField place "elements").at i) k)) env s = .next s' ∧
      Wrote (elementsBytes nbt s.mem t (place.spot env)) s s' := by
  set n := countAt s.mem (place.spot env) with hn
  set bytes := fun j => t.encode nbt s.mem (((place.spot env).sub "elements").elem j) with hbytes
  have hspot : ∀ j : ℕ, ((accessField place "elements").at i).spot (env.bind i j) =
      ((place.spot env).sub "elements").elem j := by
    intro j
    rw [LVal.spot_at (huses.accessField _) hi, spot_accessField]
  have hmore : ∀ (j : ℕ) (s₁ : Core), Wrote ((List.range j).flatMap bytes) s s₁ →
      (decide ((j : ℤ) < (Len.mk (accessField place "length") wide).value (env.bind i j) s₁) = true
        ↔ j < n) := by
    intro j s₁ hwrote
    rw [decide_eq_true_iff, len_value huses hi (by rwa [hwrote.mem]), hwrote.mem]
    omega
  have hround : ∀ (j : ℕ) (s₁ : Core), j < n → Wrote ((List.range j).flatMap bytes) s s₁ →
      FallsTo (exec sizeof (genCode .write rnd fn t ((accessField place "elements").at i) k)
        (env.bind i j)) s₁ (Wrote ((List.range (j + 1)).flatMap bytes) s) := by
    intro j s₁ _ hwrote
    rcases exec_fixed_write sizeof rnd nbt t fn h ((accessField place "elements").at i) k
      (env.bind i j) s₁ with ⟨s₂, hs₂, hwrote₂⟩
    rw [hspot, hwrote.mem] at hwrote₂
    refine ⟨s₂, hs₂, ?_⟩
    rw [List.range_succ, List.flatMap_append, List.flatMap_singleton]
    exact hwrote.append hwrote₂
  have hfuel := lt_loopFuel
  have hlt := countAt_lt hcount
  rw [exec_loop]
  exact FallsTo.loop hmore hround (by omega) (Nat.zero_le n) (Wrote.nil s)

theorem product_eq_roomOf {s : Core}
    (hcount : CountInRange wide (s.mem ((place.spot env).sub "length").loc)) (n : ℤ) :
    (Len.mk (accessField place "length") wide).product env s n =
      roomOf wide (s.mem ((place.spot env).sub "length").loc) n := by
  rcases hcount with ⟨hlo, hhi⟩
  rw [Len.product, roomOf, Len.value, loc_member]
  cases wide with
  | true =>
      simp only [if_true] at hhi ⊢
      rw [toInt64_of_range (by omega) hhi]
  | false =>
      simp only [if_false, Bool.false_eq_true] at hhi ⊢
      rw [toInt32_of_range (by omega) hhi]

/-- The room check of the elements is right unless their product overflows. -/
theorem roomOf_eq_length {t : Ty} (h : t.isVariable = false) {p : Spot}
    (hcount : CountInRange wide (m (p.sub "length").loc))
    (hlt : (elementsBytes nbt m t p).length < 2 ^ 31) :
    roomOf wide (m (p.sub "length").loc) t.getSize = (elementsBytes nbt m t p).length := by
  have hlen := length_elementsBytes nbt m h p
  have hvalue : (countAt m p : ℤ) = m (p.sub "length").loc := Int.toNat_of_nonneg hcount.1
  rw [hvalue] at hlen
  rw [roomOf, ← hlen]
  split
  · exact toInt64_of_range (by omega) (by omega)
  · exact toInt32_of_range (by omega) (by omega)

end

/-! ## Rules -/

/-- A judgement about a statement and the pieces that it writes, from the memory `m`. -/
structure WriterRules (m : Loc → ℤ) (sizeof : Ty → ℕ)
    (J : Cmd → Env → List Piece → Prop) : Prop where
  congr {c d : Cmd} {env : Env} {xs : List Piece} (h : exec sizeof c env = exec sizeof d env) :
    J d env xs → J c env xs
  skip (env : Env) : J .skip env []
  seq {c d : Cmd} {env : Env} {xs ys : List Piece} :
    J c env xs → J d env ys → J (.seq c d) env (xs ++ ys)
  ite {test : Test} {c d : Cmd} {env : Env} {xs : List Piece} {b : Bool}
    (htest : ∀ s, s.mem = m → test.holds env s = b) :
    (b = true → J c env xs) → (b = false → J d env xs) → J (.ite test c d) env xs
  checked {n : ℤ} {bytes : List UInt8} {c : Cmd} {env : Env} (hlen : (bytes.length : ℤ) = n)
    (hcode : ∀ s, s.mem = m → ∃ s', exec sizeof c env s = .next s' ∧ Charged n bytes s s') :
    J (.seq (.checkSize n) c) env [.checked n bytes]
  reserved {n : ℤ} (env : Env) (hn : 0 ≤ n) :
    J (.seq (.checkSize n) (.subSize n)) env [.reserved n]
  dropped (env : Env) (bytes : List UInt8) : J .skip env [.dropped bytes]
  varint {n : Native} {place : LVal} {env : Env} (hn : n ≠ .nbt) (hlo : 0 ≤ m (place.loc env))
    (hhi : m (place.loc env) < 2 ^ 63) :
    J (.variable .write n place) env [.varint (Base128.encode (m (place.loc env)).toNat)]
  nbt (place : LVal) (env : Env) (bytes : List UInt8) :
    J (.variable .write .nbt place) env [.nbt bytes]
  call {body : Cmd} {place : LVal} {env : Env} {xs : List Piece}
    (hle : advanceBy xs ≤ usedBy xs) :
    J body ⟨place.loc env, fun _ => 0⟩ xs → J (.call body place) env (xs ++ [returnedBy xs])
  /-- The product of a room check is wrong only where no buffer has room for the bytes. -/
  counted {length : Len} {n room : ℤ} {bytes : List UInt8} {c : Cmd} {env : Env}
    (hproduct : ∀ s, s.mem = m → length.product env s n = room)
    (hlen : bytes.length < 2 ^ 31 → room = bytes.length)
    (hcode : ∀ s, s.mem = m → ∃ s', exec sizeof c env s = .next s' ∧ Wrote bytes s s') :
    J (.seq (.seq (.checkCount length n) (.subCount length n)) c) env [.checked room bytes]
  loop {i n : ℕ} {length : Len} {body : Cmd} {env : Env} {pieces : ℕ → List Piece}
    (hmore : ∀ (j : ℕ) s, s.mem = m →
      (decide ((j : ℤ) < length.value (env.bind i j) s) = true ↔ j < n))
    (hn : n < 2 ^ 63) :
    (∀ j < n, J body (env.bind i j) (pieces j)) →
      J (.loop i length body) env ((List.range n).flatMap pieces)

section

variable {m : Loc → ℤ} {sizeof : Ty → ℕ} {J : Cmd → Env → List Piece → Prop}
  (rules : WriterRules m sizeof J) (rnd : String → ℕ → ℕ) (nbt : Loc → List UInt8)

include rules

namespace WriterRules

variable {env : Env} {c d e : Cmd} {xs : List Piece}

theorem assoc (h : J (.seq (.seq c d) e) env xs) : J (.seq c (.seq d e)) env xs :=
  rules.congr (exec_seq_assoc sizeof env c d e) h

theorem assoc_symm (h : J (.seq c (.seq d e)) env xs) : J (.seq (.seq c d) e) env xs :=
  rules.congr (exec_seq_assoc sizeof env c d e).symm h

theorem skip_seq (h : J c env xs) : J (.seq .skip c) env xs :=
  rules.congr (exec_skip_seq sizeof env c) h

theorem seq_skip_seq (h : J (.seq c d) env xs) : J (.seq c (.seq .skip d)) env xs :=
  rules.congr (exec_seq_skip_seq sizeof env c d) h

theorem fixed {t : Ty} (h : t.isVariable = false) (fn : String) (place : LVal) (k : ℕ)
    (env : Env) :
    J (.seq (reserve t) (genCode .write rnd fn t place k)) env
      [.checked t.getSize (t.encode nbt m (place.spot env))] := by
  rw [reserve_fixed h]
  apply rules.assoc_symm
  refine rules.checked (length_encode_fixed nbt m t h _) ?_
  rintro s rfl
  rcases exec_fixed_write sizeof rnd nbt t fn h place k env
    { s with size := toInt32 (s.size - t.getSize) } with ⟨s', hs', hwrote⟩
  exact ⟨s', by simp only [exec, Outcome.next_bind, hs'], hwrote.charged_before⟩

theorem reserving (t : Ty) (fn : String) (place : LVal) (k : ℕ) (env : Env)
    (hvariable : t.isVariable = true →
      J (genCode .write rnd fn t place k) env (t.layout nbt m (place.spot env))) :
    J (.seq (reserve t) (genCode .write rnd fn t place k)) env
      (t.layout nbt m (place.spot env)) := by
  cases h : t.isVariable with
  | true =>
      rw [reserve_variable h]
      exact rules.skip_seq (hvariable h)
  | false =>
      rw [layout_fixed nbt m h]
      exact rules.fixed rnd nbt h fn place k env

theorem elements {t : Ty} (h : t.isVariable = false) (fn : String) {place : LVal}
    {used : List ℕ} {i : ℕ} {wide : Bool} (huses : place.Uses used) (hi : i ∉ used) (k : ℕ)
    {env : Env} (hcount : CountInRange wide (m ((place.spot env).sub "length").loc)) :
    J (.seq (reserveElements ⟨accessField place "length", wide⟩ t)
        (.loop i ⟨accessField place "length", wide⟩
          (genCode .write rnd fn t ((accessField place "elements").at i) k))) env
      [.checked (roomOf wide (m ((place.spot env).sub "length").loc) t.getSize)
        (elementsBytes nbt m t (place.spot env))] := by
  rw [reserveElements_fixed _ h]
  refine rules.counted ?_ (roomOf_eq_length nbt h hcount) ?_
  · rintro s rfl
    exact product_eq_roomOf hcount _
  · rintro s rfl
    exact exec_fixed_loop sizeof rnd nbt h fn huses hi k hcount

theorem native {n : Native} {place : LVal} (hvar : (Ty.native n).isVariable = true)
    (hvalue : (Ty.native n).IsValue m (place.spot env)) :
    J (.variable .write n place) env ((Ty.native n).layout nbt m (place.spot env)) := by
  rw [Ty.layout, if_pos hvar, LVal.loc_spot]
  rw [Ty.IsValue, LVal.loc_spot] at hvalue
  by_cases hn : n = .nbt
  · subst hn
    exact rules.nbt _ _ _
  · rw [if_neg hn]
    cases n with
    | varint => exact rules.varint hn hvalue.1 (by have := hvalue.2; omega)
    | varlong => exact rules.varint hn hvalue.1 hvalue.2
    | nbt => exact absurd rfl hn
    | _ => exact absurd hvar (by decide)

/-- The code of the inner type is dropped, so nothing is asked of it. -/
theorem option (base : Ty) (fn : String) (place : LVal) (k : ℕ) (env : Env) :
    J (genCode .write rnd fn (.option base) place k) env
      ((Ty.option base).layout nbt m (place.spot env)) := by
  rw [genCode, Ty.layout, ← List.singleton_append, ← loc_member]
  apply rules.assoc
  apply rules.assoc
  apply rules.seq
  · have hone : ((Native.u8.encode (m ((accessField place "present").loc env))).length : ℤ) = 1 :=
      rfl
    apply rules.assoc_symm
    apply rules.checked hone
    rintro s rfl
    exact ⟨_, rfl, ⟨rfl, rfl, rfl, rfl, rfl⟩, rfl⟩
  · refine rules.ite (b := decide (m ((accessField place "present").loc env) ≠ 0)) ?_ ?_ ?_
    · rintro s rfl
      rfl
    · intro hpresent
      rw [if_neg (of_decide_eq_true hpresent)]
      cases h : base.isVariable with
      | true =>
          rw [reserve_variable h]
          exact rules.dropped env _
      | false =>
          have hlen := length_encode_fixed nbt m base h ((place.spot env).sub "value")
          rw [reserve_fixed h]
          exact rules.reserved env (by omega)
    · intro habsent
      rw [if_pos (by simpa using habsent)]
      exact rules.skip env

end WriterRules

mutual

theorem Ty.writes (t : Ty) (hbuilt : t.Built) (hvar : t.isVariable = true) {fn : String}
    {used : List ℕ} {k : ℕ} (hfresh : t.Fresh rnd fn used k) {place : LVal}
    (huses : place.Uses used) (hshaped : place.Shaped) (env : Env)
    (hvalue : t.IsValue m (place.spot env)) :
    J (genCode .write rnd fn t place k) env (t.layout nbt m (place.spot env)) := by
  cases t with
  | native n =>
      rw [genCode_native_variable _ _ _ _ _ hvar]
      exact rules.native nbt hvar hvalue
  | typedef name base =>
      have hbase : base.isVariable = true := by simpa using hvar
      rw [genCode_typedef_variable _ _ _ _ _ _ hbase, Ty.layout, if_pos hbase, LVal.loc_spot]
      rw [Ty.IsValue, LVal.loc_spot] at hvalue
      apply rules.call (base.advance_le_used nbt m _)
      have hbody := base.writes hbuilt hbase hfresh (uses_sourceOf base []) (shaped_sourceOf base)
        ⟨place.loc env, fun _ => 0⟩ (by rwa [spot_sourceOf])
      rwa [spot_sourceOf] at hbody
  | void => exact rules.skip env
  | container fields =>
      rw [genCode, Ty.layout]
      exact fields.writes hbuilt hfresh huses hshaped hvalue
  | «switch» up compareTo cases =>
      rw [genCode, Ty.layout, ← loc_sibling hshaped]
      rw [Ty.IsValue, ← loc_sibling hshaped] at hvalue
      exact cases.writes hbuilt hfresh huses hshaped hvalue
  | array count element =>
      rcases hbuilt with ⟨hcount, helement⟩
      rcases hfresh with ⟨hfcount, hi, hfelement⟩
      rcases hvalue with ⟨hvcount, hrange, hvelement⟩
      rw [genCode, Ty.layout]
      apply rules.assoc
      have hlength := rules.reserving rnd nbt count fn (accessField place "length") k env
        fun hcvar =>
          count.writes hcount hcvar hfcount (huses.accessField _) (hshaped.accessField _) env
            (by rwa [spot_accessField])
      rw [spot_accessField] at hlength
      refine rules.seq hlength ?_
      cases helem : element.isVariable with
      | true =>
          rw [reserveElements_variable _ helem, if_pos rfl]
          apply rules.skip_seq
          apply rules.skip_seq
          refine rules.loop (fun j s hs => ?_) (countAt_lt hrange) fun j hj => ?_
          · subst hs
            rw [decide_eq_true_iff, len_value huses hi hrange]
            omega
          · have helems := element.writes helement helem hfelement
              ((huses.accessField "elements").at _) ((hshaped.accessField "elements").at _)
              (env.bind (rnd fn (k + count.draws)) j)
            rw [LVal.spot_at (huses.accessField _) hi, spot_accessField] at helems
            exact helems (hvelement j hj)
      | false =>
          rw [if_neg Bool.false_ne_true]
          apply rules.seq_skip_seq
          exact rules.elements rnd nbt helem fn huses hi _ hrange
  | rest element =>
      rcases hfresh with ⟨hi, hfelement⟩
      rcases hvalue with ⟨hrange, hvelement⟩
      have hu8 : (Ty.native .u8).isVariable = false := by decide
      have helement : element = .native .u8 := hbuilt
      subst helement
      rw [genCode, Ty.layout, hu8, if_neg Bool.false_ne_true]
      exact rules.elements rnd nbt hu8 fn huses hi _ hrange
  | bitfield fields =>
      rw [bitfield_fixed hbuilt] at hvar
      cases hvar
  | option base =>
      exact rules.option rnd nbt base fn place k env

theorem Fields.writes (fields : Fields) (hbuilt : fields.Built) {fn : String} {used : List ℕ}
    {k : ℕ} (hfresh : fields.Fresh rnd fn used k) {place : LVal} (huses : place.Uses used)
    (hshaped : place.Shaped) {env : Env} (hvalue : fields.IsValue m (place.spot env)) :
    J (genFields .write rnd fn none fields place k) env
      (fields.layout nbt m false (place.spot env)) := by
  cases fields with
  | nil => exact rules.skip env
  | cons name t fields =>
      rcases hbuilt with ⟨hbt, hbrest⟩
      rcases hfresh with ⟨hft, hfrest⟩
      rcases hvalue with ⟨hvt, hvrest⟩
      cases h : t.isVariable with
      | true =>
          have ht := t.writes hbt h hft (huses.accessField name) (hshaped.accessField name) env
            (by rwa [spot_accessField])
          rw [spot_accessField] at ht
          simp only [genFields, Fields.layout, h, if_true]
          exact rules.skip_seq (rules.seq ht (fields.writes hbrest hfrest huses hshaped hvrest))
      | false =>
          have hlen := length_runBytes nbt m (Fields.cons name t fields) (place.spot env)
          simp only [genFields, Fields.layout, Fields.runBytes, h, if_false,
            Bool.false_eq_true] at hlen ⊢
          refine fields.writes_run hbrest hfrest huses hshaped hvrest hlen fun s hs => ?_
          have hfixed := exec_fixed_write sizeof rnd nbt t fn h (accessField place name) k env s
          rwa [spot_accessField, hs] at hfixed

/-- The rest of a run of fields of fixed size, behind the code of those at its front. -/
theorem Fields.writes_run (fields : Fields) (hbuilt : fields.Built) {fn : String}
    {used : List ℕ} {k : ℕ} (hfresh : fields.Fresh rnd fn used k) {place : LVal}
    (huses : place.Uses used) (hshaped : place.Shaped) {env : Env}
    (hvalue : fields.IsValue m (place.spot env)) {total : ℤ} {c : Cmd} {front : List UInt8}
    (hlen : ((front ++ fields.runBytes nbt m (place.spot env)).length : ℤ) = total)
    (hcode : ∀ s, s.mem = m → ∃ s', exec sizeof c env s = .next s' ∧ Wrote front s s') :
    J (.seq (.checkSize total) (.seq c (genFields .write rnd fn (some total) fields place k))) env
      (.checked total (front ++ fields.runBytes nbt m (place.spot env)) ::
        fields.layout nbt m true (place.spot env)) := by
  have hend : ((front ++ []).length : ℤ) = total →
      J (.seq (.checkSize total) (.seq c (.subSize total))) env
        [.checked total (front ++ [])] := by
    intro hlen
    refine rules.checked hlen fun s hs => ?_
    rcases hcode s hs with ⟨s', hs', hwrote⟩
    rw [List.append_nil]
    exact ⟨_, by rw [exec, hs', Outcome.next_bind, exec], hwrote.charged⟩
  cases fields with
  | nil => exact hend hlen
  | cons name t fields =>
      rcases hbuilt with ⟨hbt, hbrest⟩
      rcases hfresh with ⟨hft, hfrest⟩
      rcases hvalue with ⟨hvt, hvrest⟩
      cases h : t.isVariable with
      | true =>
          have ht := t.writes hbt h hft (huses.accessField name) (hshaped.accessField name) env
            (by rwa [spot_accessField])
          rw [spot_accessField] at ht
          simp only [genFields, Fields.layout, Fields.runBytes, h, if_true] at hlen ⊢
          apply rules.assoc
          apply rules.assoc
          exact rules.seq (rules.assoc_symm (hend hlen))
            (rules.seq ht (fields.writes hbrest hfrest huses hshaped hvrest))
      | false =>
          simp only [genFields, Fields.layout, Fields.runBytes, h, if_false,
            Bool.false_eq_true] at hlen ⊢
          rw [← List.append_assoc] at hlen ⊢
          have hrun := fields.writes_run hbrest hfrest huses hshaped hvrest
            (c := .seq c (genCode .write rnd fn t (accessField place name) k)) hlen ?_
          · refine rules.congr ?_ hrun
            funext s
            simp only [exec, Outcome.bind_assoc]
          · intro s hs
            rcases hcode s hs with ⟨s₁, hs₁, hwrote₁⟩
            rcases exec_fixed_write sizeof rnd nbt t fn h (accessField place name) k env s₁ with
              ⟨s₂, hs₂, hwrote₂⟩
            rw [spot_accessField, hwrote₁.mem, hs] at hwrote₂
            exact ⟨s₂, by rw [exec, hs₁, Outcome.next_bind, hs₂], hwrote₁.append hwrote₂⟩

theorem Cases.writes (cases : Cases) (hbuilt : cases.Built) {fn : String} {used : List ℕ}
    {k : ℕ} (hfresh : cases.Fresh rnd fn used k) {place : LVal} (huses : place.Uses used)
    (hshaped : place.Shaped) {discriminant : LVal} {env : Env}
    (hvalue : cases.IsValue m (discriminant.loc env) (place.spot env)) :
    J (genCases .write rnd fn discriminant cases place k) env
      (cases.layout nbt m (discriminant.loc env) (place.spot env)) := by
  cases cases with
  | nil => exact hvalue.elim
  | cons name t value cases =>
      rcases hbuilt with ⟨hbt, hbrest⟩
      rcases hfresh with ⟨hft, hfrest⟩
      rw [Cases.IsValue] at hvalue
      have hcode : value.holds m (discriminant.loc env) = true →
          J (caseCode t (genCode .write rnd fn t (accessField place name) k)) env
            ((Cases.cons name t value cases).layout nbt m (discriminant.loc env)
              (place.spot env)) := by
        intro hholds
        rw [if_pos hholds] at hvalue
        rw [Cases.layout, if_pos hholds, caseCode, ← spot_accessField]
        rw [← spot_accessField] at hvalue
        cases t with
        | void => exact rules.skip env
        | _ =>
            exact rules.reserving rnd nbt _ fn _ k env fun hvar =>
              Ty.writes _ hbt hvar hft (huses.accessField name) (hshaped.accessField name) env
                hvalue
      have hrest : value.holds m (discriminant.loc env) = false →
          J (genCases .write rnd fn discriminant cases place (k + t.draws)) env
            ((Cases.cons name t value cases).layout nbt m (discriminant.loc env)
              (place.spot env)) := by
        intro hholds
        rw [if_neg (by simp [hholds])] at hvalue
        rw [Cases.layout, if_neg (by simp [hholds])]
        exact cases.writes hbrest hfrest huses hshaped hvalue
      have hchoice : value ≠ .default → J (.ite (caseTest discriminant value)
          (caseCode t (genCode .write rnd fn t (accessField place name) k))
          (genCases .write rnd fn discriminant cases place (k + t.draws))) env
          ((Cases.cons name t value cases).layout nbt m (discriminant.loc env)
            (place.spot env)) := by
        intro hdefault
        refine rules.ite (fun s hs => ?_) hcode hrest
        rw [caseTest_holds hdefault, hs]
      cases value with
      | default =>
          rw [genCases]
          exact hcode rfl
      | int value =>
          simp only [genCases]
          exact hchoice (by simp)
      | bool value =>
          simp only [genCases]
          exact hchoice (by simp)
      | string value =>
          simp only [genCases]
          exact hchoice (by simp)

end

end

end CmcServer.ProtoDef
