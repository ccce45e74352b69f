import CmcServer.Verification.ProtoDef.Decoding

/-! # Generated readers undo the encoding

Every accepted type, on the encoding of a value: fixed fields under one check, elements in a loop,
cases by a discriminant that has been copied before. -/

namespace CmcServer.ProtoDef

open Bytes EarlyReturn

section

variable (sizeof : Ty → ℕ) (rnd : String → ℕ → ℕ) (nbt : Loc → List UInt8) {m : Loc → ℤ}
  {env : Env} {s : Core}

/-! ## Types of fixed size -/

/-- The code of a type of fixed size reads all of it, without a check. -/
theorem decodes_fixed_type (t : Ty) {siblings : List (String × Ty)} (fn : String)
    (hacc : t.Accepted false siblings) (h : t.isVariable = false) (place : LVal) (k : ℕ)
    (env : Env) (hvalue : t.IsValue m (place.spot env)) (s : Core) :
    Decodes sizeof m (genCode .read rnd fn t place k) env s (t.encode nbt m (place.spot env)) 0
      (t.need sizeof m (place.spot env)) (t.scalars m (place.spot env)) := by
  cases t, h using Ty.fixed_induction with
  | native n h =>
      rw [Ty.IsValue, LVal.loc_spot] at hvalue
      rw [genCode_native_fixed _ _ _ _ _ h, Ty.encode, Ty.need, Ty.scalars, LVal.loc_spot,
        native_bytes_fixed nbt m h]
      exact decodes_fixed h place hvalue
  | typedef name base hbase h => exact absurd hacc.1 (hbase ▸ Bool.false_ne_true)
  | bitfield fields h => exact hacc.elim

/-- A type with the room check in front of it. -/
theorem decodes_reserved (t : Ty) {siblings : List (String × Ty)} (fn : String)
    (hacc : t.Accepted false siblings) (place : LVal) (k : ℕ) (env : Env)
    (hvalue : t.IsValue m (place.spot env)) (s : Core)
    (hvariable : t.isVariable = true →
      Decodes sizeof m (genCode .read rnd fn t place k) env s (t.encode nbt m (place.spot env))
        (t.encode nbt m (place.spot env)).length (t.need sizeof m (place.spot env))
        (t.scalars m (place.spot env))) :
    Decodes sizeof m (.seq (reserve t) (genCode .read rnd fn t place k)) env s
      (t.encode nbt m (place.spot env)) (t.encode nbt m (place.spot env)).length
      (t.need sizeof m (place.spot env)) (t.scalars m (place.spot env)) := by
  cases h : t.isVariable with
  | true =>
      rw [reserve_variable h]
      exact (hvariable h).skip_seq
  | false =>
      have hlen := length_encode_fixed nbt m t h (place.spot env)
      rw [reserve_fixed h]
      apply Decodes.assoc
      apply Decodes.check (le_of_eq hlen.symm)
      rw [← hlen]
      exact Decodes.pay fun s => decodes_fixed_type sizeof rnd nbt t fn hacc h place k env hvalue s

/-! ## Calls -/

theorem decodes_call {body : Cmd} {place : LVal} {bytes : List UInt8} {need : ℕ} {ls : List Loc}
    (hbody : Decodes sizeof m body ⟨place.loc env, fun _ => 0⟩ s bytes bytes.length need ls) :
    Decodes sizeof m (.call body place) env s bytes bytes.length need ls := by
  intro hs
  have hle := hs.paid_le
  have hlt := hs.size_lt
  rcases hbody hs with ⟨s', hs', hdecoded⟩
  have hsize := hdecoded.size
  have hdiff : s.size - s'.size = bytes.length := by omega
  have hret : toInt32 bytes.length = bytes.length := toInt32_of_range (by omega) (by omega)
  have hnext : toInt32 (s.size - bytes.length) = s.size - bytes.length :=
    toInt32_of_range (by omega) (by omega)
  refine ⟨{ s' with data := s.data + bytes.length, size := toInt32 (s.size - bytes.length) },
    ?_, ?_⟩
  · rw [exec, hs', finish, hdiff, hret, resume, if_neg (by omega), Int.toNat_natCast]
  · exact ⟨rfl, hnext, hdecoded.buffer, hdecoded.arena, hdecoded.mem⟩

/-! ## Arrays -/

section

variable {place : LVal} {used : List ℕ} {i : ℕ}

theorem length_value {l : Loc} (hloc : (accessField place "length").loc env = l)
    (hlength : s.mem l = m l) (hcount : CountInRange false (m l)) :
    (Len.mk (accessField place "length") false).value env s = (m l).toNat := by
  rcases hcount with ⟨hlo, hhi⟩
  simp only [if_false, Bool.false_eq_true] at hhi
  rw [Len.value, hloc, hlength, Int.toNat_of_nonneg hlo, if_neg (by simp)]
  exact toInt32_of_range (by omega) hhi

theorem decodes_loop {body : Cmd} {bytes : ℕ → List UInt8} {paid need : ℕ → ℕ}
    {ls : ℕ → List Loc} (huses : place.Uses used) (hi : i ∉ used)
    (hcount : CountInRange false (m ((place.spot env).sub "length").loc))
    (hlength : s.mem ((place.spot env).sub "length").loc =
      m ((place.spot env).sub "length").loc)
    (hdisjoint : ∀ j j', j ≠ j' → (ls j).Disjoint (ls j'))
    (hbody : ∀ j < countAt m (place.spot env), ∀ s,
      Decodes sizeof m body (env.bind i j) s (bytes j) (paid j) (need j) (ls j)) :
    Decodes sizeof m (.loop i ⟨accessField place "length", false⟩ body) env s
      ((List.range (countAt m (place.spot env))).flatMap bytes)
      ((List.range (countAt m (place.spot env))).map paid).sum
      ((List.range (countAt m (place.spot env))).map need).sum
      ((List.range (countAt m (place.spot env))).flatMap ls) := by
  set n := countAt m (place.spot env) with hn
  have hmore : ∀ (j : ℕ) (s : Core), s.mem ((place.spot env).sub "length").loc =
        m ((place.spot env).sub "length").loc →
      (decide ((j : ℤ) < (Len.mk (accessField place "length") false).value (env.bind i j) s) = true
        ↔ j < n) := by
    intro j s hs
    have hloc : (accessField place "length").loc (env.bind i j) =
        ((place.spot env).sub "length").loc := by
      rw [LVal.loc_bind (huses.accessField _) hi, loc_member]
    rw [decide_eq_true_iff, length_value hloc hs hcount, Nat.cast_lt, hn, countAt]
  -- induction on the rounds that are left, with fuel for all of them
  have hrounds : ∀ (rounds fuel j : ℕ) (s : Core), j + rounds = n → rounds < fuel →
      s.mem ((place.spot env).sub "length").loc = m ((place.spot env).sub "length").loc →
      Readable ((List.range' j rounds).flatMap bytes) ((List.range' j rounds).map paid).sum
        ((List.range' j rounds).map need).sum ((List.range' j rounds).flatMap ls) s →
      FallsTo (loop (fun j s => (j : ℤ) <
            (Len.mk (accessField place "length") false).value (env.bind i j) s)
          (fun j => exec sizeof body (env.bind i j)) fuel j) s
        (Decoded m ((List.range' j rounds).flatMap bytes).length
          ((List.range' j rounds).map paid).sum ((List.range' j rounds).map need).sum
          ((List.range' j rounds).flatMap ls) s) := by
    intro rounds
    induction rounds with
    | zero =>
        intro fuel j s hj hfuel hmem hs
        cases fuel with
        | zero => omega
        | succ fuel =>
            have hdone := mt (hmore j s hmem).mp (by omega)
            refine ⟨s, ?_, Decoded.nil s⟩
            rw [loop, if_neg hdone]
    | succ rounds ih =>
        intro fuel j s hj hfuel hmem hs
        cases fuel with
        | zero => omega
        | succ fuel =>
            have hgo := (hmore j s hmem).mpr (by omega)
            simp only [List.range'_succ, List.flatMap_cons, List.map_cons, List.sum_cons] at hs ⊢
            have hrest : (ls j).Disjoint ((List.range' (j + 1) rounds).flatMap ls) := by
              rw [List.disjoint_right]
              intro l hl hlj
              rcases List.mem_flatMap.mp hl with ⟨j', hj', hlj'⟩
              have hlt := (List.mem_range'_1.mp hj').1
              exact hdisjoint j j' (by omega) hlj hlj'
            rcases hbody j (by omega) s hs.left with ⟨s₁, hs₁, hdecoded₁⟩
            have hmem₁ : s₁.mem ((place.spot env).sub "length").loc =
                m ((place.spot env).sub "length").loc := by
              rw [hdecoded₁.mem]
              exact copyAt_eq hmem
            rcases ih fuel (j + 1) s₁ (by omega) (by omega) hmem₁ (hs.right hdecoded₁ hrest) with
              ⟨s₂, hs₂, hdecoded₂⟩
            refine ⟨s₂, ?_, ?_⟩
            · rw [loop, if_pos hgo, hs₁, Outcome.next_bind, hs₂]
            · rw [List.length_append]
              exact hdecoded₁.append hdecoded₂
  intro hs
  have hfuel := lt_loopFuel
  have hlt : n < 2 ^ 31 := by
    have := hcount.2
    simp only [if_false, Bool.false_eq_true] at this
    rw [hn, countAt]
    omega
  rw [FallsTo, exec_loop]
  rw [List.range_eq_range'] at hs ⊢
  exact hrounds n loopFuel 0 s (Nat.zero_add n) (by omega) hlength hs

theorem decodes_alloc (element : Ty)
    (hcount : CountInRange false (m ((place.spot env).sub "length").loc))
    (hlength : s.mem ((place.spot env).sub "length").loc =
      m ((place.spot env).sub "length").loc) :
    Decodes sizeof m (.alloc ⟨accessField place "length", false⟩ element) env s [] 0
      (countAt m (place.spot env) * sizeof element) [] := by
  intro hs
  have hvalue := length_value (loc_member env place "length") hlength hcount
  have hle := hs.need_le
  have hlt := hs.maxSize_lt
  have hbytes : toSize ((Len.mk (accessField place "length") false).value env s * sizeof element) =
      countAt m (place.spot env) * sizeof element := by
    rw [hvalue, countAt, ← Nat.cast_mul, toSize_of_nonneg (Int.natCast_nonneg _), Int.toNat_natCast]
    have : countAt m (place.spot env) * sizeof element < 2 ^ 64 := by omega
    exact_mod_cast this
  generalize countAt m (place.spot env) * sizeof element = bytes at hbytes hle
  have hadd : sizeAdd s.arena.currentOffset bytes = s.arena.currentOffset + bytes :=
    sizeAdd_of_lt (by omega)
  refine ⟨{ s with arena := { s.arena with
    currentOffset := s.arena.currentOffset + bytes } }, ?_, ?_⟩
  · simp only [exec]
    rw [hbytes, TickArena.tickArenaAllocUnlocked, hadd, if_neg (by omega)]
  · exact ⟨rfl, by simp, rfl, rfl, copyAt_nil.symm⟩

/-- The bytes that are paid for before the elements are read. -/
def elementsPaid (element : Ty) (p : Spot) : ℕ :=
  if element.isVariable then 0 else (elementsBytes nbt m element p).length

theorem decodes_reserveElements (element : Ty)
    (hcount : CountInRange false (m ((place.spot env).sub "length").loc))
    (hlength : s.mem ((place.spot env).sub "length").loc =
      m ((place.spot env).sub "length").loc) :
    Decodes sizeof m (reserveElements ⟨accessField place "length", false⟩ element) env s []
      (elementsPaid nbt (m := m) element (place.spot env)) 0 [] := by
  rw [elementsPaid]
  cases h : element.isVariable with
  | true =>
      rw [reserveElements_variable _ h, if_pos rfl]
      exact decodes_skip
  | false =>
      intro hs
      have hle := hs.paid_le
      have hlt := hs.size_lt
      have hvalue := length_value (loc_member env place "length") hlength hcount
      have hlen := length_elementsBytes nbt m h (place.spot env)
      rw [countAt] at hlen
      rw [if_neg (by simp)] at hle ⊢
      rw [reserveElements_fixed _ h]
      generalize (elementsBytes nbt m element (place.spot env)).length = n at hle hlen
      have hproduct : (Len.mk (accessField place "length") false).product env s element.getSize =
          n := by
        rw [Len.product_of_range] <;> rw [hvalue, ← hlen] <;> omega
      have hsize : toInt32 (s.size - n) = s.size - n := toInt32_of_range (by omega) (by omega)
      refine ⟨{ s with
        size := toInt32 (s.size - n)
        counts := ((Len.mk (accessField place "length") false).value env s, element.getSize) ::
          s.counts }, ?_, ?_⟩
      · rw [exec, exec, hproduct, if_neg (by omega), Outcome.next_bind, exec]
        have hagain : (Len.mk (accessField place "length") false).product env
            { s with counts := ((Len.mk (accessField place "length") false).value env s,
              element.getSize) :: s.counts } element.getSize = n := hproduct
        rw [hagain]
      · exact ⟨rfl, hsize, rfl, rfl, copyAt_nil.symm⟩

theorem decodes_elements {element : Ty} {body : Cmd} (huses : place.Uses used) (hi : i ∉ used)
    (hcount : CountInRange false (m ((place.spot env).sub "length").loc))
    (hlength : s.mem ((place.spot env).sub "length").loc =
      m ((place.spot env).sub "length").loc)
    (hbody : ∀ j < countAt m (place.spot env), ∀ s,
      Decodes sizeof m body (env.bind i j) s
        (element.encode nbt m (((place.spot env).sub "elements").elem j))
        (if element.isVariable then
          (element.encode nbt m (((place.spot env).sub "elements").elem j)).length else 0)
        (element.need sizeof m (((place.spot env).sub "elements").elem j))
        (element.scalars m (((place.spot env).sub "elements").elem j))) :
    Decodes sizeof m
      (.seq (reserveElements ⟨accessField place "length", false⟩ element)
        (.seq (.alloc ⟨accessField place "length", false⟩ element)
          (.loop i ⟨accessField place "length", false⟩ body))) env s
      (elementsBytes nbt m element (place.spot env))
      (elementsBytes nbt m element (place.spot env)).length
      ((Ty.array (.native .varint) element).need sizeof m (place.spot env))
      ((List.range (countAt m (place.spot env))).flatMap fun j =>
        element.scalars m (((place.spot env).sub "elements").elem j)) := by
  have hkept : ∀ {n paid need : ℕ} {s s' : Core}, Decoded m n paid need [] s s' →
      s.mem ((place.spot env).sub "length").loc = m ((place.spot env).sub "length").loc →
      s'.mem ((place.spot env).sub "length").loc = m ((place.spot env).sub "length").loc := by
    intro n paid need s s' hdecoded hmem
    rw [hdecoded.mem]
    exact copyAt_eq hmem
  have hloop := fun (s : Core) hmem => decodes_loop sizeof huses hi hcount (s := s) hmem
    (fun j j' hne => disjoint_elements m element _ hne) hbody
  have hchain := (decodes_reserveElements sizeof nbt element hcount hlength).seq
    (fun s₁ hs₁ => (decodes_alloc sizeof element hcount (hkept hs₁ hlength)).seq
      (fun s₂ hs₂ => hloop s₂ (hkept hs₂ (hkept hs₁ hlength))) (List.disjoint_nil_left _))
    (List.disjoint_nil_left _)
  have hpaid : elementsPaid nbt (m := m) element (place.spot env) +
      (0 + ((List.range (countAt m (place.spot env))).map fun j => if element.isVariable then
        (element.encode nbt m (((place.spot env).sub "elements").elem j)).length else 0).sum) =
      (elementsBytes nbt m element (place.spot env)).length := by
    rw [elementsPaid]
    cases element.isVariable with
    | true => simp [elementsBytes, List.length_flatMap]
    | false => simp
  rw [hpaid] at hchain
  simpa [Ty.need, elementsBytes] using hchain

/-- An array that is counted by a varint. -/
theorem decodes_array {element : Ty} {fn : String} {k : ℕ} (huses : place.Uses used)
    (hi : rnd fn k ∉ used)
    (hvcount : (Ty.native .varint).IsValue m ((place.spot env).sub "length"))
    (hcount : CountInRange false (m ((place.spot env).sub "length").loc))
    (hbody : ∀ j < countAt m (place.spot env), ∀ s,
      Decodes sizeof m
        (genCode .read rnd fn element ((accessField place "elements").at (rnd fn k)) (k + 1))
        (env.bind (rnd fn k) j) s
        (element.encode nbt m (((place.spot env).sub "elements").elem j))
        (if element.isVariable then
          (element.encode nbt m (((place.spot env).sub "elements").elem j)).length else 0)
        (element.need sizeof m (((place.spot env).sub "elements").elem j))
        (element.scalars m (((place.spot env).sub "elements").elem j))) :
    Decodes sizeof m (genCode .read rnd fn (.array (.native .varint) element) place k) env s
      ((Ty.array (.native .varint) element).encode nbt m (place.spot env))
      ((Ty.array (.native .varint) element).encode nbt m (place.spot env)).length
      ((Ty.array (.native .varint) element).need sizeof m (place.spot env))
      ((Ty.array (.native .varint) element).scalars m (place.spot env)) := by
  have hlength : Decodes sizeof m
      (genCode .read rnd fn (.native .varint) (accessField place "length") k) env s
      ((Ty.native .varint).encode nbt m ((place.spot env).sub "length"))
      ((Ty.native .varint).encode nbt m ((place.spot env).sub "length")).length 0
      [((place.spot env).sub "length").loc] := by
    rw [genCode_native_variable _ _ _ _ _ rfl, Ty.encode, ← loc_member]
    apply decodes_varint
    rw [loc_member]
    exact hvcount
  have helements := fun s' (hs' : Decoded m
      ((Ty.native .varint).encode nbt m ((place.spot env).sub "length")).length
      ((Ty.native .varint).encode nbt m ((place.spot env).sub "length")).length 0
      [((place.spot env).sub "length").loc] s s') => by
    have hcopied : s'.mem ((place.spot env).sub "length").loc =
        m ((place.spot env).sub "length").loc := by
      rw [hs'.mem]
      exact copyAt_of_mem (List.mem_singleton_self _)
    exact decodes_elements sizeof nbt huses hi hcount hcopied hbody
  have hboth := hlength.seq helements (by
    rw [List.singleton_disjoint, List.mem_flatMap]
    rintro ⟨j, -, hl⟩
    exact length_not_mem_element m element (place.spot env) j hl)
  rw [← List.length_append, Nat.zero_add] at hboth
  rw [genCode, reserve_variable rfl]
  exact hboth.skip_seq

end

/-! ## Discriminants -/

def Copied (m : Loc → ℤ) (siblings : List (String × Ty)) (p : Spot) (s : Core) : Prop :=
  ∀ name t, (name, t) ∈ siblings → ∀ l ∈ t.scalars m (p.sub name), s.mem l = m l

theorem Copied.decoded {siblings : List (String × Ty)} {p : Spot} {s' : Core}
    (h : Copied m siblings p s) {n paid need : ℕ} {ls : List Loc}
    (hdecoded : Decoded m n paid need ls s s') : Copied m siblings p s' := by
  intro name t hmem l hl
  rw [hdecoded.mem]
  exact copyAt_eq (h name t hmem l hl)

/-- The next sibling has been copied. -/
theorem Copied.extend {siblings : List (String × Ty)} {p : Spot} {s' : Core}
    (h : Copied m siblings p s) {name : String} {t : Ty} {n paid need : ℕ}
    (hdecoded : Decoded m n paid need (t.scalars m (p.sub name)) s s') :
    Copied m ((name, t) :: siblings) p s' := by
  intro name' t' hmem l hl
  rcases List.mem_cons.mp hmem with hmem | hmem
  · cases hmem
    rw [hdecoded.mem]
    exact copyAt_of_mem hl
  · exact h.decoded hdecoded name' t' hmem l hl

end

/-! ## All types -/

section

variable (sizeof : Ty → ℕ) (rnd : String → ℕ → ℕ) (nbt : Loc → List UInt8) {m : Loc → ℤ}

mutual

theorem Ty.decodes (t : Ty) {siblings : List (String × Ty)} (hacc : t.Accepted false siblings)
    (hvar : t.isVariable = true) {fn : String} {used : List ℕ} {k : ℕ}
    (hfresh : t.Fresh rnd fn used k) {place : LVal} (huses : place.Uses used)
    (hshaped : place.Shaped) (env : Env) (hvalue : t.IsValue m (place.spot env))
    (hresolves : t.Resolves (place.spot env)) (s : Core)
    (hcopied : t.isSwitch = true → Copied m siblings (place.spot env).parent s) :
    Decodes sizeof m (genCode .read rnd fn t place k) env s (t.encode nbt m (place.spot env))
      (t.encode nbt m (place.spot env)).length (t.need sizeof m (place.spot env))
      (t.scalars m (place.spot env)) := by
  cases t with
  | native n =>
      rw [Ty.IsValue, LVal.loc_spot] at hvalue
      rw [genCode_native_variable _ _ _ _ _ hvar, Ty.encode, Ty.need, Ty.scalars, LVal.loc_spot]
      cases n with
      | varint => exact decodes_varint place hvalue
      | varlong => exact absurd rfl hacc.1
      | nbt => exact absurd rfl hacc.2
      | _ => exact absurd hvar (by decide)
  | typedef name base =>
      have hbase : base.isVariable = true := by simpa using hvar
      rw [Ty.IsValue, LVal.loc_spot] at hvalue
      rw [Ty.Resolves, LVal.loc_spot] at hresolves
      rw [genCode_typedef_variable _ _ _ _ _ _ hbase, Ty.encode, Ty.need, Ty.scalars,
        LVal.loc_spot]
      apply decodes_call
      have hbody := base.decodes hacc.2 hbase hfresh (uses_sourceOf base []) (shaped_sourceOf base)
        ⟨place.loc env, fun _ => 0⟩ (by rwa [spot_sourceOf]) (by rwa [spot_sourceOf]) s
        (fun _ name t hmem => by cases hmem)
      rwa [spot_sourceOf] at hbody
  | void => exact decodes_skip
  | container fields =>
      rw [genCode, Ty.encode, Ty.need, Ty.scalars]
      exact (fields.decodes hacc hfresh huses hshaped env hvalue hresolves s
        (fun name t hmem => by cases hmem)).1
  | «switch» up compareTo cases =>
      rcases hacc with ⟨-, compared, hmem, hcases⟩
      rw [genCode, Ty.encode, Ty.need, Ty.scalars]
      exact cases.decodes hcases hfresh huses hshaped env hvalue hresolves s
        (loc_sibling hshaped env compareTo)
        (hcopied rfl compareTo compared hmem)
  | array count element =>
      rcases hacc with ⟨rfl, helement⟩
      rcases hfresh with ⟨-, hi, hfelement⟩
      rcases hvalue with ⟨hvcount, hrange, hvelement⟩
      refine decodes_array sizeof rnd nbt huses hi hvcount hrange fun j hj s => ?_
      have hvj := hvelement j hj
      have hrj := hresolves j
      rw [← spot_accessField env place, ← LVal.spot_at (huses.accessField _) hi] at hvj hrj ⊢
      cases h : element.isVariable with
      | true =>
          exact element.decodes helement h hfelement ((huses.accessField _).at _)
            ((hshaped.accessField _).at _) _ hvj hrj s (fun _ name t hmem => by cases hmem)
      | false => exact decodes_fixed_type sizeof rnd nbt element fn helement h _ _ _ hvj s
  | rest element => exact hacc.elim
  | bitfield fields => exact hacc.elim
  | option base => exact hacc.elim

theorem Fields.decodes (fields : Fields) {siblings : List (String × Ty)}
    (hacc : fields.Accepted false siblings) {fn : String} {used : List ℕ} {k : ℕ}
    (hfresh : fields.Fresh rnd fn used k) {place : LVal} (huses : place.Uses used)
    (hshaped : place.Shaped) (env : Env) (hvalue : fields.IsValue m (place.spot env))
    (hresolves : fields.Resolves (place.spot env)) (s : Core)
    (hcopied : Copied m siblings (place.spot env) s) :
    Decodes sizeof m (genFields .read rnd fn none fields place k) env s
        (fields.encode nbt m (place.spot env)) (fields.encode nbt m (place.spot env)).length
        (fields.need sizeof m (place.spot env)) (fields.scalars m (place.spot env)) ∧
      ∀ total : ℕ, Decodes sizeof m (genFields .read rnd fn (some total) fields place k) env s
        (fields.encode nbt m (place.spot env))
        (total + ((fields.encode nbt m (place.spot env)).length -
          (fields.runBytes nbt m (place.spot env)).length))
        (fields.need sizeof m (place.spot env)) (fields.scalars m (place.spot env)) := by
  cases fields with
  | nil =>
      refine ⟨decodes_skip, fun total => ?_⟩
      simp only [genFields, Fields.encode, Fields.runBytes]
      exact decodes_subSize total
  | cons name t fields =>
      have hdisjoint := disjoint_fields m hacc (place.spot env)
      rcases hacc with ⟨hat, -, -, harest⟩
      rcases hfresh with ⟨hft, hfrest⟩
      rcases hvalue with ⟨hvt, hvrest⟩
      rcases hresolves with ⟨hparent, hrt, hrrest⟩
      have hrest := fun s' (hs' : Copied m ((name, t) :: siblings) (place.spot env) s') =>
        fields.decodes harest hfrest huses hshaped env hvrest hrrest s' hs'
      rw [← spot_accessField] at hvt hrt
      cases h : t.isVariable with
      | true =>
          have hfield : ∀ s, Copied m siblings (place.spot env) s →
              Decodes sizeof m
                (.seq (genCode .read rnd fn t (accessField place name) k)
                  (genFields .read rnd fn none fields place (k + t.draws))) env s
                ((Fields.cons name t fields).encode nbt m (place.spot env))
                ((Fields.cons name t fields).encode nbt m (place.spot env)).length
                ((Fields.cons name t fields).need sizeof m (place.spot env))
                ((Fields.cons name t fields).scalars m (place.spot env)) := by
            intro s hcopied
            have ht := t.decodes hat h hft (huses.accessField name) (hshaped.accessField name) env
              hvt hrt s (by
                intro hswitch
                rw [spot_accessField, hparent hswitch]
                exact hcopied)
            rw [spot_accessField] at ht
            rw [Fields.encode, List.length_append]
            exact ht.seq (fun s' hs' => (hrest s' (hcopied.extend hs')).1) hdisjoint
          simp only [genFields, h, if_true]
          refine ⟨(hfield s hcopied).skip_seq, fun total => ?_⟩
          have hpaid := (decodes_subSize total).seq
            (fun s' hs' => hfield s' (hcopied.decoded hs')) (List.disjoint_nil_left _)
          rw [List.nil_append, List.nil_append, Nat.zero_add] at hpaid
          simpa [Fields.runBytes, h] using hpaid
      | false =>
          have hfield : ∀ total : ℕ, Decodes sizeof m
                (.seq (genCode .read rnd fn t (accessField place name) k)
                  (genFields .read rnd fn (some total) fields place (k + t.draws))) env s
                ((Fields.cons name t fields).encode nbt m (place.spot env))
                (total + ((fields.encode nbt m (place.spot env)).length -
                  (fields.runBytes nbt m (place.spot env)).length))
                ((Fields.cons name t fields).need sizeof m (place.spot env))
                ((Fields.cons name t fields).scalars m (place.spot env)) := by
            intro total
            have ht := decodes_fixed_type sizeof rnd nbt t fn hat h (accessField place name) k env
              hvt s
            rw [spot_accessField] at ht
            have hboth := ht.seq (fun s' hs' => (hrest s' (hcopied.extend hs')).2 total) hdisjoint
            rwa [Nat.zero_add] at hboth
          have hlen := length_runBytes nbt m (Fields.cons name t fields) (place.spot env)
          have hle := fields.length_runBytes_le nbt m (place.spot env)
          simp only [genFields, Fields.encode, Fields.runBytes, h, if_false, Bool.false_eq_true,
            List.length_append] at hfield hlen ⊢
          refine ⟨?_, fun total => ?_⟩
          · have hpaid : ∀ a b c : ℕ, b ≤ c → a + b + (c - b) = a + c := by
              intro a b c hbc
              omega
            have hrun := hfield ((t.encode nbt m ((place.spot env).sub name)).length +
              (fields.runBytes nbt m (place.spot env)).length)
            rw [hpaid _ _ _ hle] at hrun
            rw [← hlen]
            refine hrun.check ?_
            exact_mod_cast Nat.add_le_add_left hle _
          · rw [Nat.add_sub_add_left]
            exact hfield total

theorem Cases.decodes (cases : Cases) {compared : Ty} (hacc : cases.Accepted false compared)
    {fn : String} {used : List ℕ} {k : ℕ} (hfresh : cases.Fresh rnd fn used k) {place : LVal}
    (huses : place.Uses used) (hshaped : place.Shaped) (env : Env) {discriminant : LVal}
    {p : Spot} {name : String}
    (hvalue : cases.IsValue m (p.sub name).loc (place.spot env))
    (hresolves : cases.Resolves (place.spot env)) (s : Core)
    (hloc : discriminant.loc env = (p.sub name).loc)
    (hcopied : ∀ l ∈ compared.scalars m (p.sub name), s.mem l = m l) :
    Decodes sizeof m (genCases .read rnd fn discriminant cases place k) env s
      (cases.encode nbt m (p.sub name).loc (place.spot env))
      (cases.encode nbt m (p.sub name).loc (place.spot env)).length
      (cases.need sizeof m (p.sub name).loc (place.spot env))
      (cases.scalars m (p.sub name).loc (place.spot env)) := by
  cases cases with
  | nil => exact hvalue.elim
  | cons case t value cases =>
      rcases hacc with ⟨hat, -, hmatches, harest⟩
      rcases hfresh with ⟨hft, hfrest⟩
      rcases hresolves with ⟨hrt, hrrest⟩
      have hsame := holds_of_copied hmatches hcopied
      rw [Cases.IsValue] at hvalue
      have hcode : value.holds m (p.sub name).loc = true →
          Decodes sizeof m (caseCode t (genCode .read rnd fn t (accessField place case) k)) env s
            ((Cases.cons case t value cases).encode nbt m (p.sub name).loc (place.spot env))
            ((Cases.cons case t value cases).encode nbt m (p.sub name).loc (place.spot env)).length
            ((Cases.cons case t value cases).need sizeof m (p.sub name).loc (place.spot env))
            ((Cases.cons case t value cases).scalars m (p.sub name).loc (place.spot env)) := by
        intro hholds
        rw [if_pos hholds] at hvalue
        rw [Cases.encode, Cases.need, Cases.scalars, if_pos hholds, if_pos hholds, if_pos hholds,
          caseCode]
        rw [← spot_accessField] at hvalue hrt ⊢
        cases t with
        | void => exact decodes_skip
        | _ =>
            exact decodes_reserved sizeof rnd nbt _ fn hat _ k env hvalue s fun hvar =>
              Ty.decodes _ hat hvar hft (huses.accessField case) (hshaped.accessField case) env
                hvalue hrt s (fun _ name t hmem => by cases hmem)
      have hrest : value.holds m (p.sub name).loc = false →
          Decodes sizeof m (genCases .read rnd fn discriminant cases place (k + t.draws)) env s
            ((Cases.cons case t value cases).encode nbt m (p.sub name).loc (place.spot env))
            ((Cases.cons case t value cases).encode nbt m (p.sub name).loc (place.spot env)).length
            ((Cases.cons case t value cases).need sizeof m (p.sub name).loc (place.spot env))
            ((Cases.cons case t value cases).scalars m (p.sub name).loc (place.spot env)) := by
        intro hholds
        have hnot : ¬ value.holds m (p.sub name).loc = true := by simp [hholds]
        rw [if_neg hnot] at hvalue
        rw [Cases.encode, Cases.need, Cases.scalars, if_neg hnot, if_neg hnot, if_neg hnot]
        exact cases.decodes harest hfrest huses hshaped env hvalue hrrest s hloc hcopied
      have hchoice : value ≠ .default → Decodes sizeof m
          (.ite (caseTest discriminant value)
            (caseCode t (genCode .read rnd fn t (accessField place case) k))
            (genCases .read rnd fn discriminant cases place (k + t.draws))) env s
            ((Cases.cons case t value cases).encode nbt m (p.sub name).loc (place.spot env))
            ((Cases.cons case t value cases).encode nbt m (p.sub name).loc (place.spot env)).length
            ((Cases.cons case t value cases).need sizeof m (p.sub name).loc (place.spot env))
            ((Cases.cons case t value cases).scalars m (p.sub name).loc (place.spot env)) := by
        intro hdefault
        refine Decodes.ite ?_ hcode hrest
        rw [caseTest_holds hdefault, hloc, hsame]
      cases value with
      | default =>
          rw [genCases]
          exact hcode rfl
      | int value => exact hchoice (by simp)
      | bool value => exact hchoice (by simp)
      | string value => exact hchoice (by simp)

end

end

end CmcServer.ProtoDef
