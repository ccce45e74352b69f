import CmcServer.Verification.ProtoDef.Grammar

/-! # Generated readers follow the grammar

On every input a generated reader accepts the values of its type, if the arena has room for them,
and nothing else. -/

namespace CmcServer.ProtoDef

open Bytes EarlyReturn Parsers

/-! ## Readers and parsers -/

/-- What is known of an arena once `used` bytes were taken from it for a value, and how many bytes
are too many. -/
structure Ledger where
  Holds : (used : ℕ) → TickArena → Prop
  Full : (used : ℕ) → Prop
  more : ∀ {used used'}, Full used → used ≤ used' → Full used'
  refused : ∀ {used n arena}, n < 2 ^ 63 → Holds used arena →
    arena.tickArenaAllocUnlocked n = none → Full (used + n)
  taken : ∀ {used n arena place arena'}, n < 2 ^ 63 → Holds used arena →
    arena.tickArenaAllocUnlocked n = some (place, arena') → Holds (used + n) arena'

/-- An arena that others do not use meanwhile. -/
def Ledger.own (arena : TickArena) (hmax : arena.maxSize < 2 ^ 63) : Ledger where
  Holds := fun used arena' => arena.currentOffset + used ≤ arena.maxSize ∧
    arena' = { arena with currentOffset := arena.currentOffset + used }
  Full := fun used => arena.maxSize < arena.currentOffset + used
  more := fun hfull hle => by omega
  refused := by
    rintro used n arena' hn ⟨hroom, rfl⟩ halloc
    rw [TickArena.tickArenaAllocUnlocked, sizeAdd_of_lt (by dsimp only; omega)] at halloc
    split at halloc
    · dsimp only at *
      omega
    · cases halloc
  taken := by
    rintro used n arena' place arena'' hn ⟨hroom, rfl⟩ halloc
    rw [TickArena.tickArenaAllocUnlocked, sizeAdd_of_lt (by dsimp only; omega)] at halloc
    split at halloc
    · cases halloc
    · cases halloc
      dsimp only at *
      exact ⟨by omega, by rw [Nat.add_assoc]⟩

theorem Ledger.own_holds {arena : TickArena} (hmax : arena.maxSize < 2 ^ 63)
    (hroom : arena.currentOffset ≤ arena.maxSize) : (Ledger.own arena hmax).Holds 0 arena :=
  ⟨hroom, rfl⟩

/-- Any arena, which may be full at any time. -/
def Ledger.any : Ledger where
  Holds := fun _ _ => True
  Full := fun _ => True
  more := fun _ _ => trivial
  refused := fun _ _ _ => trivial
  taken := fun _ _ _ => trivial

/-- A reader has `bytes` in front of it, up to `stop`, and has decoded the draft. Its remaining
size differs by `gap` from their number: it checks sizes before or after it reads. -/
structure Front (stop : ℕ) (ledger : Ledger) (gap : ℤ) (d : Draft) (bytes : List UInt8)
    (s : Core) : Prop where
  bytes_at : At s.buffer s.data bytes
  data : s.data + bytes.length = stop
  size : s.size = bytes.length + gap
  nonneg : 0 ≤ s.size
  lt : bytes.length < 2 ^ 31
  mem : s.mem = d.mem
  arena : ledger.Holds d.used s.arena

/-- A statement does what a parser says: it falls through with the value, and it returns if there
is none or if the arena is full. -/
inductive Conforms (stop : ℕ) (ledger : Ledger) (gap : ℤ) :
    Outcome Core → Parse UInt8 Draft → Prop where
  | parsed {s d rest} : Front stop ledger gap d rest s →
      Conforms stop ledger gap (.next s) (.parsed d rest)
  | full {s d rest} : ledger.Full d.used → Conforms stop ledger gap (.ret s) (.parsed d rest)
  | malformed {s} : Conforms stop ledger gap (.ret s) .malformed
  | undefined {o} : Conforms stop ledger gap o .undefined

section

variable {stop : ℕ} {ledger : Ledger} {gap gap' : ℤ} {d : Draft} {bytes : List UInt8} {s : Core}
  {o : Outcome Core} {r : Parse UInt8 Draft} {c : Stmt Core} {q : Parser UInt8 Draft} {l : Loc}

/-- A statement that returns because the arena is full. -/
theorem conforms_full (hfull : ledger.Full d.used)
    (hq : Relates (Draft.Extends l) q) : Conforms stop ledger gap (.ret s) (q d bytes) := by
  cases hresult : q d bytes with
  | parsed d' rest =>
      exact .full (ledger.more hfull (hq _ _ _ _ hresult).used)
  | malformed => exact .malformed
  | undefined => exact .undefined

theorem Conforms.bind (h : Conforms stop ledger gap o r) (hq : Relates (Draft.Extends l) q)
    (hc : ∀ s d rest, r = .parsed d rest → Front stop ledger gap d rest s →
      Conforms stop ledger gap' (c s) (q d rest)) :
    Conforms stop ledger gap' (o.bind c) (r.bind q) := by
  cases h with
  | parsed hs => exact hc _ _ _ rfl hs
  | full hfull => exact conforms_full hfull hq
  | malformed => exact .malformed
  | undefined => exact .undefined

end

/-! ## Types of fixed size -/

/-- What the bytes of a type of fixed size do to the memory. -/
def Ty.store : Ty → Loc → List UInt8 → (Loc → ℤ) → Loc → ℤ
  | .native n, l, bytes, mem => Function.update mem l (n.decode bytes)
  | .typedef _ base, l, bytes, mem => base.store l bytes mem
  | .bitfield fields, l, bytes, mem => unpack l (ofBe bytes) fields 0 mem
  | _, _, _, mem => mem

structure Stored (t : Ty) (l : Loc) (s s' : Core) : Prop where
  data : s'.data = s.data + t.getSize.toNat
  size : s'.size = s.size
  buffer : s'.buffer = s.buffer
  arena : s'.arena = s.arena
  mem : s'.mem = t.store l (load s.buffer s.data t.getSize.toNat) s.mem

theorem exec_store (sizeof : Ty → ℕ) (rnd : String → ℕ → ℕ) (t : Ty) (fn : String)
    (h : t.isVariable = false) (place : LVal) (k : ℕ) (env : Env) (s : Core) :
    ∃ s', exec sizeof (genCode .read rnd fn t place k) env s = .next s' ∧
      Stored t (place.loc env) s s' := by
  induction t, h using Ty.fixed_induction generalizing fn place k env with
  | native n h =>
      rw [genCode_native_fixed _ _ _ _ _ h]
      exact ⟨readFixed n (place.loc env) s, rfl, rfl, rfl, rfl, rfl, rfl⟩
  | typedef name base hbase h ih =>
      rcases ih name (fixedSourceOf .read base) 0 ⟨place.loc env, fun _ => 0⟩ with
        ⟨s', hs', hstored⟩
      refine ⟨{ s' with data := s.data + base.getSize.toNat, size := s.size }, ?_, ?_⟩
      · rw [genCode_typedef_fixed _ _ _ _ _ _ hbase, exec, hs']
        rfl
      · exact ⟨rfl, rfl, hstored.buffer, hstored.arena, hstored.mem⟩
  | bitfield fields h =>
      have hsize := bitfield_getSize (bitfield_ne_nil h)
      refine ⟨readBits fields (place.loc env) s, rfl, ?_, rfl, rfl, rfl, ?_⟩
      · rw [hsize]
        rfl
      · rw [hsize]
        rfl

theorem parse_fixed (sizeof : Ty → ℕ) (t : Ty) (h : t.isVariable = false) (p : Spot) :
    t.parse sizeof p = take t.getSize.toNat fun bytes d =>
      { d with mem := t.store p.loc bytes d.mem } := by
  induction t, h using Ty.fixed_induction generalizing p with
  | native n h => exact native_parse_fixed h p.loc
  | typedef name base hbase h ih => exact ih ⟨p.loc, []⟩
  | bitfield fields h =>
      cases fields with
      | nil => exact absurd rfl (bitfield_ne_nil h)
      | cons field fields => rfl

section

variable {stop : ℕ} {ledger : Ledger} {gap : ℤ} {d : Draft} {bytes : List UInt8} {s : Core}
  {sizeof : Ty → ℕ} {rnd : String → ℕ → ℕ}

theorem parse_short {t : Ty} (h : t.isVariable = false) (hshort : (bytes.length : ℤ) < t.getSize)
    (p : Spot) : t.parse sizeof p d bytes = .malformed := by
  rw [parse_fixed sizeof t h, take, if_neg (by omega)]

variable (sizeof rnd) in
/-- The code of a type of fixed size, behind its check. -/
theorem fixed_conforms {t : Ty} (h : t.isVariable = false) (fn : String) (place : LVal) (k : ℕ)
    (env : Env) (hs : Front stop ledger gap d bytes s) (hfit : t.getSize ≤ bytes.length) :
    Conforms stop ledger (gap + t.getSize) (exec sizeof (genCode .read rnd fn t place k) env s)
      (t.parse sizeof (place.spot env) d bytes) := by
  have hpos := Ty.getSize_pos h
  rcases exec_store sizeof rnd t fn h place k env s with ⟨s', hs', hstored⟩
  have hsplit : At s.buffer s.data (bytes.take t.getSize.toNat) ∧
      At s.buffer (s.data + t.getSize.toNat) (bytes.drop t.getSize.toNat) := by
    have hat := hs.bytes_at
    rw [← List.take_append_drop t.getSize.toNat bytes, at_append, List.length_take,
      Nat.min_eq_left (by omega)] at hat
    exact hat
  have hload := load_eq_of_at hsplit.1
  rw [List.length_take, Nat.min_eq_left (by omega)] at hload
  rw [hs', parse_fixed sizeof t h, take, if_pos (by omega), LVal.loc_spot]
  have hdata := hs.data
  have hsize := hs.size
  have hlt := hs.lt
  refine .parsed ⟨?_, ?_, ?_, ?_, ?_, ?_, ?_⟩
  · rw [hstored.buffer, hstored.data]
    exact hsplit.2
  · rw [hstored.data, List.length_drop]
    omega
  · rw [hstored.size, List.length_drop]
    omega
  · rw [hstored.size]
    exact hs.nonneg
  · rw [List.length_drop]
    omega
  · rw [hstored.mem, hload, hs.mem]
  · rw [hstored.arena]
    exact hs.arena

theorem Front.subSize {n : ℤ} (hs : Front stop ledger gap d bytes s) (hn : n ≤ s.size)
    (hgap : gap ≤ n) :
    Front stop ledger (gap - n) d bytes { s with size := toInt32 (s.size - n) } := by
  have hsize := hs.size
  have hlt := hs.lt
  have hnext : toInt32 (s.size - n) = s.size - n := toInt32_of_range (by omega) (by omega)
  exact ⟨hs.bytes_at, hs.data, by dsimp only; omega, by dsimp only; omega, hs.lt, hs.mem,
    hs.arena⟩

variable (sizeof rnd) in
/-- A type with the room check in front of it. -/
theorem reserved_conforms {t : Ty} (fn : String) (place : LVal) (k : ℕ) (env : Env)
    (hs : Front stop ledger 0 d bytes s)
    (hvariable : t.isVariable = true →
      Conforms stop ledger 0 (exec sizeof (genCode .read rnd fn t place k) env s)
        (t.parse sizeof (place.spot env) d bytes)) :
    Conforms stop ledger 0 (exec sizeof (.seq (reserve t) (genCode .read rnd fn t place k)) env s)
      (t.parse sizeof (place.spot env) d bytes) := by
  cases h : t.isVariable with
  | true =>
      rw [reserve_variable h, exec_skip_seq]
      exact hvariable h
  | false =>
      have hpos := Ty.getSize_pos h
      have hsize := hs.size
      rw [reserve_fixed h, ← exec_seq_assoc, exec, exec]
      by_cases hshort : s.size < t.getSize
      · rw [if_pos hshort, parse_short h (by omega)]
        exact .malformed
      · have hpaid := hs.subSize (n := t.getSize) (by omega) (by omega)
        have hcode := fixed_conforms sizeof rnd h fn place k env hpaid (by omega)
        rw [if_neg hshort, Outcome.next_bind, exec, exec, Outcome.next_bind]
        rwa [show (0 : ℤ) - t.getSize + t.getSize = 0 by omega] at hcode

/-! ## Natives of variable size -/

/-- A varint, in memory that is zero. -/
theorem varint_conforms (place : LVal) (env : Env) (hs : Front stop ledger 0 d bytes s) :
    Conforms stop ledger 0 (exec sizeof (.variable .read .varint place) env s)
      (parseVarint (place.loc env) d bytes) := by
  rw [parseVarint]
  by_cases hzero : d.mem (place.loc env) = 0
  · rw [if_neg (not_not.mpr hzero)]
    have hdata := hs.data
    have hsize := hs.size
    have hlt := hs.lt
    have hrest : At s.rest 0 bytes := by
      intro i hi
      rw [Core.rest, Nat.zero_add]
      exact hs.bytes_at i hi
    have hlength : s.size.toNat = bytes.length := by omega
    have hread := readLoop_split (n := 4) (v := 0) hrest rfl (Nat.two_pow_pos 0)
    rw [exec, readVariable, Native.read, hs.mem, hzero, protocolReadVarint, hlength]
    cases hsplit : Base128.split 5 bytes with
    | none =>
        rw [hsplit] at hread
        dsimp only at hread
        rw [Nat.cast_zero] at hread
        rw [if_pos (by rw [hread]; decide)]
        exact .malformed
    | some parts =>
        rcases parts with ⟨id, rest⟩
        rw [hsplit] at hread
        rcases hread with ⟨rfl, hloop⟩
        rw [Nat.cast_zero] at hloop
        rw [List.length_append] at hdata hsize hlt
        have hnext : toInt32 (s.size - (id.length : ℕ)) = s.size - (id.length : ℕ) :=
          toInt32_of_range (by omega) (by omega)
        simp only [hloop, Nat.zero_add, pow_zero, Nat.mul_one]
        rw [if_neg (by omega), Int.toNat_natCast]
        refine .parsed ⟨?_, ?_, ?_, ?_, ?_, ?_, hs.arena⟩
        · exact (at_append.mp hs.bytes_at).2
        · simp only [Core.assign_data, Core.touch_data]
          omega
        · simp only [Core.assign_size, Core.touch_size, hnext]
          omega
        · simp only [Core.assign_size, Core.touch_size, hnext]
          omega
        · omega
        · rw [Draft.assign, ← hs.mem]
          rfl
  · rw [if_pos hzero]
    exact .undefined

theorem native_conforms (n : Native) (fn : String) (place : LVal) (k : ℕ) (env : Env)
    (h : (Ty.native n).isVariable = true) (hs : Front stop ledger 0 d bytes s) :
    Conforms stop ledger 0 (exec sizeof (genCode .read rnd fn (.native n) place k) env s)
      ((Ty.native n).parse sizeof (place.spot env) d bytes) := by
  rw [genCode_native_variable _ _ _ _ _ h, Ty.parse, LVal.loc_spot]
  cases n with
  | varint => exact varint_conforms place env hs
  | varlong => exact .undefined
  | nbt => exact .malformed
  | _ => cases h

/-! ## Options -/

theorem option_conforms (base : Ty) (fn : String) (place : LVal) (k : ℕ) (env : Env)
    (hs : Front stop ledger 0 d bytes s) :
    Conforms stop ledger 0 (exec sizeof (genCode .read rnd fn (.option base) place k) env s)
      ((Ty.option base).parse sizeof (place.spot env) d bytes) := by
  have hflag := reserved_conforms sizeof rnd (t := .native .bool) fn
    (accessField place "present") k env hs fun hvar => by cases hvar
  rw [spot_accessField] at hflag
  have hcode : genCode .read rnd fn (.option base) place k =
      .seq (.checkSize 1) (.seq (.subSize 1) (.seq
        (genCode .read rnd fn (.native .bool) (accessField place "present") k)
        (.ite (.present (accessField place "present")) (reserve base) .skip))) := rfl
  rw [hcode, exec_seq_assoc, exec_seq_assoc, exec]
  refine hflag.bind (relates_parsePresent _) ?_
  intro s' d' rest _ hs'
  rw [parsePresent, choose]
  by_cases habsent : d'.mem ((place.spot env).sub "present").loc = 0
  · have htest : (Test.present (accessField place "present")).holds env s' = false := by
      rw [Test.holds, loc_member, hs'.mem, habsent]
      rfl
    rw [if_pos habsent, exec, htest]
    exact .parsed hs'
  · rw [if_neg habsent]
    exact .undefined

/-! ## Calls -/

/-- A call of the function of a typedef. -/
theorem call_conforms {body : Cmd} {place : LVal} {env : Env} {p : Parser UInt8 Draft}
    (hp : Local p) (hs : Front stop ledger 0 d bytes s)
    (hbody : Conforms stop ledger 0 (exec sizeof body ⟨place.loc env, fun _ => 0⟩ s) (p d bytes)) :
    Conforms stop ledger 0 (exec sizeof (.call body place) env s) (p d bytes) := by
  rw [exec]
  generalize hexec : exec sizeof body ⟨place.loc env, fun _ => 0⟩ s = o at hbody
  cases hresult : p d bytes with
  | malformed =>
      rw [hresult] at hbody
      cases hbody
      exact .malformed
  | undefined => exact .undefined
  | parsed d' rest =>
      rw [hresult] at hbody
      cases hbody with
      | full hfull => exact .full hfull
      | @parsed s' _ _ hs' =>
          have hle := hp.length_le hresult
          have hdata := hs.data
          have hsize := hs.size
          have hlt := hs.lt
          have hdata' := hs'.data
          have hsize' := hs'.size
          have hret : toInt32 (s.size - s'.size) = s.size - s'.size :=
            toInt32_of_range (by omega) (by omega)
          have hnext : toInt32 (s.size - (s.size - s'.size)) = s'.size := by
            rw [sub_sub_cancel]
            exact toInt32_of_range (by omega) (by omega)
          rw [finish, resume, hret, if_neg (by omega), hnext]
          have hend : s.data + (s.size - s'.size).toNat = s'.data := by omega
          rw [hend]
          exact .parsed hs'

/-! ## Arrays -/

theorem count_value {length : Len} {env : Env} {n : ℤ}
    (hmem : s.mem (length.place.loc env) = n) (hlo : 0 ≤ n) (hhi : n < 2 ^ 31) :
    length.value env s = n := by
  rw [Len.value, hmem]
  split
  · exact toInt64_of_range (by omega) (by omega)
  · exact toInt32_of_range (by omega) hhi

section

variable {place : LVal} {used : List ℕ} {i n : ℕ} {env : Env} {wide : Bool} {body : Cmd}
  {p : ℕ → Parser UInt8 Draft}

/-- An element is not where the length of its array is. -/
theorem relates_length {q : Spot} {j : ℕ} {r : Parser UInt8 Draft}
    (hr : Relates (Draft.Extends ((q.sub "elements").elem j).loc) r) {d' : Draft}
    {rest : List UInt8} (h : r d bytes = .parsed d' rest) :
    d'.mem (q.sub "length").loc = d.mem (q.sub "length").loc := by
  apply (hr _ _ _ _ h).mem
  rw [Spot.loc_elem, Spot.loc_sub, Spot.loc_sub]
  exact element_not_suffix_length _ _

/-- The loop over `n` elements, of which each has `w` bytes that are paid for. -/
theorem loop_conforms {w : ℤ} (huses : place.Uses used) (hi : i ∉ used) (hn : n < 2 ^ 31)
    (hp : ∀ j : ℕ, Relates (Draft.Extends (((place.spot env).sub "elements").elem j).loc) (p j))
    (hbody : ∀ (j : ℕ) (s : Core) (d : Draft) (bytes : List UInt8), j < n →
      Front stop ledger ((j - n) * w) d bytes s →
      Conforms stop ledger ((j + 1 - n) * w) (exec sizeof body (env.bind i j) s) (p j d bytes))
    (hcount : d.mem ((place.spot env).sub "length").loc = n)
    (hs : Front stop ledger ((0 - n) * w) d bytes s) :
    Conforms stop ledger 0
      (exec sizeof (.loop i ⟨accessField place "length", wide⟩ body) env s)
      (rounds p n 0 d bytes) := by
  have hvalue : ∀ (j : ℕ) (s : Core), s.mem ((place.spot env).sub "length").loc = n →
      (Len.mk (accessField place "length") wide).value (env.bind i j) s = n := by
    intro j s hmem
    refine count_value ?_ (by omega) (by omega)
    rw [LVal.loc_bind (huses.accessField _) hi, loc_member]
    exact hmem
  have hrest : ∀ rounds j, Relates (Draft.Extends (place.spot env).loc)
      (Parsers.rounds p rounds j) := fun rounds j =>
    .rounds (.refl _) .trans (fun j => (hp j).mono
      fun _ _ => Draft.Extends.mono (suffix_loc_elem _ j)) rounds j
  -- induction on the rounds that are left, with fuel for all of them
  have hloop : ∀ (rounds fuel j : ℕ) (s : Core) (d : Draft) (bytes : List UInt8),
      j + rounds = n → rounds < fuel → d.mem ((place.spot env).sub "length").loc = n →
      Front stop ledger ((j - n) * w) d bytes s →
      Conforms stop ledger 0
        (loop (fun j s => (j : ℤ) <
            (Len.mk (accessField place "length") wide).value (env.bind i j) s)
          (fun j => exec sizeof body (env.bind i j)) fuel j s)
        (Parsers.rounds p rounds j d bytes) := by
    intro rounds
    induction rounds with
    | zero =>
        intro fuel j s d bytes hj hfuel hmem hs
        have hdone : ¬ (j : ℤ) <
            (Len.mk (accessField place "length") wide).value (env.bind i j) s := by
          rw [hvalue j s (by rw [hs.mem, hmem])]
          omega
        have hgap : ((j : ℤ) - n) * w = 0 := by
          rw [show (j : ℤ) = n by omega, sub_self, zero_mul]
        rw [loop_of_not_more hfuel (decide_eq_false hdone)]
        rw [hgap] at hs
        exact .parsed hs
    | succ rounds ih =>
        intro fuel j s d bytes hj hfuel hmem hs
        cases fuel with
        | zero => omega
        | succ fuel =>
            have hmore : (j : ℤ) <
                (Len.mk (accessField place "length") wide).value (env.bind i j) s := by
              rw [hvalue j s (by rw [hs.mem, hmem])]
              omega
            rw [loop, if_pos (decide_eq_true hmore), Parsers.rounds, seq]
            refine (hbody j s d bytes (by omega) hs).bind (hrest rounds (j + 1)) ?_
            intro s' d' rest hresult hs'
            refine ih fuel (j + 1) s' d' rest (by omega) (by omega) ?_ (by exact_mod_cast hs')
            rw [relates_length (hp j) hresult, hmem]
  have hfuel := lt_loopFuel
  rw [exec_loop]
  exact hloop n loopFuel 0 s d bytes (Nat.zero_add n) (by omega) hcount hs

/-- The bytes of an element that are paid for before the loop. -/
def Ty.prepaid (element : Ty) : ℤ := if element.isVariable then 0 else element.getSize

theorem elements_short {element : Ty} (h : element.isVariable = false) {q : ℕ → Spot}
    (hshort : (bytes.length : ℤ) < n * element.getSize) (j : ℕ) :
    rounds (fun j => element.parse sizeof (q j)) n j d bytes = .malformed := by
  have hpos := Ty.getSize_pos h
  simp only [parse_fixed sizeof element h]
  apply rounds_take_short
  have hcast : ((n * element.getSize.toNat : ℕ) : ℤ) = n * element.getSize := by
    push_cast
    rw [Int.toNat_of_nonneg hpos.le]
  omega

theorem allocated_conform (hsizeof : ∀ t, sizeof t < 2 ^ 32)
    {element : Ty} {w : ℤ} (huses : place.Uses used) (hi : i ∉ used) (hn : n < 2 ^ 31)
    (hp : ∀ j : ℕ, Relates (Draft.Extends (((place.spot env).sub "elements").elem j).loc) (p j))
    (hbody : ∀ (j : ℕ) (s : Core) (d : Draft) (bytes : List UInt8), j < n →
      Front stop ledger ((j - n) * w) d bytes s →
      Conforms stop ledger ((j + 1 - n) * w) (exec sizeof body (env.bind i j) s) (p j d bytes))
    (hcount : d.mem ((place.spot env).sub "length").loc = n)
    (hs : Front stop ledger ((0 - n) * w) d bytes s) :
    Conforms stop ledger 0
      (exec sizeof (.seq (.alloc ⟨accessField place "length", wide⟩ element)
        (.loop i ⟨accessField place "length", wide⟩ body)) env s)
      (seq (modify (Draft.take (n * sizeof element))) (rounds p n 0) d bytes) := by
  have hvalue : (Len.mk (accessField place "length") wide).value env s = n := by
    refine count_value ?_ (by omega) (by omega)
    rw [loc_member, hs.mem]
    exact hcount
  have hsmall : n * sizeof element < 2 ^ 63 := by
    have hle : n * sizeof element ≤ 2 ^ 31 * sizeof element := Nat.mul_le_mul_right _ hn.le
    have hlt := hsizeof element
    omega
  have hbytes : toSize ((n : ℤ) * sizeof element) = n * sizeof element := by
    rw [← Nat.cast_mul, toSize_of_nonneg (Int.natCast_nonneg _) (by exact_mod_cast by omega),
      Int.toNat_natCast]
  have hgrow : Relates (Draft.Extends (place.spot env).loc) (rounds p n 0) :=
    .rounds (.refl _) .trans (fun j => (hp j).mono
      fun _ _ => Draft.Extends.mono (suffix_loc_elem _ j)) n 0
  rw [exec, exec, hvalue, hbytes, seq, Parsers.modify, Parse.bind]
  cases halloc : s.arena.tickArenaAllocUnlocked (n * sizeof element) with
  | none => exact conforms_full (ledger.refused hsmall hs.arena halloc) hgrow
  | some result =>
      exact loop_conforms huses hi hn hp hbody hcount ⟨hs.bytes_at, hs.data, hs.size, hs.nonneg,
        hs.lt, hs.mem, ledger.taken hsmall hs.arena halloc⟩

theorem elements_conform (hsizeof : ∀ t, sizeof t < 2 ^ 32)
    {element : Ty} (huses : place.Uses used) (hi : i ∉ used)
    (hcountable : Countable element n)
    (hbody : ∀ (j : ℕ) (s : Core) (d : Draft) (bytes : List UInt8), j < n →
      Front stop ledger ((j - n) * element.prepaid) d bytes s →
      Conforms stop ledger ((j + 1 - n) * element.prepaid) (exec sizeof body (env.bind i j) s)
        (element.parse sizeof (((place.spot env).sub "elements").elem j) d bytes))
    (hcount : d.mem ((place.spot env).sub "length").loc = n)
    (hs : Front stop ledger 0 d bytes s) :
    Conforms stop ledger 0
      (exec sizeof (.seq (reserveElements ⟨accessField place "length", wide⟩ element)
        (.seq (.alloc ⟨accessField place "length", wide⟩ element)
          (.loop i ⟨accessField place "length", wide⟩ body))) env s)
      (seq (modify (Draft.take (n * sizeof element)))
        (rounds (fun j => element.parse sizeof (((place.spot env).sub "elements").elem j)) n 0)
        d bytes) := by
  rcases hcountable with ⟨-, hn, hproduct⟩
  have hp : ∀ j : ℕ, Relates (Draft.Extends (((place.spot env).sub "elements").elem j).loc)
      (element.parse sizeof (((place.spot env).sub "elements").elem j)) :=
    fun j => element.relates_parse sizeof _
  rw [exec]
  cases h : element.isVariable with
  | true =>
      have hzero : element.prepaid = 0 := by rw [Ty.prepaid, if_pos h]
      rw [reserveElements_variable _ h, exec, Outcome.next_bind]
      refine allocated_conform hsizeof huses hi (by omega) hp hbody hcount ?_
      rwa [hzero, mul_zero]
  | false =>
      have hpos := Ty.getSize_pos h
      have hpaid : element.prepaid = element.getSize := by
        rw [Ty.prepaid, if_neg (by rw [h]; exact Bool.false_ne_true)]
      have hvalue : (Len.mk (accessField place "length") wide).value env s = n := by
        refine count_value ?_ (by omega) (by omega)
        rw [loc_member, hs.mem]
        exact hcount
      have hnonneg : 0 ≤ (n : ℤ) * element.getSize := Int.mul_nonneg (by omega) hpos.le
      have hprod : ∀ counts, (Len.mk (accessField place "length") wide).product env
          { s with counts } element.getSize = n * element.getSize := by
        intro counts
        rw [← hvalue]
        refine Len.product_of_range ?_ ?_
        · rwa [← hvalue] at hnonneg
        · rwa [← hvalue] at hproduct
      have hsize := hs.size
      have hprod' := hprod s.counts
      rw [reserveElements_fixed _ h, exec, exec]
      rw [hprod']
      by_cases hshort : n * element.getSize > s.size
      · rw [if_pos hshort, Outcome.ret_bind, Outcome.ret_bind, seq, Parsers.modify, Parse.bind,
          elements_short h (by omega)]
        exact .malformed
      · rw [if_neg hshort, Outcome.next_bind, exec, Outcome.next_bind, hprod]
        have hsub := hs.subSize (n := n * element.getSize) (by omega) (by omega)
        refine allocated_conform hsizeof huses hi (by omega) hp hbody hcount ?_
        rw [hpaid, sub_mul, zero_mul]
        exact ⟨hsub.bytes_at, hsub.data, hsub.size, hsub.nonneg, hsub.lt, hsub.mem, hsub.arena⟩

end

/-! ## Runs of fields -/

/-- Where the code of fields starts. The check of a run of fixed fields was for `total` bytes, of
which those of the fields to come are in front. -/
def Fields.Runs (fields : Fields) (run : Option ℤ) (gap : ℤ) (bytes : List UInt8) : Prop :=
  match run with
  | none => gap = 0
  | some total => gap + fields.fixedTotal = total ∧ fields.fixedTotal ≤ bytes.length

theorem fields_short (fields : Fields) (p : Spot) (d : Draft) {bytes : List UInt8}
    (hshort : (bytes.length : ℤ) < fields.fixedTotal) :
    fields.parse sizeof p d bytes = .malformed := by
  cases fields with
  | nil => exact absurd hshort (by simp [Fields.fixedTotal])
  | cons name t fields =>
      rw [Fields.fixedTotal] at hshort
      cases h : t.isVariable with
      | true =>
          rw [if_pos h] at hshort
          omega
      | false =>
          have hpos := Ty.getSize_pos h
          rw [if_neg (by rw [h]; exact Bool.false_ne_true)] at hshort
          rw [Fields.parse, seq, parse_fixed sizeof t h, take]
          split
          · refine fields_short fields p _ ?_
            rw [List.length_drop]
            omega
          · rfl

variable (sizeof) in
theorem run_conforms {total : ℤ} (env : Env) (hs : Front stop ledger gap d bytes s)
    (hgap : gap = total) :
    Conforms stop ledger 0 (exec sizeof (.subSize total) env s) (.parsed d bytes) := by
  have hsize := hs.size
  have hsub := hs.subSize (n := total) (by omega) (by omega)
  rw [hgap, sub_self] at hsub
  rw [exec]
  exact .parsed hsub

theorem field_conforms {t : Ty} {fields : Fields} {total : ℤ} {name fn : String} {place : LVal}
    {k : ℕ} {env : Env} (h : t.isVariable = false) (hs : Front stop ledger gap d bytes s)
    (hruns : (Fields.cons name t fields).Runs (some total) gap bytes)
    (hrest : ∀ s d bytes, Front stop ledger (gap + t.getSize) d bytes s →
      fields.Runs (some total) (gap + t.getSize) bytes →
      Conforms stop ledger 0
        (exec sizeof (genFields .read rnd fn (some total) fields place (k + t.draws)) env s)
        (fields.parse sizeof (place.spot env) d bytes)) :
    Conforms stop ledger 0
      (exec sizeof (.seq (genCode .read rnd fn t (accessField place name) k)
        (genFields .read rnd fn (some total) fields place (k + t.draws))) env s)
      ((Fields.cons name t fields).parse sizeof (place.spot env) d bytes) := by
  have hpos := Ty.getSize_pos h
  rcases hruns with ⟨htotal, hfit⟩
  rw [Fields.fixedTotal, if_neg (by rw [h]; exact Bool.false_ne_true)] at htotal hfit
  have hnonneg := fixedTotal_nonneg fields
  have hfirst := fixed_conforms sizeof rnd h fn (accessField place name) k env
    hs (by omega)
  rw [spot_accessField] at hfirst
  rw [exec, Fields.parse]
  refine hfirst.bind (fields.relates_parse sizeof _) ?_
  intro s' d' rest hresult hs'
  refine hrest s' d' rest hs' ⟨by omega, ?_⟩
  rw [parse_fixed sizeof t h, take, if_pos (by omega)] at hresult
  cases hresult
  rw [List.length_drop]
  omega

/-! ## All types -/

mutual

theorem Ty.conforms (t : Ty) (hsizeof : ∀ t, sizeof t < 2 ^ 32)
    (hvar : t.isVariable = true) {fn : String} {used : List ℕ} {k : ℕ}
    (hfresh : t.Fresh rnd fn used k) {place : LVal} (huses : place.Uses used)
    (hshaped : place.Shaped) (env : Env) {d : Draft} {bytes : List UInt8} {s : Core}
    (hs : Front stop ledger 0 d bytes s) :
    Conforms stop ledger 0 (exec sizeof (genCode .read rnd fn t place k) env s)
      (t.parse sizeof (place.spot env) d bytes) := by
  cases t with
  | native n => exact native_conforms n fn place k env hvar hs
  | typedef name base =>
      have hbase : base.isVariable = true := by rwa [Ty.isVariable_typedef] at hvar
      have hbody := base.conforms hsizeof hbase hfresh (uses_sourceOf base [])
        (shaped_sourceOf base) ⟨place.loc env, fun _ => 0⟩ hs
      rw [spot_sourceOf] at hbody
      rw [genCode_typedef_variable _ _ _ _ _ _ hbase, Ty.parse, LVal.loc_spot]
      exact call_conforms (base.local_parse sizeof _) hs hbody
  | void => exact .parsed hs
  | container fields =>
      exact fields.conforms hsizeof hfresh huses hshaped env none hs rfl
  | «switch» up compareTo cases =>
      rw [genCode, Ty.parse]
      refine cases.conforms hsizeof hfresh huses hshaped env hs ?_
      rw [loc_sibling hshaped]
  | array count element =>
      rcases hfresh with ⟨hcountFresh, hi, helementFresh⟩
      have hcount : Conforms stop ledger 0 (exec sizeof (.seq (reserve count)
          (genCode .read rnd fn count (accessField place "length") k)) env s)
          (count.parse sizeof ((place.spot env).sub "length") d bytes) := by
        have hreserved := reserved_conforms sizeof rnd fn (accessField place "length") k env hs
          fun hvar => count.conforms hsizeof hvar hcountFresh (huses.accessField _)
            (hshaped.accessField _) env hs
        rwa [spot_accessField] at hreserved
      rw [genCode, exec_seq_assoc, exec, Ty.parse, seq]
      dsimp only
      refine hcount.bind (relates_parseElements sizeof element _ fun j =>
        element.relates_parse sizeof _) ?_
      · intro s' d' rest _ hs'
        rw [parseElements, choose]
        by_cases hcountable : Countable element (d'.mem ((place.spot env).sub "length").loc)
        · rw [if_pos hcountable]
          have hn : ((countAt d'.mem (place.spot env) : ℕ) : ℤ) =
              d'.mem ((place.spot env).sub "length").loc := Int.toNat_of_nonneg hcountable.1
          rw [← hn] at hcountable
          refine elements_conform hsizeof huses hi hcountable ?_ hn.symm hs'
          intro j s d bytes hj hs
          have hspot := LVal.spot_at (huses.accessField "elements") hi env j
          rw [spot_accessField] at hspot
          rw [← hspot]
          cases h : element.isVariable with
          | true =>
              have hzero : element.prepaid = 0 := by rw [Ty.prepaid, if_pos h]
              rw [hzero, mul_zero] at hs ⊢
              exact element.conforms hsizeof h helementFresh ((huses.accessField _).at _)
                ((hshaped.accessField _).at _) _ hs
          | false =>
              have hpos := Ty.getSize_pos h
              have hpaid : element.prepaid = element.getSize := by
                rw [Ty.prepaid, if_neg (by rw [h]; exact Bool.false_ne_true)]
              rw [hpaid] at hs ⊢
              have hsize := hs.size
              have hnonneg := hs.nonneg
              have hone : 1 * element.getSize ≤ ((countAt d'.mem (place.spot env) : ℤ) - j) *
                  element.getSize := Int.mul_le_mul_of_nonneg_right (by omega) hpos.le
              have hgap : ((j : ℤ) - countAt d'.mem (place.spot env)) * element.getSize =
                  -(((countAt d'.mem (place.spot env) : ℤ) - j) * element.getSize) := by ring
              have hcode := fixed_conforms sizeof rnd h fn
                ((accessField place "elements").at (rnd fn (k + count.draws)))
                (k + count.draws + 1) (env.bind (rnd fn (k + count.draws)) j) hs (by omega)
              have hnext : ((j : ℤ) - countAt d'.mem (place.spot env)) * element.getSize +
                  element.getSize =
                    (j + 1 - countAt d'.mem (place.spot env)) * element.getSize := by ring
              rwa [hnext] at hcode
        · rw [if_neg hcountable]
          exact .undefined
  | rest element => exact .undefined
  | bitfield fields =>
      cases fields with
      | nil => exact .undefined
      | cons field fields =>
          rw [bitfield_fixed (List.cons_ne_nil _ _)] at hvar
          cases hvar
  | option base => exact option_conforms base fn place k env hs

theorem Fields.conforms (fields : Fields) (hsizeof : ∀ t, sizeof t < 2 ^ 32) {fn : String}
    {used : List ℕ} {k : ℕ} (hfresh : fields.Fresh rnd fn used k) {place : LVal}
    (huses : place.Uses used)
    (hshaped : place.Shaped) (env : Env) (run : Option ℤ) {gap : ℤ} {d : Draft}
    {bytes : List UInt8} {s : Core} (hs : Front stop ledger gap d bytes s)
    (hruns : fields.Runs run gap bytes) :
    Conforms stop ledger 0 (exec sizeof (genFields .read rnd fn run fields place k) env s)
      (fields.parse sizeof (place.spot env) d bytes) := by
  cases fields with
  | nil =>
      cases run with
      | none =>
          have hgap : gap = 0 := hruns
          rw [hgap] at hs
          exact .parsed hs
      | some total =>
          have htotal := hruns.1
          rw [Fields.fixedTotal, add_zero] at htotal
          exact run_conforms sizeof env hs htotal
  | cons name t fields =>
      rcases hfresh with ⟨hft, hfrest⟩
      cases h : t.isVariable with
      | true =>
          have hrest : ∀ s d bytes, Front stop ledger 0 d bytes s →
              Conforms stop ledger 0 (exec sizeof (.seq
                (genCode .read rnd fn t (accessField place name) k)
                (genFields .read rnd fn none fields place (k + t.draws))) env s)
                ((Fields.cons name t fields).parse sizeof (place.spot env) d bytes) := by
            intro s d bytes hs
            have ht := t.conforms hsizeof h hft (huses.accessField name)
              (hshaped.accessField name) env hs
            rw [spot_accessField] at ht
            rw [exec, Fields.parse]
            exact ht.bind (fields.relates_parse sizeof _) fun s' d' rest _ hs' =>
              fields.conforms hsizeof hfrest huses hshaped env none hs' rfl
          simp only [genFields, h, if_true]
          cases run with
          | none =>
              have hgap : gap = 0 := hruns
              rw [hgap] at hs
              rw [exec_skip_seq]
              exact hrest s d bytes hs
          | some total =>
              have hgap : gap = total := by
                have htotal := hruns.1
                rwa [Fields.fixedTotal, if_pos h, add_zero] at htotal
              have hend := run_conforms sizeof env hs hgap
              rw [exec]
              cases hend with
              | parsed hs' => exact hrest _ d bytes hs'
      | false =>
          have hfields := fun total (s : Core) (d : Draft) (bytes : List UInt8)
              (hs : Front stop ledger (gap + t.getSize) d bytes s)
              (hruns : fields.Runs (some total) (gap + t.getSize) bytes) =>
            fields.conforms hsizeof hfrest huses hshaped env (some total) hs hruns
          simp only [genFields, h, Bool.false_eq_true, if_false]
          cases run with
          | none =>
              have hgap : gap = 0 := hruns
              have hsize := hs.size
              dsimp only
              rw [exec, exec]
              by_cases hshort : s.size < (Fields.cons name t fields).fixedTotal
              · rw [if_pos hshort, fields_short _ _ _ (by omega)]
                exact .malformed
              · rw [if_neg hshort]
                exact field_conforms h hs ⟨by omega, by omega⟩ (hfields _)
          | some total => exact field_conforms h hs hruns (hfields total)

theorem Cases.conforms (cases : Cases) (hsizeof : ∀ t, sizeof t < 2 ^ 32) {fn : String}
    {used : List ℕ} {k : ℕ} (hfresh : cases.Fresh rnd fn used k) {place : LVal}
    (huses : place.Uses used)
    (hshaped : place.Shaped) (env : Env) {d : Draft} {bytes : List UInt8} {s : Core}
    (hs : Front stop ledger 0 d bytes s) {discriminant : LVal} {l : Loc}
    (hloc : discriminant.loc env = l) :
    Conforms stop ledger 0
      (exec sizeof (genCases .read rnd fn discriminant cases place k) env s)
      (cases.parse sizeof l (place.spot env) d bytes) := by
  cases cases with
  | nil => exact .malformed
  | cons name t value cases =>
      rcases hfresh with ⟨hft, hfrest⟩
      have hcode : Conforms stop ledger 0 (exec sizeof
          (caseCode t (genCode .read rnd fn t (accessField place name) k)) env s)
          (t.parse sizeof ((place.spot env).sub name) d bytes) := by
        rw [← spot_accessField, caseCode]
        cases hvoid : t.isVoid with
        | true =>
            cases t with
            | void => exact .parsed hs
            | _ => cases hvoid
        | false =>
            exact reserved_conforms sizeof rnd fn (accessField place name) k env hs fun hvar =>
              t.conforms hsizeof hvar hft (huses.accessField name) (hshaped.accessField name) env hs
      have hrest := cases.conforms hsizeof hfrest huses hshaped env hs hloc
      have hchoice : value ≠ .default → Conforms stop ledger 0 (exec sizeof
          (.ite (caseTest discriminant value)
            (caseCode t (genCode .read rnd fn t (accessField place name) k))
            (genCases .read rnd fn discriminant cases place (k + t.draws))) env s)
          ((Cases.cons name t value cases).parse sizeof l (place.spot env) d bytes) := by
        intro hvalue
        have htest := caseTest_holds hvalue discriminant env s
        rw [hloc, hs.mem] at htest
        simp only [exec, htest]
        rw [Cases.parse, choose]
        split
        · exact hcode
        · exact hrest
      cases value with
      | default => exact hcode
      | int value => exact hchoice (by simp)
      | bool value => exact hchoice (by simp)
      | string value => exact hchoice (by simp)

end

end

/-! ## Generated readers -/

/-- What a reader makes of `n` bytes. For a value it returns how many of the bytes it has, if the
arena has room for it, and for anything else it returns -1. -/
def Reads (arena : TickArena) (n : ℕ) (result : Option (ℤ × Core)) : Parse UInt8 Draft → Prop
  | .parsed d rest =>
      if arena.currentOffset + d.used ≤ arena.maxSize then
        ∃ s, result = some ((n : ℤ) - rest.length, s) ∧ s.mem = d.mem ∧
          s.arena = { arena with currentOffset := arena.currentOffset + d.used }
      else ∃ s, result = some (-1, s)
  | .malformed => ∃ s, result = some (-1, s)
  | .undefined => True

theorem Conforms.reads {arena : TickArena} {hmax : arena.maxSize < 2 ^ 63} {n : ℕ}
    {o : Outcome Core} {r : Parse UInt8 Draft} (h : Conforms n (.own arena hmax) 0 o r)
    (hn : n < 2 ^ 31) : Reads arena n (finish n o) r := by
  cases h with
  | @parsed s d rest hs =>
      have hdata := hs.data
      have hsize := hs.size
      have hret : toInt32 (n - s.size) = n - rest.length := by
        rw [hsize, add_zero]
        exact toInt32_of_range (by omega) (by omega)
      rcases hs.arena with ⟨hroom, harena⟩
      rw [Reads, if_pos hroom, finish, hret]
      exact ⟨s, rfl, hs.mem, harena⟩
  | @full s d rest hfull =>
      rw [Reads, if_neg (Nat.not_le.mpr hfull)]
      exact ⟨s, rfl⟩
  | @malformed s => exact ⟨s, rfl⟩
  | undefined => trivial

theorem front_start {data : List UInt8} (hdata : data.length < 2 ^ 31) (beyond : ℕ → UInt8)
    (ledger : Ledger) {arena : TickArena} (harena : ledger.Holds 0 arena) (mem : Loc → ℤ) :
    Front data.length ledger 0 ⟨mem, 0⟩ data
      (Core.start (ofList data beyond) data.length arena mem) where
  bytes_at := at_ofList data beyond
  data := Nat.zero_add _
  size := (add_zero _).symm
  nonneg := Int.natCast_nonneg _
  lt := hdata
  mem := rfl
  arena := harena

theorem call_reads {sizeof : Ty → ℕ} (hsizeof : ∀ t, sizeof t < 2 ^ 32) (rnd : String → ℕ → ℕ)
    {name : String} {t : Ty} (hvar : t.isVariable = true) (hfresh : t.Fresh rnd name [] 0)
    (packet : Loc) {data : List UInt8} (hdata : data.length < 2 ^ 31) (beyond : ℕ → UInt8)
    {arena : TickArena} (hroom : arena.currentOffset ≤ arena.maxSize)
    (hmax : arena.maxSize < 2 ^ 63) (mem : Loc → ℤ) :
    Reads arena data.length
      (callFunction sizeof (generateRead rnd name t) packet
        (Core.start (ofList data beyond) data.length arena mem))
      (t.parse sizeof ⟨packet, []⟩ ⟨mem, 0⟩ data) := by
  have hconforms := t.conforms hsizeof hvar hfresh (uses_sourceOf t []) (shaped_sourceOf t)
    ⟨packet, fun _ => 0⟩ (front_start hdata beyond _ (Ledger.own_holds hmax hroom) mem)
  rw [spot_sourceOf] at hconforms
  exact hconforms.reads hdata

/-- Whatever the arena is, a reader only accepts what the grammar does. -/
theorem call_accepts {sizeof : Ty → ℕ} (hsizeof : ∀ t, sizeof t < 2 ^ 32) {rnd : String → ℕ → ℕ}
    {name : String} {t : Ty} (hvar : t.isVariable = true) (hfresh : t.Fresh rnd name [] 0)
    {packet : Loc} {data : List UInt8} (hdata : data.length < 2 ^ 31) {beyond : ℕ → UInt8}
    {arena : TickArena} {mem : Loc → ℤ} {ret : ℤ} {s : Core}
    (hcall : callFunction sizeof (generateRead rnd name t) packet
      (Core.start (ofList data beyond) data.length arena mem) = some (ret, s))
    (hret : 0 ≤ ret) :
    t.parse sizeof ⟨packet, []⟩ ⟨mem, 0⟩ data = .undefined ∨
      ∃ d rest, t.parse sizeof ⟨packet, []⟩ ⟨mem, 0⟩ data = .parsed d rest ∧
        ret = data.length - rest.length ∧ s.mem = d.mem := by
  have hconforms := t.conforms hsizeof hvar hfresh (uses_sourceOf t []) (shaped_sourceOf t)
    ⟨packet, fun _ => 0⟩
    (front_start hdata beyond .any (show Ledger.any.Holds 0 arena from trivial) mem)
  rw [spot_sourceOf] at hconforms
  rw [callFunction, generateRead, genReadCode] at hcall
  generalize exec sizeof (genCode .read rnd name t (sourceOf t) 0) ⟨packet, fun _ => 0⟩
    (Core.start (ofList data beyond) data.length arena mem) = o at hcall hconforms
  generalize t.parse sizeof ⟨packet, []⟩ ⟨mem, 0⟩ data = result at hconforms
  cases hconforms with
  | @parsed s' d rest hs =>
      rw [finish, Option.some_inj, Prod.mk.injEq] at hcall
      rcases hcall with ⟨rfl, rfl⟩
      have hdata' := hs.data
      have hsize := hs.size
      have hstart : (Core.start (ofList data beyond) data.length arena mem).size =
          data.length := rfl
      refine Or.inr ⟨d, rest, rfl, ?_, hs.mem⟩
      rw [hstart, hsize, add_zero]
      exact toInt32_of_range (by omega) (by omega)
  | full | malformed =>
      rw [finish, Option.some_inj, Prod.mk.injEq] at hcall
      omega
  | undefined => exact Or.inl rfl

theorem Reads.abstracts {arena : TickArena} {n : ℕ} {result : Option (ℤ × Core)}
    {r q : Parse UInt8 Draft} (h : Reads arena n result r) (hq : q = .undefined ∨ q = r) :
    Reads arena n result q := by
  rcases hq with rfl | rfl
  · trivial
  · exact h

theorem comparesSiblings_encryptionResponse :
    Packets.loginEncryptionResponse.ComparesSiblings [] ⟨[], []⟩ := by
  simp [Packets.loginEncryptionResponse, Packets.container, Packets.buffer, Packets.varint,
    Ty.ComparesSiblings, Fields.ComparesSiblings]

/-- The bytes that a reader returned as the length of a value decide alone what the value is,
whatever comes behind them and wherever in an arena it is decoded. -/
theorem reader_self_delimiting (sizeof : Ty → ℕ) (hsizeof : ∀ t, sizeof t < 2 ^ 32)
    (rnd rnd' : String → ℕ → ℕ) (name : String) (t : Ty) (hvar : t.isVariable = true)
    (hfresh : t.Fresh rnd name [] 0) (hfresh' : t.Fresh rnd' name [] 0) (packet : Loc)
    (data : List UInt8) (hdata : data.length < 2 ^ 31) (beyond : ℕ → UInt8) (arena : TickArena)
    (hroom : arena.currentOffset ≤ arena.maxSize) (hmax : arena.maxSize < 2 ^ 63)
    (mem : Loc → ℤ) (hdefined : t.parse sizeof ⟨packet, []⟩ ⟨mem, 0⟩ data ≠ .undefined)
    (n : ℕ) (s : Core)
    (hcall : callFunction sizeof (generateRead rnd name t) packet
      (Core.start (ofList data beyond) data.length arena mem) = some ((n : ℤ), s)) :
    n ≤ data.length ∧ ∃ used,
      s.arena = { arena with currentOffset := arena.currentOffset + used } ∧
      ∀ (more : List UInt8) (beyond' : ℕ → UInt8) (arena' : TickArena),
        n + more.length < 2 ^ 31 → arena'.currentOffset + used ≤ arena'.maxSize →
        arena'.maxSize < 2 ^ 63 →
        ∃ s', callFunction sizeof (generateRead rnd' name t) packet
            (Core.start (ofList (data.take n ++ more) beyond') (n + more.length) arena' mem) =
              some ((n : ℤ), s') ∧
          s'.mem = s.mem ∧
          s'.arena = { arena' with currentOffset := arena'.currentOffset + used } := by
  have hreads := call_reads hsizeof rnd hvar hfresh packet hdata beyond hroom hmax mem
  cases hresult : t.parse sizeof ⟨packet, []⟩ ⟨mem, 0⟩ data with
  | malformed =>
      rw [hresult] at hreads
      rcases hreads with ⟨s', hs'⟩
      rw [hcall] at hs'
      cases hs'
  | undefined => exact absurd hresult hdefined
  | parsed d rest =>
      rw [hresult, Reads] at hreads
      split at hreads
      · rcases t.local_parse sizeof _ _ _ _ _ hresult with ⟨front, rfl, hfront⟩
        rcases hreads with ⟨s', hs', hmem, harena⟩
        rw [hcall, Option.some_inj, Prod.mk.injEq, List.length_append] at hs'
        rcases hs' with ⟨hn, rfl⟩
        rw [List.length_append] at hdata
        obtain rfl : n = front.length := by omega
        refine ⟨by rw [List.length_append]; omega, d.used, harena, ?_⟩
        intro more beyond' arena' hlt hroom' hmax'
        have hreads' := call_reads hsizeof rnd' hvar hfresh' packet
          (show (front ++ more).length < 2 ^ 31 by rwa [List.length_append]) beyond'
          (show arena'.currentOffset ≤ arena'.maxSize by omega) hmax' mem
        rw [hfront, Reads, if_pos hroom', List.length_append] at hreads'
        rcases hreads' with ⟨s', hs', hmem', harena'⟩
        rw [List.take_left]
        refine ⟨s', ?_, hmem'.trans hmem.symm, harena'⟩
        rw [hs']
        simp
      · rcases hreads with ⟨s', hs'⟩
        rw [hcall] at hs'
        cases hs'

/-- A secret and a token, with more bytes behind them and in an empty arena. -/
theorem reader_self_delimiting_tokens :
    ∃ s, callFunction (fun _ => 1)
        (generateRead (fun _ k => k + 1) "login_packet_encryption_response"
          Packets.loginEncryptionResponse) []
        (Core.start (ofList [1, 7, 2, 8, 9, 0, 0] fun _ => 1) 7 (TickArena.initArena 0x100000000)
          (fun _ => 0)) = some (5, s) := by
  have hread : (callFunction (fun _ => 1)
      (generateRead (fun _ k => k) "login_packet_encryption_response"
        Packets.loginEncryptionResponse) []
      (Core.start (ofList [1, 7, 2, 8, 9] fun _ => 0) 5 usedArena (fun _ => 0))).map
        (fun result => (result.1, result.2.arena.currentOffset)) = some (5, 67) := by
    decide +kernel
  rcases Option.map_eq_some_iff.mp hread with ⟨⟨ret, s⟩, hcall, hresult⟩
  rw [Prod.mk.injEq] at hresult
  rcases hresult with ⟨hret, harena⟩
  rw [show ret = 5 from hret] at hcall
  rcases reader_self_delimiting (fun _ => 1) (fun _ => by decide) (fun _ k => k)
    (fun _ k => k + 1) "login_packet_encryption_response" Packets.loginEncryptionResponse
    (Ty.isVariable_container _) fresh_encryptionResponse
    (by simp [Packets.loginEncryptionResponse, Packets.container, Packets.buffer, Packets.varint,
      Ty.Fresh, Fields.Fresh])
    [] [1, 7, 2, 8, 9] (by decide) (fun _ => 0) usedArena (by decide) (by decide) (fun _ => 0)
    (fun hundefined => by cases hundefined) 5 s hcall with ⟨-, used, hused, hread⟩
  have hoffset : 64 + used = 67 := by
    rw [← harena]
    dsimp only
    rw [hused]
    rfl
  have husedEq : used = 3 := by omega
  rcases hread [0, 0] (fun _ => 1) (TickArena.initArena 0x100000000) (by decide)
    (by rw [husedEq]; decide) (by decide) with ⟨s', hs', -⟩
  exact ⟨s', hs'⟩

end CmcServer.ProtoDef
