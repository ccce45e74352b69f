import CmcServer.Verification.ProtoDef.Writers

/-! # Writers and walks

In a buffer that an `int` can measure, a generated writer walks over the layout of its value: it
stops where a check of the walk fails, and touches memory past its buffer where the walk
overruns. -/

namespace CmcServer.ProtoDef

open Bytes EarlyReturn

section

variable {size : ℕ} {m : Loc → ℤ}

/-- The state that the walk `w` leads to, before `left` is written and while `debt` bytes of it
are not yet taken from `size`. -/
structure Pending (size : ℕ) (m : Loc → ℤ) (w : Walk) (debt : ℤ) (left : List UInt8)
    (s : Core) : Prop where
  size_eq : s.size = size - w.used + debt
  data_eq : s.data + left.length = w.data
  buffer_eq : store s.buffer s.data left = w.buffer
  mem_eq : s.mem = m
  touched_le : s.touched ≤ size
  room : left = [] ∨ w.data ≤ size
  data_le : w.data ≤ w.used
  used_le : w.used ≤ size + min w.data size

abbrev Sync (size : ℕ) (m : Loc → ℤ) (w : Walk) (s : Core) : Prop := Pending size m w 0 [] s

/-- The outcome of a writer that belongs to the end of a walk. -/
def Follows (size : ℕ) (m : Loc → ℤ) (o : Outcome Core) : Verdict → Prop
  | .done w => ∃ s, o = .next s ∧ Sync size m w s
  | .fails => ∃ s, o = .ret s ∧ s.touched ≤ size
  | .overruns => o.All (size < ·.touched)

/-- A statement that walks over `pieces`. -/
def Tracks (size : ℕ) (m : Loc → ℤ) (sizeof : Ty → ℕ) (c : Cmd) (env : Env)
    (pieces : List Piece) : Prop :=
  ∀ w s, Sync size m w s → Follows size m (exec sizeof c env s) (walk size pieces w)

variable {sizeof : Ty → ℕ} {env : Env} {c d : Cmd} {xs ys : List Piece}

theorem overrun_grows {s : Core} (h : size < s.touched) :
    (exec sizeof c env s).All (size < ·.touched) := by
  have hgrows := exec_grows sizeof s c env (.refl s)
  revert hgrows
  cases exec sizeof c env s with
  | next s' => exact fun hgrows => h.trans_le hgrows.touched
  | ret s' => exact fun hgrows => h.trans_le hgrows.touched
  | diverge => exact id

theorem Follows.bind {o : Outcome Core} {v : Verdict} {next : Stmt Core} {f : Walk → Verdict}
    (ho : Follows size m o v) (hnext : ∀ w s, Sync size m w s → Follows size m (next s) (f w))
    (hgrows : ∀ s, size < s.touched → (next s).All (size < ·.touched)) :
    Follows size m (o.bind next) (v.bind f) := by
  cases v with
  | done w =>
      rcases ho with ⟨s, rfl, hs⟩
      exact hnext w s hs
  | fails =>
      rcases ho with ⟨s, rfl, hs⟩
      exact ⟨s, rfl, hs⟩
  | overruns => exact Outcome.All.bind ho hgrows

theorem tracks_skip : Tracks size m sizeof .skip env [] := fun _ s hs => ⟨s, rfl, hs⟩

theorem Tracks.seq (hc : Tracks size m sizeof c env xs) (hd : Tracks size m sizeof d env ys) :
    Tracks size m sizeof (.seq c d) env (xs ++ ys) := by
  intro w s hs
  rw [exec, walk_append]
  exact (hc w s hs).bind hd fun s hs => overrun_grows hs
theorem Tracks.ite {test : Test} {b : Bool} (htest : ∀ s, s.mem = m → test.holds env s = b)
    (hc : b = true → Tracks size m sizeof c env xs)
    (hd : b = false → Tracks size m sizeof d env xs) :
    Tracks size m sizeof (.ite test c d) env xs := by
  intro w s hs
  rw [exec, htest s hs.mem_eq]
  cases b with
  | true => exact hc rfl w s hs
  | false => exact hd rfl w s hs

/-! ## Checked pieces -/

/-- A piece whose bytes are all taken from `size` and fit leads into its middle. -/
theorem Pending.enter_piece {w : Walk} {s : Core} (hs : Sync size m w s) (piece : Piece)
    (hused : piece.used = piece.written.length) (hadvance : piece.advance = piece.written.length)
    (hfits : w.data + piece.written.length ≤ size) :
    Pending size m (piece.step w) piece.written.length piece.written s := by
  have hdata := hs.data_eq
  have hle := hs.data_le
  have hbefore := hs.used_le
  have hsize := hs.size_eq
  have hbuffer := hs.buffer_eq
  simp only [List.length_nil, Nat.add_zero] at hdata
  rw [store_nil] at hbuffer
  exact {
    size_eq := by
      simp only [Piece.step, hused]
      push_cast
      omega
    data_eq := by
      simp only [Piece.step, hadvance]
      omega
    buffer_eq := by
      simp only [Piece.step]
      rw [hbuffer, hdata]
    mem_eq := hs.mem_eq
    touched_le := hs.touched_le
    room := by
      right
      simp only [Piece.step, hadvance]
      exact hfits
    data_le := by
      simp only [Piece.step, hadvance, hused]
      omega
    used_le := by
      simp only [Piece.step, hadvance, hused]
      omega }

/-- A check that passes and counts right leads into the middle of its piece. -/
theorem Pending.enter {w : Walk} {s : Core} {room : ℤ} {bytes : List UInt8}
    (hs : Sync size m w s) (hpass : ¬ (Piece.checked room bytes).Fails size w)
    (hfits : (Piece.checked room bytes).Fits size w) :
    Pending size m ((Piece.checked room bytes).step w) room bytes s := by
  have hle := hs.data_le
  simp only [Piece.Fails, Int.not_lt] at hpass
  simp only [Piece.Fits] at hfits
  rw [hfits] at hpass ⊢
  exact hs.enter_piece (.checked _ bytes) rfl rfl (by simp only [Piece.written]; omega)

theorem Pending.pay (hsize : size < 2 ^ 31) {w : Walk} {s : Core} {room : ℤ}
    {left : List UInt8} (hs : Pending size m w room left s) :
    Pending size m w 0 left { s with size := toInt32 (s.size - room) } := by
  have hle := hs.used_le
  have heq := hs.size_eq
  have hnext : toInt32 (s.size - room) = s.size - room := by
    apply toInt32_of_range
    · omega
    · omega
  exact { hs with
    size_eq := by
      simp only [hnext]
      omega }

theorem Pending.write {w : Walk} {s s' : Core} {debt : ℤ} {bytes left : List UInt8}
    (hs : Pending size m w debt (bytes ++ left) s) (hwrote : Wrote bytes s s') :
    Pending size m w debt left s' := by
  have hdata := hs.data_eq
  have hbuffer := hs.buffer_eq
  rw [List.length_append] at hdata
  rw [← store_append] at hbuffer
  have htouched := hwrote.touched
  have hle := s.touch_le bytes.length
  have hbefore := hs.touched_le
  exact {
    size_eq := hwrote.size.trans hs.size_eq
    data_eq := by
      rw [hwrote.data]
      omega
    buffer_eq := by
      rw [hwrote.buffer, hwrote.data]
      exact hbuffer
    mem_eq := hwrote.mem.trans hs.mem_eq
    touched_le := by
      rcases hs.room with hnil | hroom
      · rcases List.append_eq_nil_iff.mp hnil with ⟨rfl, _⟩
        rw [htouched]
        exact hbefore
      · omega
    room := by
      rcases hs.room with hnil | hroom
      · exact Or.inl (List.append_eq_nil_iff.mp hnil).2
      · exact Or.inr hroom
    data_le := hs.data_le
    used_le := hs.used_le }

theorem Pending.write_all {w : Walk} {s s' : Core} {debt : ℤ} {bytes : List UInt8}
    (hs : Pending size m w debt bytes s) (hwrote : Wrote bytes s s') :
    Pending size m w debt [] s' := by
  apply Pending.write _ hwrote
  rwa [List.append_nil]

theorem tracks_checked (hsize : size < 2 ^ 31) {n : ℤ} {bytes : List UInt8}
    (hlen : (bytes.length : ℤ) = n)
    (hcode : ∀ s, s.mem = m → ∃ s', exec sizeof c env s = .next s' ∧ Charged n bytes s s') :
    Tracks size m sizeof (.seq (.checkSize n) c) env [.checked n bytes] := by
  intro w s hs
  have heq := hs.size_eq
  by_cases hfails : (Piece.checked n bytes).Fails size w
  · have hshort : s.size < n := by
      simp only [Piece.Fails] at hfails
      omega
    rw [walk_fails hfails]
    exact ⟨s, by simp only [exec, if_pos hshort, Outcome.ret_bind], hs.touched_le⟩
  · have hroom : ¬ s.size < n := by
      simp only [Piece.Fails] at hfails
      omega
    have hfits : (Piece.checked n bytes).Fits size w := hlen.symm
    rcases hcode s hs.mem_eq with ⟨s', hs', hpaid⟩
    have hwritten := ((hs.enter hfails hfits).write_all hpaid.wrote).pay hsize
    rw [← hpaid.size] at hwritten
    rw [walk_step hfails hfits]
    exact ⟨s', by simp only [exec, if_neg hroom, Outcome.next_bind, hs'], hwritten⟩

/-- A room check with nothing behind it. -/
theorem tracks_reserve (hsize : size < 2 ^ 31) {n : ℤ} (hn : 0 ≤ n) :
    Tracks size m sizeof (.seq (.checkSize n) (.subSize n)) env [.reserved n] := by
  intro w s hs
  have heq := hs.size_eq
  have hle := hs.used_le
  have hdata := hs.data_le
  by_cases hfails : (Piece.reserved n).Fails size w
  · have hshort : s.size < n := by
      simp only [Piece.Fails] at hfails
      omega
    rw [walk_fails hfails]
    exact ⟨s, by simp only [exec, if_pos hshort, Outcome.ret_bind], hs.touched_le⟩
  · have hfits : (Piece.reserved n).Fits size w := trivial
    have hpass : ¬ (size : ℤ) - w.used < n := hfails
    have hroom : ¬ s.size < n := by omega
    have hnext : toInt32 (s.size - n) = s.size - n := toInt32_of_range (by omega) (by omega)
    rw [walk_step hfails hfits]
    refine ⟨{ s with size := toInt32 (s.size - n) }, ?_, ?_⟩
    · simp only [exec, if_neg hroom, Outcome.next_bind]
    · exact { hs with
        size_eq := by
          simp only [hnext, Piece.step, Piece.used]
          push_cast
          omega
        buffer_eq := by
          have hbuffer := hs.buffer_eq
          simp only [Piece.step, Piece.written, store_nil] at hbuffer ⊢
          exact hbuffer
        data_le := by
          simp only [Piece.step, Piece.used, Piece.advance]
          omega
        used_le := by
          simp only [Piece.step, Piece.used, Piece.advance]
          omega }

theorem tracks_dropped (bytes : List UInt8) :
    Tracks size m sizeof .skip env [.dropped bytes] := by
  intro w s hs
  have hpass : ¬ (Piece.dropped bytes).Fails size w := id
  have hfits : (Piece.dropped bytes).Fits size w := trivial
  rw [walk_step hpass hfits]
  refine ⟨s, rfl, ?_⟩
  have hstep : (Piece.dropped bytes).step w = w := by
    simp only [Piece.step, Piece.used, Piece.advance, Piece.written, store_nil, Nat.add_zero]
  rw [hstep]
  exact hs

/-! ## Varints -/

/-- A varint is written whether it fits or not. -/
theorem tracks_varint (hsize : size < 2 ^ 31) {n : Native} (hn : n ≠ .nbt) {place : LVal}
    (hlo : 0 ≤ m (place.loc env)) (hhi : m (place.loc env) < 2 ^ 63) :
    Tracks size m sizeof (.variable .write n place) env
      [.varint (Base128.encode (m (place.loc env)).toNat)] := by
  intro w s hs
  rw [← hs.mem_eq] at hlo hhi
  rw [exec, writeVariable_varint hn hlo hhi, hs.mem_eq]
  have hpos := Base128.encode_length_pos (m (place.loc env)).toNat
  generalize Base128.encode (m (place.loc env)).toNat = bytes at hpos
  have hwrote : Wrote bytes s ((s.writeBytes bytes).advance bytes.length) :=
    ⟨rfl, rfl, rfl, rfl, rfl⟩
  have hpass : ¬ (Piece.varint bytes).Fails size w := id
  by_cases hfits : (Piece.varint bytes).Fits size w
  · rw [walk_step hpass hfits]
    exact ⟨_, rfl, ((hs.enter_piece (.varint bytes) rfl rfl hfits).write_all hwrote).pay hsize⟩
  · have hdata := hs.data_eq
    have htouched : s.data + bytes.length ≤ (s.touch bytes.length).touched := by
      rw [Core.touch_touched, if_neg (by omega)]
      exact le_max_right _ _
    rw [walk_overruns hpass hfits]
    simp only [Piece.Fits] at hfits
    simp only [Follows, Outcome.All]
    rw [← hwrote.touched] at htouched
    rw [List.length_nil] at hdata
    exact lt_of_lt_of_le (by omega) htouched

theorem tracks_nbt {place : LVal} (bytes : List UInt8) :
    Tracks size m sizeof (.variable .write .nbt place) env [.nbt bytes] := by
  intro w s hs
  have hfails : (Piece.nbt bytes).Fails size w := trivial
  rw [exec, writeVariable, if_pos rfl, walk_fails hfails]
  exact ⟨s, rfl, hs.touched_le⟩

/-! ## Calls -/

/-- A call of the function of a typedef. -/
theorem tracks_call (hsize : size < 2 ^ 31) {body : Cmd} {place : LVal}
    (hle : advanceBy xs ≤ usedBy xs)
    (hbody : Tracks size m sizeof body ⟨place.loc env, fun _ => 0⟩ xs) :
    Tracks size m sizeof (.call body place) env (xs ++ [returnedBy xs]) := by
  intro w s hs
  have hfollows := hbody w s hs
  cases hwalk : walk size xs w with
  | done w' =>
      rw [hwalk] at hfollows
      rcases hfollows with ⟨s', hs', hsync⟩
      rcases walk_done hwalk with ⟨hused, hdata⟩
      have heq := hs.size_eq
      have heq' := hsync.size_eq
      have hused' := hsync.used_le
      have hle' := hsync.data_le
      have hat := hs.data_eq
      have hbefore := hs.data_le
      rw [List.length_nil] at hat
      have hdiff : s.size - s'.size = usedBy xs := by omega
      have hnonneg : (0 : ℤ) ≤ usedBy xs := Int.natCast_nonneg _
      have husedlt : (usedBy xs : ℤ) < 2 ^ 32 := by omega
      rw [exec, hs', finish, hdiff, resume, walk_append, hwalk, Verdict.bind]
      by_cases hfails : (returnedBy xs).Fails size w'
      · have hlarge := returnedBy_fails.mp hfails
        have hneg := (toInt32_neg_iff hnonneg husedlt).mpr (by exact_mod_cast hlarge)
        rw [walk_fails hfails, if_pos hneg]
        exact ⟨_, rfl, hsync.touched_le⟩
      · have hsmall := mt returnedBy_fails.mpr hfails
        have hret := mt (toInt32_neg_iff hnonneg husedlt).mp (by exact_mod_cast hsmall)
        have hnext : toInt32 (s.size - usedBy xs) = s'.size := by
          rw [← hdiff, Int.sub_sub_self]
          exact toInt32_of_range (by omega) (by omega)
        have hfits : (returnedBy xs).Fits size w' := trivial
        rw [if_neg hret, toInt32_of_range (by omega) (by omega), hnext, walk_step hfails hfits]
        refine ⟨_, rfl, ?_⟩
        have hbuffer := hsync.buffer_eq
        rw [store_nil] at hbuffer
        exact {
          size_eq := hsync.size_eq
          data_eq := by
            simp only [Piece.step, returnedBy, Piece.advance, List.length_nil]
            omega
          buffer_eq := by
            simp only [store_nil, Piece.step, returnedBy, Piece.written, hbuffer]
          mem_eq := hsync.mem_eq
          touched_le := hsync.touched_le
          room := Or.inl rfl
          data_le := by
            simp only [Piece.step, returnedBy, Piece.advance, Piece.used]
            omega
          used_le := by
            simp only [Piece.step, returnedBy, Piece.advance, Piece.used]
            omega }
  | fails =>
      rw [hwalk] at hfollows
      rcases hfollows with ⟨s', hs', htouched⟩
      rw [exec, hs', finish, resume, if_pos (by decide), walk_append, hwalk]
      exact ⟨_, rfl, htouched⟩
  | overruns =>
      rw [hwalk] at hfollows
      rw [exec, walk_append, hwalk]
      revert hfollows
      cases exec sizeof body ⟨place.loc env, fun _ => 0⟩ s with
      | next s' =>
          intro htouched
          rw [finish, resume]
          split <;> exact htouched
      | ret s' =>
          intro htouched
          rw [finish, resume, if_pos (by decide)]
          exact htouched
      | diverge => exact id

/-! ## Arrays -/

theorem tracks_counted (hsize : size < 2 ^ 31) {length : Len} {n room : ℤ} {bytes : List UInt8}
    (hproduct : ∀ s, s.mem = m → length.product env s n = room)
    (hlen : bytes.length < 2 ^ 31 → room = bytes.length)
    (hcode : ∀ s, s.mem = m → ∃ s', exec sizeof c env s = .next s' ∧ Wrote bytes s s') :
    Tracks size m sizeof (.seq (.seq (.checkCount length n) (.subCount length n)) c) env
      [.checked room bytes] := by
  intro w s hs
  have heq := hs.size_eq
  have hstart := hproduct s hs.mem_eq
  by_cases hfails : (Piece.checked room bytes).Fails size w
  · have hshort : length.product env s n > s.size := by
      simp only [Piece.Fails] at hfails
      omega
    rw [walk_fails hfails]
    exact ⟨s, by simp only [exec, if_pos hshort, Outcome.ret_bind], hs.touched_le⟩
  · have hpass : ¬ length.product env s n > s.size := by
      simp only [Piece.Fails] at hfails
      omega
    rcases hcode { s with
      size := toInt32 (s.size - room)
      counts := (length.value env s, n) :: s.counts } hs.mem_eq with ⟨s', hs', hwrote⟩
    have hafter : exec sizeof (.seq (.seq (.checkCount length n) (.subCount length n)) c) env s =
        .next s' := by
      rw [exec, exec, exec, if_neg hpass, Outcome.next_bind, exec,
        hproduct { s with counts := (length.value env s, n) :: s.counts } hs.mem_eq,
        Outcome.next_bind, hs']
    rw [hafter]
    by_cases hfits : (Piece.checked room bytes).Fits size w
    · have hpaid := (hs.enter hfails hfits).pay hsize
      have hcounted : Pending size m ((Piece.checked room bytes).step w) 0 bytes { s with
          size := toInt32 (s.size - room)
          counts := (length.value env s, n) :: s.counts } :=
        ⟨hpaid.size_eq, hpaid.data_eq, hpaid.buffer_eq, hpaid.mem_eq, hpaid.touched_le,
          hpaid.room, hpaid.data_le, hpaid.used_le⟩
      rw [walk_step hfails hfits]
      exact ⟨s', rfl, hcounted.write_all hwrote⟩
    · have hlarge : 2 ^ 31 ≤ bytes.length := by
        by_contra hlt
        exact hfits (hlen (by omega))
      rw [walk_overruns hfails hfits]
      simp only [Follows, Outcome.All]
      rw [hwrote.touched, Core.touch_touched, if_neg (by omega)]
      have hmax := le_max_right s.touched (s.data + bytes.length)
      simp only
      omega

theorem tracks_loop {i n : ℕ} {length : Len} {pieces : ℕ → List Piece}
    (hmore : ∀ (j : ℕ) s, s.mem = m →
      (decide ((j : ℤ) < length.value (env.bind i j) s) = true ↔ j < n))
    (hn : n < 2 ^ 63) (hc : ∀ j < n, Tracks size m sizeof c (env.bind i j) (pieces j)) :
    Tracks size m sizeof (.loop i length c) env ((List.range n).flatMap pieces) := by
  have hrounds : ∀ (rounds fuel j : ℕ) (w : Walk) (s : Core), j + rounds = n → rounds < fuel →
      Sync size m w s →
      Follows size m
        (loop (fun j s => (j : ℤ) < length.value (env.bind i j) s)
          (fun j => exec sizeof c (env.bind i j)) fuel j s)
        (walk size ((List.range' j rounds).flatMap pieces) w) := by
    intro rounds
    induction rounds with
    | zero =>
        intro fuel j w s hj hfuel hs
        cases fuel with
        | zero => omega
        | succ fuel =>
            have hdone := mt (hmore j s hs.mem_eq).mp (by omega)
            rw [EarlyReturn.loop, if_neg hdone]
            exact ⟨s, rfl, hs⟩
    | succ rounds ih =>
        intro fuel j w s hj hfuel hs
        cases fuel with
        | zero => omega
        | succ fuel =>
            have hgo := (hmore j s hs.mem_eq).mpr (by omega)
            rw [EarlyReturn.loop, if_pos hgo, List.range'_succ, List.flatMap_cons, walk_append]
            refine (hc j (by omega) w s hs).bind
              (fun w' s' hs' => ih fuel (j + 1) w' s' (by omega) (by omega) hs') ?_
            intro s' hs'
            exact all_loop (fun j s hs => overrun_grows hs) _ _ hs'
  intro w s hs
  have hfuel := lt_loopFuel
  rw [exec_loop, List.range_eq_range']
  exact hrounds n loopFuel 0 w s (Nat.zero_add n) (by omega) hs

variable (m sizeof) in
/-- In a buffer that an `int` can measure, a writer walks over its layout. -/
theorem tracks_rules (hsize : size < 2 ^ 31) : WriterRules m sizeof (Tracks size m sizeof) where
  congr h htracks := by
    intro w s hs
    rw [h]
    exact htracks w s hs
  skip _ := tracks_skip
  seq := Tracks.seq
  ite := Tracks.ite
  checked := tracks_checked hsize
  reserved _ hn := tracks_reserve hsize hn
  dropped _ bytes := tracks_dropped bytes
  varint hn hlo hhi := tracks_varint hsize hn hlo hhi
  nbt _ _ bytes := tracks_nbt bytes
  call := tracks_call hsize
  counted := tracks_counted hsize
  loop := tracks_loop

end

/-! ## Calls of generated writers -/

section

variable {size : ℕ} {m : Loc → ℤ}

/-- What a call of a writer returns, by the end of its walk. -/
def Returns (size : ℕ) (m : Loc → ℤ) (pieces : List Piece) (result : Option (ℤ × Core)) :
    Verdict → Prop
  | .done w => ∃ s, result = some (toInt32 (usedBy pieces), s) ∧ Sync size m w s
  | .fails => ∃ s, result = some (-1, s) ∧ s.touched ≤ size
  | .overruns => ∀ ret s, result = some (ret, s) → size < s.touched

theorem call_returns (hsize : size < 2 ^ 31) (sizeof : Ty → ℕ) (rnd : String → ℕ → ℕ)
    (nbt : Loc → List UInt8) (name : String) (t : Ty) (hbuilt : t.Built)
    (hvar : t.isVariable = true) (hfresh : t.Fresh rnd name [] 0) (packet : Loc)
    (hvalue : t.IsValue m ⟨packet, []⟩) {w : Walk} {s : Core} (hs : Sync size m w s) :
    Returns size m (t.layout nbt m ⟨packet, []⟩)
      (callFunction sizeof (generateWrite rnd name t) packet s)
      (walk size (t.layout nbt m ⟨packet, []⟩) w) := by
  have htracks := t.writes (tracks_rules m sizeof hsize) rnd nbt hbuilt hvar hfresh
    (uses_sourceOf t []) (shaped_sourceOf t) ⟨packet, fun _ => 0⟩ (by rwa [spot_sourceOf])
  rw [spot_sourceOf] at htracks
  have hfollows := htracks w s hs
  rw [callFunction, generateWrite, genWriteCode]
  generalize t.layout nbt m ⟨packet, []⟩ = pieces at hfollows
  cases hwalk : walk size pieces w with
  | done w' =>
      rw [hwalk] at hfollows
      rcases hfollows with ⟨s', hs', hsync⟩
      have hused := (walk_done hwalk).1
      have heq := hs.size_eq
      have heq' := hsync.size_eq
      have hdiff : s.size - s'.size = usedBy pieces := by omega
      rw [hs', finish, hdiff]
      exact ⟨s', rfl, hsync⟩
  | fails =>
      rw [hwalk] at hfollows
      rcases hfollows with ⟨s', hs', htouched⟩
      rw [hs', finish]
      exact ⟨s', rfl, htouched⟩
  | overruns =>
      rw [hwalk] at hfollows
      intro ret s' hcall
      exact finish_all hfollows hcall

end

end CmcServer.ProtoDef
