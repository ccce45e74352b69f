import CmcServer.Verification.ProtoDef.Statements
import CmcServer.Verification.ProtoDef.Values

/-! # What an input makes of a type

The array counts in an input that room checks let pass, and the memory that is used before anything
is decoded into it, by recursion on the type. -/

namespace CmcServer.ProtoDef

open Bytes EarlyReturn

/-! ## Scans -/

/-- Where a scan of the input is, and what it has decoded. `counts` are the array counts that a
room check let pass, with the sizes of the elements, `written` the places that were decoded into,
and `stale` says that a place in an array was used before. -/
structure Scan where
  data : ℕ
  size : ℤ
  arena : TickArena
  mem : Loc → ℤ
  counts : List (ℤ × ℤ)
  written : List Loc
  stale : Bool

namespace Scan

def start (size : ℤ) (arena : TickArena) (mem : Loc → ℤ) : Scan :=
  ⟨0, size, arena, mem, [], [], false⟩

/-- What a place holds comes from the input, or from the packet that is zero at first. -/
def Knows (s : Scan) (l : Loc) : Prop := l.any Sel.isIndex = false ∨ l ∈ s.written

instance (s : Scan) (l : Loc) : Decidable (s.Knows l) := inferInstanceAs (Decidable (_ ∨ _))

def store (l : Loc) (value : ℤ) (s : Scan) : Scan :=
  { s with mem := Function.update s.mem l value, written := l :: s.written }

@[simps] def use (l : Loc) (s : Scan) : Scan := { s with stale := s.stale || !decide (s.Knows l) }

end Scan

def scanUse (l : Loc) (c : ℤ → Stmt Scan) : Stmt Scan := fun s => c (s.mem l) (s.use l)

/-- Compare the characters of a string with others, up to the first difference. -/
def scanChars (l : Loc) : List Char → (i : ℤ) → (Bool → Stmt Scan) → Stmt Scan
  | [], _, c => c true
  | char :: chars, i, c =>
      scanUse (.index i :: l.sub "elements") fun value =>
        if value = char.toNat then scanChars l chars (i + 1) c else c false

def scanCase (value : CaseValue) (discriminant : Loc) (c : Bool → Stmt Scan) : Stmt Scan :=
  match value with
  | .int value => scanUse discriminant fun v => c (v = value)
  | .bool value => scanUse discriminant fun v => c (v = if value then 1 else 0)
  | .string value =>
      scanUse (discriminant.sub "length") fun length =>
        if length = value.toList.length then scanChars discriminant value.toList 0 c
        else c false
  | .default => c true

/-! ## The pieces of a scan -/

def scanNeed (n : ℤ) : Stmt Scan := fun s => if s.size < n then .ret s else .next s

def scanPay (n : ℤ) : Stmt Scan := fun s => .next { s with size := toInt32 (s.size - n) }

def scanReserve (t : Ty) : Stmt Scan :=
  if t.isVariable then .next else Stmt.seq (scanNeed t.getSize) (scanPay t.getSize)

/-- The value of a length that is an `int` or has 64 bits. -/
def lengthOf (wide : Bool) (value : ℤ) : ℤ := if wide then toInt64 value else toInt32 value

def scanCount (wide : Bool) (length : ℤ) (element : Ty) : Stmt Scan :=
  let room := lengthOf wide (length * element.getSize)
  if element.isVariable then .next
  else fun s =>
    if room > s.size then .ret s
    else
      .next { s with
        size := toInt32 (s.size - room)
        counts := (length, element.getSize) :: s.counts }

def scanAlloc (bytes : ℤ) : Stmt Scan := fun s =>
  match s.arena.tickArenaAllocUnlocked (toSize bytes) with
  | none => .ret s
  | some (_, arena) => .next { s with arena }

/-- Elements, as long as the length says so. -/
def scanElements (wide : Bool) (length : Loc) (element : ℕ → Stmt Scan) :
    (fuel i : ℕ) → Stmt Scan
  | 0, _ => fun _ => .diverge
  | fuel + 1, i =>
      scanUse length fun value =>
        if (i : ℤ) < lengthOf wide value then
          Stmt.seq (element i) (scanElements wide length element fuel (i + 1))
        else .next

/-- A function that accounts for what it took from the size. -/
def scanCall (body : Stmt Scan) : Stmt Scan := fun s =>
  match body s with
  | .next s' =>
      let ret := toInt32 (s.size - s'.size)
      if ret < 0 then .ret { s' with data := s.data, size := s.size }
      else .next { s' with data := s.data + ret.toNat, size := toInt32 (s.size - ret) }
  | .ret s' => .ret { s' with data := s.data, size := s.size }
  | .diverge => .diverge

def scanCallFixed (n : ℤ) (body : Stmt Scan) : Stmt Scan := fun s =>
  match body s with
  | .next s' => .next { s' with data := s.data + n.toNat, size := s.size }
  | o => o

section

variable (buffer : ℕ → UInt8)

def scanFixed (n : Native) (l : Loc) : Stmt Scan := fun s =>
  .next { s.store l (n.decode (load buffer s.data n.size.toNat)) with
    data := s.data + n.size.toNat }

/-- A numeral that is added to what its place holds. -/
def scanNumeral (read : (ℕ → UInt8) → ℤ → ℤ → VarintRead) (l : Loc) : Stmt Scan :=
  scanUse l fun value s =>
    let r := read (fun i => buffer (s.data + i)) s.size value
    if r.ret < 0 then .ret (s.store l r.value)
    else
      .next { s.store l r.value with
        data := s.data + r.ret.toNat
        size := toInt32 (s.size - r.ret) }

def Native.scan (n : Native) (l : Loc) : Stmt Scan :=
  match n with
  | .varint => scanNumeral buffer protocolReadVarint l
  | .varlong => scanNumeral buffer protocolReadVarlong l
  | .nbt => .ret
  | n => scanFixed buffer n l

def scanBits (fields : List BitField) (l : Loc) : Stmt Scan := fun s =>
  .next { s with
    data := s.data + bitsSize fields
    mem := unpack l (ofBe (load buffer s.data (bitsSize fields))) fields 0 s.mem
    written := (fields.map fun field => l.sub field.name) ++ s.written }

/-- The length of an array without a count. -/
def scanRest (l : Loc) : Stmt Scan := fun s =>
  let value := toInt32 (toSize s.size / 4 : ℕ)
  .next { s.store l value with size := toInt32 (s.size - value) }

/-! ## The scan of a type -/

variable (sizeof : Ty → ℕ)

mutual

/-- The value at a place. -/
def Ty.scan : Ty → Spot → Stmt Scan
  | .native n, p => n.scan buffer p.loc
  | .typedef _ base, p =>
      if base.isVariable then scanCall (base.scan ⟨p.loc, []⟩)
      else scanCallFixed base.getSize (base.scan ⟨p.loc, []⟩)
  | .void, _ => .next
  | .container fields, p => fields.scan none p
  | .switch _ compareTo cases, p => cases.scan (p.parent.sub compareTo).loc p
  | .array count element, p =>
      Stmt.seq (scanReserve count) <|
      Stmt.seq (count.scan (p.sub "length")) <|
      scanUse (p.sub "length").loc fun value =>
        Stmt.seq (scanCount count.isWide (lengthOf count.isWide value) element) <|
        Stmt.seq (scanAlloc (lengthOf count.isWide value * sizeof element)) <|
        scanElements count.isWide (p.sub "length").loc
          (fun j => element.scan ((p.sub "elements").elem j)) loopFuel 0
  | .rest element, p =>
      Stmt.seq (scanRest (p.sub "length").loc) <|
      scanUse (p.sub "length").loc fun value =>
        Stmt.seq (scanAlloc (lengthOf false value * sizeof element)) <|
        scanElements false (p.sub "length").loc
          (fun j => element.scan ((p.sub "elements").elem j)) loopFuel 0
  | .bitfield fields, p => scanBits buffer fields p.loc
  | .option base, p =>
      Stmt.seq (scanNeed 1) <|
      Stmt.seq (scanPay 1) <|
      Stmt.seq (scanFixed buffer .bool (p.sub "present").loc) <|
      scanUse (p.sub "present").loc fun present =>
        if present ≠ 0 then scanReserve base else .next

/-- The fields of a container. `run` is the size of the run of fixed fields that is open. -/
def Fields.scan (run : Option ℤ) : Fields → Spot → Stmt Scan
  | .nil, _ =>
      match run with
      | none => .next
      | some total => scanPay total
  | .cons name t fields, p =>
      if t.isVariable then
        Stmt.seq (match run with
          | none => .next
          | some total => scanPay total) <|
        Stmt.seq (t.scan (p.sub name)) (fields.scan none p)
      else
        match run with
        | none =>
            let total := (Fields.cons name t fields).fixedTotal
            Stmt.seq (scanNeed total) <|
            Stmt.seq (t.scan (p.sub name)) (fields.scan (some total) p)
        | some total => Stmt.seq (t.scan (p.sub name)) (fields.scan (some total) p)

def Cases.scan (discriminant : Loc) : Cases → Spot → Stmt Scan
  | .nil, _ => .ret
  | .cons name t value cases, p =>
      scanCase value discriminant fun selected =>
        if selected then
          if t.isVoid then .next else Stmt.seq (scanReserve t) (t.scan (p.sub name))
        else cases.scan discriminant p

end

end

/-! ## Readers scan their input -/

/-- The state of a reader on a buffer is where the scan is. -/
structure Mirrors (buffer : ℕ → UInt8) (s : Core) (g : Scan) : Prop where
  buffer : s.buffer = buffer
  data : s.data = g.data
  size : s.size = g.size
  arena : s.arena = g.arena
  mem : s.mem = g.mem
  counts : s.counts = g.counts

namespace Mirrors

variable {buffer : ℕ → UInt8} {s : Core} {g : Scan}

theorem use (h : Mirrors buffer s g) (l : Loc) : Mirrors buffer s (g.use l) :=
  ⟨h.buffer, h.data, h.size, h.arena, h.mem, h.counts⟩

theorem store (h : Mirrors buffer s g) (n : ℕ) (l : Loc) (value : ℤ) :
    Mirrors buffer ((s.touch n).assign l value) (g.store l value) :=
  { h with mem := congrArg (fun mem : Loc → ℤ => (Function.update mem l value : Loc → ℤ)) h.mem }

theorem rest (h : Mirrors buffer s g) : s.rest = fun i => buffer (g.data + i) := by
  funext i
  rw [Core.rest, h.buffer, h.data]

end Mirrors

theorem Len.value_eq_lengthOf (length : Len) (env : Env) (s : Core) :
    length.value env s = lengthOf length.wide (s.mem (length.place.loc env)) := rfl

theorem Len.product_eq_lengthOf (length : Len) (env : Env) (s : Core) (n : ℤ) :
    length.product env s n = lengthOf length.wide (length.value env s * n) := rfl

section

variable {buffer : ℕ → UInt8} {sizeof : Ty → ℕ} {env : Env} {s : Core} {g : Scan}

theorem rel_seq {R : Core → Scan → Prop} {c d : Cmd} {c' d' : Stmt Scan}
    (hc : (exec sizeof c env s).Rel R (c' g))
    (hd : ∀ s g, R s g → (exec sizeof d env s).Rel R (d' g)) :
    (exec sizeof (.seq c d) env s).Rel R (Stmt.seq c' d' g) := hc.bind (fun _ _ h => h) hd

theorem rel_checkSize (h : Mirrors buffer s g) (n : ℤ) :
    (exec sizeof (.checkSize n) env s).Rel (Mirrors buffer) (scanNeed n g) := by
  rw [exec, scanNeed, h.size]
  split <;> exact h

theorem rel_subSize (h : Mirrors buffer s g) (n : ℤ) :
    (exec sizeof (.subSize n) env s).Rel (Mirrors buffer) (scanPay n g) := by
  rw [exec, scanPay]
  exact { h with size := by simp only [h.size] }

theorem rel_reserve (h : Mirrors buffer s g) (t : Ty) :
    (exec sizeof (reserve t) env s).Rel (Mirrors buffer) (scanReserve t g) := by
  rw [scanReserve]
  cases hvar : t.isVariable with
  | true =>
      rw [reserve_variable hvar]
      exact h
  | false =>
      rw [reserve_fixed hvar]
      exact rel_seq (rel_checkSize h _) fun s g h => rel_subSize h _

theorem rel_reserveElements {length : Len} {value : ℤ} (h : Mirrors buffer s g)
    (hvalue : length.value env s = value) (element : Ty) :
    (exec sizeof (reserveElements length element) env s).Rel
      (fun s g => Mirrors buffer s g ∧ length.value env s = value)
      (scanCount length.wide value element g) := by
  rw [scanCount]
  cases hvar : element.isVariable with
  | true =>
      rw [reserveElements_variable length hvar]
      exact ⟨h, hvalue⟩
  | false =>
      rw [reserveElements_fixed length hvar]
      rw [Len.value_eq_lengthOf] at hvalue
      simp only [exec, Len.product_eq_lengthOf, Len.value_eq_lengthOf, hvalue, h.size,
        Bool.false_eq_true, if_false]
      split
      · exact ⟨h, hvalue⟩
      · exact ⟨{ h with size := by simp only [hvalue], counts := by rw [h.counts] }, hvalue⟩

theorem rel_alloc {length : Len} {value : ℤ} (h : Mirrors buffer s g)
    (hvalue : length.value env s = value) (element : Ty) :
    (exec sizeof (.alloc length element) env s).Rel
      (fun s g => Mirrors buffer s g ∧ length.value env s = value)
      (scanAlloc (value * sizeof element) g) := by
  rw [exec, scanAlloc, hvalue, h.arena]
  cases g.arena.tickArenaAllocUnlocked (toSize (value * sizeof element)) with
  | none => exact ⟨h, hvalue⟩
  | some result => exact ⟨{ h with arena := rfl }, hvalue⟩

theorem rel_loop {i : ℕ} {length : Len} {body : Cmd} {l : Loc} {element : ℕ → Stmt Scan}
    (hloc : ∀ n : ℕ, length.place.loc (env.bind i n) = l)
    (hbody : ∀ (n : ℕ) (s : Core) (g : Scan), Mirrors buffer s g →
      (exec sizeof body (env.bind i n) s).Rel (Mirrors buffer) (element n g))
    (h : Mirrors buffer s g) :
    (exec sizeof (.loop i length body) env s).Rel (Mirrors buffer)
      (scanElements length.wide l element loopFuel 0 g) := by
  rw [exec_loop]
  generalize loopFuel = fuel
  generalize 0 = n
  induction fuel generalizing n s g with
  | zero => trivial
  | succ fuel ih =>
      simp only [EarlyReturn.loop, scanElements, scanUse, Len.value_eq_lengthOf, hloc, h.mem,
        decide_eq_true_eq]
      split
      · refine (hbody n s _ (h.use l)).bind (fun _ _ h => h) fun s g h => ?_
        simpa only [Len.value_eq_lengthOf, hloc] using ih h (n + 1)
      · exact h.use l

theorem rel_elements {i : ℕ} {length : Len} {body : Cmd} {l : Loc} {t : Ty}
    {element : ℕ → Stmt Scan} {value : ℤ} (hloc : ∀ n : ℕ, length.place.loc (env.bind i n) = l)
    (hbody : ∀ (n : ℕ) (s : Core) (g : Scan), Mirrors buffer s g →
      (exec sizeof body (env.bind i n) s).Rel (Mirrors buffer) (element n g))
    (h : Mirrors buffer s g) (hvalue : length.value env s = value) :
    (exec sizeof (.seq (.alloc length t) (.loop i length body)) env s).Rel (Mirrors buffer)
      (Stmt.seq (scanAlloc (value * sizeof t))
        (scanElements length.wide l element loopFuel 0) g) :=
  (rel_alloc h hvalue t).bind (fun _ _ h => h.1) fun _ _ h => rel_loop hloc hbody h.1

theorem rel_call {body : Cmd} {place : LVal} {base : Stmt Scan} (h : Mirrors buffer s g)
    (hbody : (exec sizeof body ⟨place.loc env, fun _ => 0⟩ s).Rel (Mirrors buffer) (base g)) :
    (exec sizeof (.call body place) env s).Rel (Mirrors buffer) (scanCall base g) := by
  rw [exec, scanCall]
  generalize exec sizeof body ⟨place.loc env, fun _ => 0⟩ s = o at hbody
  generalize base g = o' at hbody
  cases hbody using Outcome.Rel.kinds with
  | next s' g' h' =>
      simp only [finish, resume, h.size, h'.size]
      split
      · exact { h' with data := h.data, size := rfl }
      · exact { h' with data := by rw [h.data], size := rfl }
  | ret s' g' h' => exact { h' with data := h.data, size := h.size }
  | diverge => trivial

theorem rel_callFixed {body : Cmd} {place : LVal} {base : Stmt Scan} (n : ℤ)
    (h : Mirrors buffer s g)
    (hbody : (exec sizeof body ⟨place.loc env, fun _ => 0⟩ s).Rel (Mirrors buffer) (base g)) :
    (exec sizeof (.callFixed body place n) env s).Rel (Mirrors buffer)
      (scanCallFixed n base g) := by
  rw [exec, scanCallFixed]
  generalize exec sizeof body ⟨place.loc env, fun _ => 0⟩ s = o at hbody
  generalize base g = o' at hbody
  cases hbody using Outcome.Rel.kinds with
  | next s' g' h' => exact { h' with data := by rw [h.data], size := h.size }
  | ret s' g' h' => exact h'
  | diverge => trivial

theorem rel_fixed (h : Mirrors buffer s g) (n : Native) (place : LVal) :
    (exec sizeof (.fixed .read n place) env s).Rel (Mirrors buffer)
      (scanFixed buffer n (place.loc env) g) := by
  rw [exec, readFixed, h.buffer, h.data]
  exact { h.store _ _ _ with data := congrArg (· + _) h.data }

theorem rel_variable (h : Mirrors buffer s g) (n : Native)
    (hvar : (Ty.native n).isVariable = true) (place : LVal) :
    (exec sizeof (.variable .read n place) env s).Rel (Mirrors buffer)
      (n.scan buffer (place.loc env) g) := by
  have hnumeral : ∀ read : (ℕ → UInt8) → ℤ → ℤ → VarintRead,
      n.read s (g.mem (place.loc env)) = read s.rest g.size (g.mem (place.loc env)) →
      (exec sizeof (.variable .read n place) env s).Rel (Mirrors buffer)
        (scanNumeral buffer read (place.loc env) g) := by
    intro read hread
    simp only [exec, readVariable, scanNumeral, scanUse, h.mem, hread, h.rest, Scan.use_data,
      Scan.use_size]
    have hstore := (h.use (place.loc env)).store
    by_cases hret : (read (fun i => buffer (g.data + i)) g.size (g.mem (place.loc env))).ret < 0
    · simp only [hret, if_true]
      exact hstore _ _ _
    · simp only [hret, if_false]
      exact { hstore _ _ _ with
        data := congrArg (· + _) h.data
        size := congrArg (fun size => toInt32 (size - _)) h.size }
  cases n with
  | varint => exact hnumeral protocolReadVarint (by rw [Native.read, h.size])
  | varlong => exact hnumeral protocolReadVarlong (by rw [Native.read, h.size])
  | nbt => exact { h with mem := (Function.update_eq_self _ _).trans h.mem }
  | _ => exact absurd hvar (by decide)

theorem rel_bits (h : Mirrors buffer s g) (fields : List BitField) (place : LVal) :
    (exec sizeof (.bits .read fields place) env s).Rel (Mirrors buffer)
      (scanBits buffer fields (place.loc env) g) := by
  refine { h with data := ?_, mem := ?_ }
  · simp [readBits, h.data]
  · funext l
    simp [readBits, h.buffer, h.data, h.mem]

theorem rel_setRest (h : Mirrors buffer s g) (place : LVal) :
    (exec sizeof (.setRest place) env s).Rel (Mirrors buffer) (scanRest (place.loc env) g) := by
  refine { h with size := ?_, mem := ?_ }
  · simp only [h.size]
  · funext l
    simp [Scan.store, h.size, h.mem]

theorem rel_scanChars {o : Outcome Core} {l : Loc} {c : Bool → Stmt Scan} (chars : List Char)
    (i : ℤ) (h : Mirrors buffer s g)
    (hc : ∀ g, Mirrors buffer s g → o.Rel (Mirrors buffer) (c (eqChars s.mem l chars i) g)) :
    o.Rel (Mirrors buffer) (scanChars l chars i c g) := by
  induction chars generalizing i g with
  | nil => exact hc g h
  | cons char chars ih =>
      simp only [scanChars, scanUse, ← h.mem]
      by_cases hchar : s.mem (.index i :: l.sub "elements") = char.toNat
      · rw [if_pos hchar]
        refine ih (i + 1) (h.use _) fun g h => ?_
        simpa only [eqChars, hchar, decide_true, Bool.true_and] using hc g h
      · rw [if_neg hchar]
        simpa only [eqChars, hchar, decide_false, Bool.false_and] using hc _ (h.use _)

theorem rel_scanCase {o : Outcome Core} {discriminant : Loc} {c : Bool → Stmt Scan}
    (value : CaseValue) (h : Mirrors buffer s g)
    (hc : ∀ g, Mirrors buffer s g → o.Rel (Mirrors buffer) (c (value.holds s.mem discriminant) g)) :
    o.Rel (Mirrors buffer) (scanCase value discriminant c g) := by
  cases value with
  | int value =>
      rw [scanCase, scanUse, ← h.mem]
      exact hc _ (h.use _)
  | bool value =>
      rw [scanCase, scanUse, ← h.mem]
      exact hc _ (h.use _)
  | string value =>
      simp only [scanCase, scanUse, ← h.mem]
      by_cases hlength : s.mem (discriminant.sub "length") = value.toList.length
      · rw [if_pos hlength]
        refine rel_scanChars _ 0 (h.use _) fun g h => ?_
        simpa only [CaseValue.holds, hlength, decide_true, Bool.true_and] using hc g h
      · rw [if_neg hlength]
        simpa only [CaseValue.holds, hlength, decide_false, Bool.false_and] using hc _ (h.use _)
  | default => exact hc g h

end

section

variable {buffer : ℕ → UInt8} (sizeof : Ty → ℕ) (rnd : String → ℕ → ℕ)

mutual

/-- The reader of a type goes through the input as its scan does. -/
theorem Ty.rel_scan (t : Ty) {fn : String} {used : List ℕ} {k : ℕ} (hfresh : t.Fresh rnd fn used k)
    {place : LVal} (huses : place.Uses used) (hshaped : place.Shaped) (env : Env) {s : Core}
    {g : Scan} (h : Mirrors buffer s g) :
    (exec sizeof (genCode .read rnd fn t place k) env s).Rel (Mirrors buffer)
      (t.scan buffer sizeof (place.spot env) g) := by
  have hlength := loc_member env place "length"
  have hbind : ∀ i ∉ used, ∀ n : ℕ, (accessField place "length").loc (env.bind i n) =
      (accessField place "length").loc env :=
    fun i hi n => LVal.loc_bind (huses.accessField "length") hi env n
  have helem : ∀ i ∉ used, ∀ n : ℕ, ((accessField place "elements").at i).spot (env.bind i n) =
      ((place.spot env).sub "elements").elem n := by
    intro i hi n
    rw [LVal.spot_at (huses.accessField "elements") hi, spot_accessField]
  cases t with
  | native n =>
      rw [Ty.scan, LVal.loc_spot]
      cases hvar : (Ty.native n).isVariable with
      | true =>
          rw [genCode_native_variable _ _ _ _ _ hvar]
          exact rel_variable h n hvar place
      | false =>
          rw [genCode_native_fixed _ _ _ _ _ hvar]
          have hscan : n.scan buffer (place.loc env) = scanFixed buffer n (place.loc env) := by
            cases n with
            | varint => cases hvar
            | varlong => cases hvar
            | nbt => cases hvar
            | _ => rfl
          rw [hscan]
          exact rel_fixed h n place
  | typedef name base =>
      rw [Ty.scan, LVal.loc_spot]
      cases hvar : base.isVariable with
      | true =>
          rw [genCode_typedef_variable _ _ _ _ _ _ hvar, if_pos rfl]
          refine rel_call h ?_
          have hbase := base.rel_scan hfresh (uses_sourceOf base []) (shaped_sourceOf base)
            ⟨place.loc env, fun _ => 0⟩ h
          rwa [spot_sourceOf] at hbase
      | false =>
          rw [genCode_typedef_fixed _ _ _ _ _ _ hvar, if_neg Bool.false_ne_true]
          refine rel_callFixed _ h ?_
          exact base.rel_scan hfresh (uses_fixedSourceOf .read base [])
            (shaped_fixedSourceOf .read base) ⟨place.loc env, fun _ => 0⟩ h
  | void => exact h
  | container fields => exact fields.rel_scan none hfresh huses hshaped env h
  | «switch» up compareTo cases =>
      rw [genCode, Ty.scan, ← loc_sibling hshaped]
      exact cases.rel_scan hfresh huses hshaped _ env h
  | array count element =>
      rcases hfresh with ⟨hfcount, hi, hfelement⟩
      rw [genCode, Ty.scan]
      refine rel_seq (rel_reserve h count) fun s g h => ?_
      have hcount := count.rel_scan hfcount (huses.accessField "length")
        (hshaped.accessField "length") env h
      rw [spot_accessField] at hcount
      refine rel_seq hcount fun s g h => ?_
      simp only [scanUse, ← h.mem, ← hlength]
      refine (rel_reserveElements (h.use _) rfl element).bind (fun _ _ h => h.1) fun s g h => ?_
      refine rel_elements (hbind _ hi) (fun n s g h => ?_) h.1 h.2
      rw [← helem _ hi]
      exact element.rel_scan hfelement ((huses.accessField "elements").at _)
        ((hshaped.accessField "elements").at _) _ h
  | rest element =>
      rcases hfresh with ⟨hi, hfelement⟩
      rw [genCode, Ty.scan, ← exec_seq_assoc, ← hlength]
      refine rel_seq (rel_setRest h _) fun s g h => ?_
      rw [scanUse, ← h.mem]
      refine rel_elements (hbind _ hi) (fun n s g h => ?_) (h.use _) rfl
      rw [← helem _ hi]
      exact element.rel_scan hfelement ((huses.accessField "elements").at _)
        ((hshaped.accessField "elements").at _) _ h
  | bitfield fields =>
      rw [Ty.scan, LVal.loc_spot]
      exact rel_bits h fields place
  | option base =>
      rw [genCode, Ty.scan]
      refine rel_seq (rel_checkSize h 1) fun s g h => rel_seq (rel_subSize h 1) fun s g h => ?_
      rw [← loc_member]
      refine rel_seq (rel_fixed h .bool _) fun s g h => ?_
      simp only [exec, Test.holds, scanUse, ← h.mem, decide_eq_true_eq]
      split
      · exact rel_reserve (h.use _) base
      · exact h.use _

theorem Fields.rel_scan (fields : Fields) (run : Option ℤ) {fn : String} {used : List ℕ} {k : ℕ}
    (hfresh : fields.Fresh rnd fn used k) {place : LVal} (huses : place.Uses used)
    (hshaped : place.Shaped) (env : Env) {s : Core} {g : Scan} (h : Mirrors buffer s g) :
    (exec sizeof (genFields .read rnd fn run fields place k) env s).Rel (Mirrors buffer)
      (fields.scan buffer sizeof run (place.spot env) g) := by
  have hrun : ∀ {s : Core} {g : Scan}, Mirrors buffer s g →
      (exec sizeof (match run with
        | none => .skip
        | some total => .subSize total) env s).Rel (Mirrors buffer)
      ((match run with
        | none => .next
        | some total => scanPay total : Stmt Scan) g) := by
    intro s g h
    cases run with
    | none => exact h
    | some total => exact rel_subSize h total
  cases fields with
  | nil => exact hrun h
  | cons name t fields =>
      rcases hfresh with ⟨hft, hfrest⟩
      have ht : ∀ {s : Core} {g : Scan}, Mirrors buffer s g →
          (exec sizeof (genCode .read rnd fn t (accessField place name) k) env s).Rel
            (Mirrors buffer) (t.scan buffer sizeof ((place.spot env).sub name) g) := by
        intro s g h
        rw [← spot_accessField]
        exact t.rel_scan hft (huses.accessField name) (hshaped.accessField name) env h
      cases hvar : t.isVariable with
      | true =>
          simp only [genFields, Fields.scan, hvar, if_true]
          refine rel_seq (hrun h) fun s g h => rel_seq (ht h) fun s g h => ?_
          exact fields.rel_scan none hfrest huses hshaped env h
      | false =>
          cases run with
          | none =>
              simp only [genFields, Fields.scan, hvar, if_false, Bool.false_eq_true]
              refine rel_seq (rel_checkSize h _) fun s g h => rel_seq (ht h) fun s g h => ?_
              exact fields.rel_scan _ hfrest huses hshaped env h
          | some total =>
              simp only [genFields, Fields.scan, hvar, if_false, Bool.false_eq_true]
              refine rel_seq (ht h) fun s g h => ?_
              exact fields.rel_scan _ hfrest huses hshaped env h

theorem Cases.rel_scan (cases : Cases) {fn : String} {used : List ℕ} {k : ℕ}
    (hfresh : cases.Fresh rnd fn used k) {place : LVal} (huses : place.Uses used)
    (hshaped : place.Shaped) (discriminant : LVal) (env : Env) {s : Core} {g : Scan}
    (h : Mirrors buffer s g) :
    (exec sizeof (genCases .read rnd fn discriminant cases place k) env s).Rel (Mirrors buffer)
      (cases.scan buffer sizeof (discriminant.loc env) (place.spot env) g) := by
  cases cases with
  | nil => exact h
  | cons name t value cases =>
      rcases hfresh with ⟨hft, hfrest⟩
      have hcode : ∀ g, Mirrors buffer s g →
          (exec sizeof (caseCode t (genCode .read rnd fn t (accessField place name) k)) env s).Rel
            (Mirrors buffer)
            ((if t.isVoid then .next
              else Stmt.seq (scanReserve t) (t.scan buffer sizeof ((place.spot env).sub name)) :
                Stmt Scan) g) := by
        intro g h
        rw [caseCode]
        split
        · exact h
        · refine rel_seq (rel_reserve h t) fun s g h => ?_
          rw [← spot_accessField]
          exact t.rel_scan hft (huses.accessField name) (hshaped.accessField name) env h
      have hrest : ∀ g, Mirrors buffer s g →
          (exec sizeof (genCases .read rnd fn discriminant cases place (k + t.draws)) env s).Rel
            (Mirrors buffer)
            (cases.scan buffer sizeof (discriminant.loc env) (place.spot env) g) :=
        fun g h => cases.rel_scan hfrest huses hshaped discriminant env h
      rw [Cases.scan]
      refine rel_scanCase value h fun g h => ?_
      have hchoice : value ≠ .default →
          (exec sizeof (.ite (caseTest discriminant value)
            (caseCode t (genCode .read rnd fn t (accessField place name) k))
            (genCases .read rnd fn discriminant cases place (k + t.draws))) env s).Rel
            (Mirrors buffer)
            ((if value.holds s.mem (discriminant.loc env) then
              if t.isVoid then .next
              else Stmt.seq (scanReserve t) (t.scan buffer sizeof ((place.spot env).sub name))
            else cases.scan buffer sizeof (discriminant.loc env) (place.spot env) : Stmt Scan)
              g) := by
        intro hdefault
        rw [exec, caseTest_holds hdefault]
        split
        · exact hcode g h
        · exact hrest g h
      cases value with
      | default => exact hcode g h
      | int value => exact hchoice (by simp)
      | bool value => exact hchoice (by simp)
      | string value => exact hchoice (by simp)

end

end

/-! ## The counts in an input -/

/-- The array counts in an input that room checks let pass, with the sizes of the elements. -/
def Ty.passedCounts (t : Ty) (sizeof : Ty → ℕ) (packet : Loc) (buffer : ℕ → UInt8) (size : ℤ)
    (arena : TickArena) (mem : Loc → ℤ) : List (ℤ × ℤ) :=
  match t.scan buffer sizeof ⟨packet, []⟩ (Scan.start size arena mem) with
  | .next g => g.counts
  | .ret g => g.counts
  | .diverge => []

theorem mirrors_start (buffer : ℕ → UInt8) (size : ℤ) (arena : TickArena) (mem : Loc → ℤ)
    (touched : ℕ) :
    Mirrors buffer ⟨buffer, 0, size, arena, mem, touched, []⟩ (Scan.start size arena mem) :=
  ⟨rfl, rfl, rfl, rfl, rfl, rfl⟩

theorem callFunction_counts {sizeof : Ty → ℕ} {rnd : String → ℕ → ℕ} {name : String} {t : Ty}
    (hfresh : t.Fresh rnd name [] 0) {packet : Loc} {buffer : ℕ → UInt8} {size : ℤ}
    {arena : TickArena} {mem : Loc → ℤ} {touched : ℕ} {ret : ℤ} {s : Core}
    (h : callFunction sizeof (generateRead rnd name t) packet
      ⟨buffer, 0, size, arena, mem, touched, []⟩ = some (ret, s)) :
    s.counts = t.passedCounts sizeof packet buffer size arena mem := by
  have hscan := t.rel_scan sizeof rnd hfresh (uses_sourceOf t []) (shaped_sourceOf t)
    ⟨packet, fun _ => 0⟩ (mirrors_start buffer size arena mem touched)
  rw [spot_sourceOf] at hscan
  rw [callFunction, generateRead, genReadCode] at h
  rw [Ty.passedCounts]
  generalize exec sizeof (genCode .read rnd name t (sourceOf t) 0) ⟨packet, fun _ => 0⟩
    ⟨buffer, 0, size, arena, mem, touched, []⟩ = o at hscan h
  generalize t.scan buffer sizeof ⟨packet, []⟩ (Scan.start size arena mem) = o' at hscan ⊢
  cases hscan using Outcome.Rel.kinds with
  | next s' g hs =>
      cases h
      exact hs.counts
  | ret s' g hs =>
      cases h
      exact hs.counts
  | diverge => cases h

end CmcServer.ProtoDef
