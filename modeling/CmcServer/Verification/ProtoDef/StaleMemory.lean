import CmcServer.Model.Dispatch
import CmcServer.Verification.ProtoDef.Bounds
import CmcServer.Verification.ProtoDef.Scopes

/-! # Stale memory

A generated reader decodes one value, whatever the arena held before, as long as it uses no place in
an array before it has decoded something into it. -/

namespace CmcServer.ProtoDef

open EarlyReturn

/-! ## Scans of two memories -/

/-- The scans differ at most in places that were not decoded into. -/
structure Agree (a b : Scan) : Prop where
  same : b = { a with mem := b.mem }
  known : ∀ l, a.Knows l → b.mem l = a.mem l

/-- A place was used too early, or the two scans go on together. -/
abbrev Steady (c : Stmt Scan) : Prop := Coupled (fun s => s.stale = true) Agree c

section

variable {a b : Scan}

theorem Agree.data (h : Agree a b) : b.data = a.data := by rw [h.same]

theorem Agree.size (h : Agree a b) : b.size = a.size := by rw [h.same]

theorem Agree.arena (h : Agree a b) : b.arena = a.arena := by rw [h.same]

theorem Agree.change (h : Agree a b) {a' : Scan} (hmem : a'.mem = a.mem)
    (hwritten : a'.written = a.written) : Agree a' { a' with mem := b.mem } where
  same := rfl
  known := by
    intro l hl
    rw [hmem]
    apply h.known
    rwa [Scan.Knows, ← hwritten]

theorem Agree.store (h : Agree a b) (l : Loc) (value : ℤ) :
    Agree (a.store l value) (b.store l value) where
  same := by rw [Scan.store, Scan.store, h.same]
  known := by
    intro l' hl
    by_cases hl' : l' = l
    · simp [Scan.store, hl']
    · simp only [Scan.store, Function.update_of_ne hl']
      apply h.known
      exact hl.imp_right fun hmem => (List.mem_cons.mp hmem).resolve_left hl'

theorem Agree.use (h : Agree a b) (l : Loc) : Agree (a.use l) (b.use l) := by
  have hknows : b.Knows l ↔ a.Knows l := by
    rw [h.same]
    rfl
  have hb : b.use l = { a.use l with mem := b.mem } := by
    rw [Scan.use, Scan.use, decide_eq_decide.mpr hknows, h.same]
  rw [hb]
  exact h.change rfl rfl

end

section

variable {c d : Stmt Scan}

/-- A statement that does not look at the memory. -/
theorem steady_of {f : Scan → Outcome Scan}
    (hstays : ∀ s, s.stale = true → (f s).All (·.stale = true))
    (hboth : ∀ a b, Agree a b → (f a).Rel Agree (f b)) : Steady f :=
  ⟨hstays, fun a b h => Or.inr (hboth a b h)⟩

theorem steady_use {l : Loc} {c : ℤ → Stmt Scan} (hc : ∀ value, Steady (c value)) :
    Steady (scanUse l c) where
  stays := by
    intro s hs
    exact (hc _).stays _ (by simp [hs])
  both := by
    intro a b h
    by_cases hl : a.Knows l
    · rw [scanUse, scanUse, h.known l hl]
      exact (hc _).both _ _ (h.use l)
    · exact Or.inl ((hc _).stays _ (by simp [hl]))

theorem steady_need (n : ℤ) : Steady (scanNeed n) := by
  refine steady_of (fun s hs => ?_) fun a b h => ?_
  · rw [scanNeed]
    split <;> exact hs
  · rw [scanNeed, scanNeed, h.size]
    split <;> exact h

theorem steady_pay (n : ℤ) : Steady (scanPay n) := by
  refine steady_of (fun s hs => hs) fun a b h => ?_
  rw [h.same]
  exact h.change rfl rfl

theorem steady_reserve (t : Ty) : Steady (scanReserve t) :=
  Coupled.ite coupled_next ((steady_need _).seq (steady_pay _))

theorem steady_count (wide : Bool) (length : ℤ) (element : Ty) :
    Steady (scanCount wide length element) := by
  refine Coupled.ite coupled_next (steady_of (fun s hs => ?_) fun a b h => ?_)
  · split <;> exact hs
  · rw [h.size]
    split
    · exact h
    · rw [h.same]
      exact h.change rfl rfl

theorem steady_alloc (bytes : ℤ) : Steady (scanAlloc bytes) := by
  refine steady_of (fun s hs => ?_) fun a b h => ?_
  · rw [scanAlloc]
    split <;> exact hs
  · rw [scanAlloc, scanAlloc, h.arena]
    cases a.arena.tickArenaAllocUnlocked (toSize bytes) with
    | none => exact h
    | some result =>
        rw [h.same]
        exact h.change rfl rfl

theorem steady_elements {wide : Bool} {length : Loc} {element : ℕ → Stmt Scan}
    (helement : ∀ i, Steady (element i)) (fuel i : ℕ) :
    Steady (scanElements wide length element fuel i) := by
  induction fuel generalizing i with
  | zero => exact steady_of (fun s hs => trivial) fun a b h => trivial
  | succ fuel ih =>
      exact steady_use fun value => Coupled.ite ((helement i).seq (ih (i + 1))) coupled_next

theorem steady_chars {l : Loc} {c : Bool → Stmt Scan} (hc : ∀ holds, Steady (c holds))
    (chars : List Char) (i : ℤ) : Steady (scanChars l chars i c) := by
  induction chars generalizing i with
  | nil => exact hc true
  | cons char chars ih => exact steady_use fun value => Coupled.ite (ih (i + 1)) (hc false)

theorem steady_case {discriminant : Loc} {c : Bool → Stmt Scan} (hc : ∀ holds, Steady (c holds))
    (value : CaseValue) : Steady (scanCase value discriminant c) := by
  cases value with
  | int value =>
      rw [scanCase]
      exact steady_use fun v => hc _
  | bool value =>
      rw [scanCase]
      exact steady_use fun v => hc _
  | string value =>
      rw [scanCase]
      exact steady_use fun length => Coupled.ite (steady_chars hc _ 0) (hc false)
  | default => exact hc true

theorem stale_call {s : Scan} (h : (c s).All (·.stale = true)) :
    (scanCall c s).All (·.stale = true) := by
  rw [scanCall]
  revert h
  cases c s with
  | next s' =>
      intro h
      dsimp only
      split <;> exact h
  | ret s' => exact id
  | diverge => exact id

theorem steady_call (h : Steady c) : Steady (scanCall c) where
  stays := fun s hs => stale_call (h.stays s hs)
  both := by
    intro a b hab
    refine (h.both a b hab).imp stale_call fun hboth => ?_
    rw [scanCall, scanCall, hab.data, hab.size]
    generalize c a = o at hboth ⊢
    generalize c b = o' at hboth ⊢
    cases hboth using Outcome.Rel.kinds with
    | next a' b' h' =>
        rw [h'.same]
        dsimp only
        split <;> exact h'.change rfl rfl
    | ret a' b' h' =>
        rw [h'.same]
        exact h'.change rfl rfl
    | diverge => trivial

theorem stale_callFixed {s : Scan} (n : ℤ) (h : (c s).All (·.stale = true)) :
    (scanCallFixed n c s).All (·.stale = true) := by
  rw [scanCallFixed]
  revert h
  cases c s with
  | next s' => exact id
  | ret s' => exact id
  | diverge => exact id

theorem steady_callFixed (n : ℤ) (h : Steady c) : Steady (scanCallFixed n c) where
  stays := fun s hs => stale_callFixed n (h.stays s hs)
  both := by
    intro a b hab
    refine (h.both a b hab).imp (stale_callFixed n) fun hboth => ?_
    rw [scanCallFixed, scanCallFixed, hab.data, hab.size]
    generalize c a = o at hboth ⊢
    generalize c b = o' at hboth ⊢
    cases hboth using Outcome.Rel.kinds with
    | next a' b' h' =>
        rw [h'.same]
        exact h'.change rfl rfl
    | ret a' b' h' => exact h'
    | diverge => trivial

section

variable (buffer : ℕ → UInt8)

theorem steady_fixed (n : Native) (l : Loc) : Steady (scanFixed buffer n l) := by
  refine steady_of (fun s hs => hs) fun a b h => ?_
  have hstore := h.store l (n.decode (Bytes.load buffer a.data n.size.toNat))
  rw [scanFixed, scanFixed, h.data, hstore.same]
  exact hstore.change rfl rfl

/-- A numeral is added to what its place holds, so only that matters. -/
theorem steady_numeral (read : (ℕ → UInt8) → ℤ → ℤ → VarintRead) (l : Loc) :
    Steady (scanNumeral buffer read l) := by
  refine steady_use fun value => steady_of (fun s hs => ?_) fun a b h => ?_
  · dsimp only
    split <;> exact hs
  · have hstore := h.store l
    simp only [h.data, h.size]
    split
    · exact hstore _
    · rw [(hstore _).same]
      exact (hstore _).change rfl rfl

theorem steady_native (n : Native) (l : Loc) : Steady (n.scan buffer l) := by
  cases n with
  | varint => exact steady_numeral buffer _ l
  | varlong => exact steady_numeral buffer _ l
  | nbt => exact coupled_ret
  | _ => exact steady_fixed buffer _ l

theorem unpack_congr {l l' : Loc} {mem mem' : Loc → ℤ} (packed : ℕ) (fields : List BitField)
    (offset : ℕ) (h : l' ∈ (fields.map fun field => l.sub field.name) ∨ mem' l' = mem l') :
    unpack l packed fields offset mem' l' = unpack l packed fields offset mem l' := by
  induction fields generalizing offset mem mem' with
  | nil => exact h.resolve_left List.not_mem_nil
  | cons field fields ih =>
      rw [unpack, unpack]
      apply ih
      by_cases hfield : l' = l.sub field.name
      · simp [hfield]
      · rw [Function.update_of_ne hfield, Function.update_of_ne hfield]
        simpa [hfield] using h

theorem steady_bits (fields : List BitField) (l : Loc) : Steady (scanBits buffer fields l) := by
  refine steady_of (fun s hs => hs) fun a b h => ?_
  refine ⟨by rw [h.same], fun l' hl' => ?_⟩
  simp only [h.data]
  apply unpack_congr
  rcases hl' with hplain | hwritten
  · exact Or.inr (h.known l' (Or.inl hplain))
  · rcases List.mem_append.mp hwritten with hfield | hbefore
    · exact Or.inl hfield
    · exact Or.inr (h.known l' (Or.inr hbefore))

theorem steady_rest (l : Loc) : Steady (scanRest l) := by
  refine steady_of (fun s hs => hs) fun a b h => ?_
  have hstore := h.store l (toInt32 (toSize a.size / 4 : ℕ))
  rw [scanRest, scanRest, h.size, hstore.same]
  exact hstore.change rfl rfl

end

end

/-! ## Scans of types -/

section

variable (buffer : ℕ → UInt8) (sizeof : Ty → ℕ)

mutual

/-- Until a scan uses a place in an array too early, it does not depend on stale memory. -/
theorem Ty.steady (t : Ty) (p : Spot) : Steady (t.scan buffer sizeof p) := by
  cases t with
  | native n => exact steady_native buffer n p.loc
  | typedef name base =>
      rw [Ty.scan]
      exact Coupled.ite (steady_call (base.steady _)) (steady_callFixed _ (base.steady _))
  | void => exact coupled_next
  | container fields => exact fields.steady none p
  | «switch» up compareTo cases => exact cases.steady _ p
  | array count element =>
      rw [Ty.scan]
      refine (steady_reserve count).seq ((count.steady _).seq (steady_use fun value => ?_))
      refine (steady_count _ _ element).seq ((steady_alloc _).seq ?_)
      exact steady_elements (fun j => element.steady _) _ _
  | rest element =>
      rw [Ty.scan]
      refine (steady_rest _).seq (steady_use fun value => (steady_alloc _).seq ?_)
      exact steady_elements (fun j => element.steady _) _ _
  | bitfield fields => exact steady_bits buffer fields p.loc
  | option base =>
      rw [Ty.scan]
      refine (steady_need 1).seq ((steady_pay 1).seq ((steady_fixed buffer _ _).seq ?_))
      exact steady_use fun present => Coupled.ite (steady_reserve base) coupled_next

theorem Fields.steady (fields : Fields) (run : Option ℤ) (p : Spot) :
    Steady (fields.scan buffer sizeof run p) := by
  cases fields with
  | nil =>
      cases run with
      | none => exact coupled_next
      | some total => exact steady_pay total
  | cons name t fields =>
      have hrest := (t.steady (p.sub name)).seq (fields.steady none p)
      cases run with
      | none =>
          rw [Fields.scan]
          refine Coupled.ite (coupled_next.seq hrest) ?_
          exact (steady_need _).seq ((t.steady _).seq (fields.steady _ p))
      | some total =>
          rw [Fields.scan]
          refine Coupled.ite ((steady_pay total).seq hrest) ?_
          exact (t.steady _).seq (fields.steady _ p)

theorem Cases.steady (cases : Cases) (discriminant : Loc) (p : Spot) :
    Steady (cases.scan buffer sizeof discriminant p) := by
  cases cases with
  | nil => exact coupled_ret
  | cons name t value cases =>
      rw [Cases.scan]
      refine steady_case (fun selected => Coupled.ite ?_ (cases.steady discriminant p)) value
      exact Coupled.ite coupled_next ((steady_reserve t).seq (t.steady _))

end

end

/-! ## Decoded values -/

section

variable (m₁ m₂ : Loc → ℤ)

mutual

/-- The values that two memories hold at a place are structurally equal. -/
def Ty.Same : Ty → (around : List Loc) → Loc → Prop
  | .native _, _, l => m₁ l = m₂ l
  | .typedef _ base, _, l => base.Same [] l
  | .void, _, _ => True
  | .container fields, around, l => fields.Same (l :: around) l
  | .switch up compareTo cases, around, l => cases.Same (siblingOf around up compareTo) l
  | .array count element, _, l =>
      count.Same [] (l.sub "length") ∧ m₁ (l.sub "length") = m₂ (l.sub "length") ∧
        ∀ j < (m₁ (l.sub "length")).toNat, element.Same [] (l.elem j)
  | .rest element, _, l =>
      m₁ (l.sub "length") = m₂ (l.sub "length") ∧
        ∀ j < (m₁ (l.sub "length")).toNat, element.Same [] (l.elem j)
  | .bitfield fields, _, l => ∀ field ∈ fields, m₁ (l.sub field.name) = m₂ (l.sub field.name)
  | .option base, _, l =>
      m₁ (l.sub "present") = m₂ (l.sub "present") ∧
        (m₁ (l.sub "present") ≠ 0 → base.Same [] (l.sub "value"))

def Fields.Same : Fields → (around : List Loc) → Loc → Prop
  | .nil, _, _ => True
  | .cons name t fields, around, l => t.Same around (l.sub name) ∧ fields.Same around l

def Cases.Same : Cases → (sibling : Loc) → Loc → Prop
  | .nil, _, _ => True
  | .cons name t value cases, sibling, l =>
      value.holds m₁ sibling = value.holds m₂ sibling ∧
        if value.holds m₁ sibling then t.Same [] (l.sub name) else cases.Same sibling l

end

end

section

variable (s : Scan)

def Scan.KnowsChars (l : Loc) : List Char → (i : ℤ) → Prop
  | [], _ => True
  | char :: chars, i =>
      s.Knows (.index i :: l.sub "elements") ∧
        (s.mem (.index i :: l.sub "elements") = char.toNat → KnowsChars l chars (i + 1))

def CaseValue.Known (sibling : Loc) : CaseValue → Prop
  | .int _ | .bool _ => s.Knows sibling
  | .string value =>
      s.Knows (sibling.sub "length") ∧
        (s.mem (sibling.sub "length") = value.toList.length →
          s.KnowsChars sibling value.toList 0)
  | .default => True

mutual

/-- Everything in the value at a place is known. -/
def Ty.Known : Ty → (around : List Loc) → Loc → Prop
  | .native _, _, l => s.Knows l
  | .typedef _ base, _, l => base.Known [] l
  | .void, _, _ => True
  | .container fields, around, l => fields.Known (l :: around) l
  | .switch up compareTo cases, around, l => cases.Known (siblingOf around up compareTo) l
  | .array count element, _, l =>
      count.Known [] (l.sub "length") ∧ s.Knows (l.sub "length") ∧
        ∀ j < (s.mem (l.sub "length")).toNat, element.Known [] (l.elem j)
  | .rest element, _, l =>
      s.Knows (l.sub "length") ∧
        ∀ j < (s.mem (l.sub "length")).toNat, element.Known [] (l.elem j)
  | .bitfield fields, _, l => ∀ field ∈ fields, s.Knows (l.sub field.name)
  | .option base, _, l =>
      s.Knows (l.sub "present") ∧
        (s.mem (l.sub "present") ≠ 0 → base.Known [] (l.sub "value"))

def Fields.Known : Fields → (around : List Loc) → Loc → Prop
  | .nil, _, _ => True
  | .cons name t fields, around, l => t.Known around (l.sub name) ∧ fields.Known around l

def Cases.Known : Cases → (sibling : Loc) → Loc → Prop
  | .nil, _, _ => True
  | .cons name t value cases, sibling, l =>
      value.Known s sibling ∧
        if value.holds s.mem sibling then t.Known [] (l.sub name) else cases.Known sibling l

end

variable {s} {m m₁ m₂ : Loc → ℤ}

theorem eqChars_of_known {l : Loc} {chars : List Char} {i : ℤ} (h : s.KnowsChars l chars i)
    (hm : ∀ l, s.Knows l → m l = s.mem l) : eqChars m l chars i = eqChars s.mem l chars i := by
  induction chars generalizing i with
  | nil => rfl
  | cons char chars ih =>
      rw [eqChars, eqChars, hm _ h.1]
      by_cases hchar : s.mem (.index i :: l.sub "elements") = char.toNat
      · rw [ih (h.2 hchar)]
      · simp [hchar]

theorem holds_of_known {value : CaseValue} {sibling : Loc} (h : value.Known s sibling)
    (hm : ∀ l, s.Knows l → m l = s.mem l) : value.holds m sibling = value.holds s.mem sibling := by
  cases value with
  | int value =>
      rw [CaseValue.holds, CaseValue.holds, hm sibling h]
  | bool value =>
      rw [CaseValue.holds, CaseValue.holds, hm sibling h]
  | string value =>
      rw [CaseValue.holds, CaseValue.holds, hm _ h.1]
      by_cases hlength : s.mem (sibling.sub "length") = value.toList.length
      · rw [eqChars_of_known (h.2 hlength) hm]
      · simp [hlength]
  | default => rfl

theorem same_of_knows {l : Loc} (hm₁ : ∀ l, s.Knows l → m₁ l = s.mem l)
    (hm₂ : ∀ l, s.Knows l → m₂ l = s.mem l) (h : s.Knows l) : m₁ l = m₂ l :=
  (hm₁ l h).trans (hm₂ l h).symm

mutual

/-- Memories that agree on what is known hold one value. -/
theorem Ty.same_of_known (t : Ty) (hm₁ : ∀ l, s.Knows l → m₁ l = s.mem l)
    (hm₂ : ∀ l, s.Knows l → m₂ l = s.mem l) {around : List Loc} {l : Loc}
    (h : t.Known s around l) : t.Same m₁ m₂ around l := by
  cases t with
  | native n => exact same_of_knows hm₁ hm₂ h
  | typedef name base => exact base.same_of_known hm₁ hm₂ h
  | void => trivial
  | container fields => exact fields.same_of_known hm₁ hm₂ h
  | «switch» up compareTo cases => exact cases.same_of_known hm₁ hm₂ h
  | array count element =>
      refine ⟨count.same_of_known hm₁ hm₂ h.1, same_of_knows hm₁ hm₂ h.2.1, ?_⟩
      rw [hm₁ _ h.2.1]
      exact fun j hj => element.same_of_known hm₁ hm₂ (h.2.2 j hj)
  | rest element =>
      refine ⟨same_of_knows hm₁ hm₂ h.1, ?_⟩
      rw [hm₁ _ h.1]
      exact fun j hj => element.same_of_known hm₁ hm₂ (h.2 j hj)
  | bitfield fields => exact fun field hfield => same_of_knows hm₁ hm₂ (h field hfield)
  | option base =>
      refine ⟨same_of_knows hm₁ hm₂ h.1, ?_⟩
      rw [hm₁ _ h.1]
      exact fun hpresent => base.same_of_known hm₁ hm₂ (h.2 hpresent)

theorem Fields.same_of_known (fields : Fields) (hm₁ : ∀ l, s.Knows l → m₁ l = s.mem l)
    (hm₂ : ∀ l, s.Knows l → m₂ l = s.mem l) {around : List Loc} {l : Loc}
    (h : fields.Known s around l) : fields.Same m₁ m₂ around l := by
  cases fields with
  | nil => trivial
  | cons name t fields =>
      exact ⟨t.same_of_known hm₁ hm₂ h.1, fields.same_of_known hm₁ hm₂ h.2⟩

theorem Cases.same_of_known (cases : Cases) (hm₁ : ∀ l, s.Knows l → m₁ l = s.mem l)
    (hm₂ : ∀ l, s.Knows l → m₂ l = s.mem l) {sibling l : Loc} (h : cases.Known s sibling l) :
    cases.Same m₁ m₂ sibling l := by
  cases cases with
  | nil => trivial
  | cons name t value cases =>
      rcases h with ⟨hvalue, h⟩
      have hholds := holds_of_known hvalue hm₁
      refine ⟨hholds.trans (holds_of_known hvalue hm₂).symm, ?_⟩
      rw [hholds]
      split
      · rename_i hselected
        rw [if_pos hselected] at h
        exact t.same_of_known hm₁ hm₂ h
      · rename_i hselected
        rw [if_neg hselected] at h
        exact cases.same_of_known hm₁ hm₂ h

end

end

/-! ## Generated readers -/

/-- The state in which a reader is called, in an arena that was used before. -/
def Core.recycled (buffer : ℕ → UInt8) (size : ℕ) (arena : TickArena) (stale : Loc → ℤ) : Core :=
  Core.start buffer size arena (packetMemory stale)

section

variable (sizeof : Ty → ℕ) (rnd : String → ℕ → ℕ) (name : String) (t : Ty) (buffer : ℕ → UInt8)
  (size : ℕ) (arena : TickArena)

/-- The generated reader returns one size and decodes one value, whatever the arena held before.
What a failed call leaves behind is not used. -/
def IgnoresStale : Prop :=
  ∀ stale₁ stale₂ : Loc → ℤ,
    (t.isVariable = true →
      ∃ ret s₁ s₂,
        callFunction sizeof (generateRead rnd name t) []
          (Core.recycled buffer size arena stale₁) = some (ret, s₁) ∧
        callFunction sizeof (generateRead rnd name t) []
          (Core.recycled buffer size arena stale₂) = some (ret, s₂) ∧
        (0 ≤ ret → t.Same s₁.mem s₂.mem [] [])) ∧
    (t.isVariable = false →
      ∃ s₁ s₂,
        exec sizeof (genReadCode rnd name t (fixedSourceOf .read t) 0) ⟨[], fun _ => 0⟩
          (Core.recycled buffer size arena stale₁) = .next s₁ ∧
        exec sizeof (genReadCode rnd name t (fixedSourceOf .read t) 0) ⟨[], fun _ => 0⟩
          (Core.recycled buffer size arena stale₂) = .next s₂ ∧
        t.Same s₁.mem s₂.mem [] [])

/-- In an arena of zeros, the reader uses no place in an array before it decodes something into it,
and what it returns was all decoded from the input. -/
def DecodesFirst : Prop :=
  match t.scan buffer sizeof ⟨[], []⟩ (Scan.start size arena fun _ => 0) with
  | .next g => g.stale = false ∧ (0 ≤ toInt32 (size - g.size) → t.Known g [] [])
  | .ret g => g.stale = false
  | .diverge => True

end

section

variable {sizeof : Ty → ℕ} {rnd : String → ℕ → ℕ} {name : String} {t : Ty} {buffer : ℕ → UInt8}
  {size : ℕ} {arena : TickArena}

/-- A packet is blank when its reader is called. -/
theorem agree_start (size : ℤ) (arena : TickArena) (stale : Loc → ℤ) :
    Agree (Scan.start size arena fun _ => 0) (Scan.start size arena (packetMemory stale)) where
  same := rfl
  known := by
    intro l hl
    have hplain := hl.resolve_right List.not_mem_nil
    simp [Scan.start, packetMemory, hplain]

/-- Where a scan of an arena of zeros is, as far as it is known. -/
structure Mimics (s : Core) (g : Scan) : Prop where
  size : s.size = g.size
  known : ∀ l, g.Knows l → s.mem l = g.mem l

/-- A reader in a used arena goes through the input as a scan of an arena of zeros does. -/
theorem mimics_recycled {place : LVal} (huses : place.Uses []) (hshaped : place.Shaped)
    (hspot : place.spot ⟨[], fun _ => 0⟩ = ⟨[], []⟩) (hfresh : t.Fresh rnd name [] 0)
    (hfirst : DecodesFirst sizeof t buffer size arena)
    (hends : ∀ mem, exec sizeof (genCode .read rnd name t place 0) ⟨[], fun _ => 0⟩
      (Core.start buffer size arena mem) ≠ .diverge) (stale : Loc → ℤ) :
    (exec sizeof (genCode .read rnd name t place 0) ⟨[], fun _ => 0⟩
        (Core.recycled buffer size arena stale)).Rel Mimics
      (t.scan buffer sizeof ⟨[], []⟩ (Scan.start size arena fun _ => 0)) := by
  have hscan := fun mem => t.rel_scan sizeof rnd hfresh huses hshaped ⟨[], fun _ => 0⟩
    (mirrors_start buffer size arena mem 0)
  rw [hspot] at hscan
  rw [DecodesFirst] at hfirst
  rcases (t.steady buffer sizeof ⟨[], []⟩).both _ _ (agree_start size arena stale) with
    hstale | hboth
  · have hzero := hscan fun _ => 0
    have hends := hends fun _ => 0
    rw [Core.start] at hends
    generalize exec sizeof (genCode .read rnd name t place 0) ⟨[], fun _ => 0⟩
      ⟨buffer, 0, size, arena, fun _ => 0, 0, []⟩ = o at hzero hends
    generalize t.scan buffer sizeof ⟨[], []⟩ (Scan.start size arena fun _ => 0) = o'
      at hfirst hstale hzero
    cases hzero using Outcome.Rel.kinds with
    | next s g _ => exact absurd hstale (by simp [Outcome.All, hfirst.1])
    | ret s g _ => exact absurd hstale (by simp [Outcome.All, hfirst])
    | diverge => exact absurd rfl hends
  · refine (hscan (packetMemory stale)).meet hboth fun s g g₀ hs hg => ?_
    exact ⟨hs.size.trans hg.size, fun l hl => by rw [hs.mem, hg.known l hl]⟩

end

end CmcServer.ProtoDef
