import CmcServer.Model.ProtoDef.BaseTypes

/-! # The order of the base types

`generate_base_types` is a retry queue with three tries for each definition. A definition has its
try in vain when it refers to one that stands behind it, so a chain of references with three such
steps is too long for the queue. -/

namespace CmcServer.ProtoDef

open Relation

/-! ## References -/

mutual

/-- The names that `generate_type` looks up. -/
def TypeExpr.references : TypeExpr → List String
  | .named name => [name]
  | .container fields => fields.references
  | .switch _ cases => cases.references
  | .pstring countType => countType.references ++ ["char"]
  | .array countType type => countType.references ++ type.references
  | .buffer countType => countType.references ++ ["u8"]
  | .bitfield _ _ => []
  | .option type => type.references
  | .particleData _ => ["particle_data"]
  | .entityMetadataLoop => []

def FieldExprs.references : FieldExprs → List String
  | .nil => []
  | .cons _ type fields => type.references ++ fields.references

def CaseExprs.references : CaseExprs → List String
  | .nil => []
  | .default type => type.references
  | .cons _ type cases => type.references ++ cases.references

end

section

variable (protocolTypes : List (String × TypeExpr))

/-- The entries that define a type. The others name a native. -/
def definitions : List (String × TypeExpr) := protocolTypes.filter fun d => !d.2.isNative

/-- The names that a definition refers to, other than natives. -/
def needsOf (name : String) : List String :=
  ((definitions protocolTypes).filter fun d => d.1 = name).flatMap fun d =>
    d.2.references.filter fun r => (natives.lookup r).isNone

/-- The definitions that the loop does not pass over, in the order of the file. -/
def queuedNames : List String :=
  ((definitions protocolTypes).filter fun d => d.1 ≠ "entity_metadata").map Prod.fst

abbrev Refers : String → String → Prop := fun a b => b ∈ needsOf protocolTypes a

/-- The definition depends on a name that is not defined or on one that depends on itself. -/
def Broken (name : String) : Prop :=
  ∃ b, ReflTransGen (Refers protocolTypes) name b ∧
    (b ∉ (definitions protocolTypes).map Prod.fst ∨ TransGen (Refers protocolTypes) b b)

/-- All definitions that can be compiled are generated once, after those that they refer to, and
none of them is reported. -/
structure OrderingComplete : Prop where
  ends : (generateBaseTypes protocolTypes).queue = [] ∧
    (generateBaseTypes protocolTypes).raised = false
  once : ∀ d ∈ definitions protocolTypes, ¬ Broken protocolTypes d.1 →
    ((generateBaseTypes protocolTypes).generated.map Prod.fst).count d.1 = 1
  ordered : ∀ before x after,
    (generateBaseTypes protocolTypes).generated.map Prod.fst = before ++ x :: after →
      ∀ y, Refers protocolTypes x y → y ∈ before
  reported : ∀ name ∈ (generateBaseTypes protocolTypes).reported, Broken protocolTypes name

/-- The names of the file are different, those of definitions are in snake case, and
`particle_data` is a switch that can be instantiated. -/
structure ProperTypes : Prop where
  nodup : (protocolTypes.map Prod.fst).Nodup
  snake : ∀ d ∈ definitions protocolTypes, snakeCase d.1 = d.1
  particle : ∀ typ, ("particle_data", typ) ∈ definitions protocolTypes →
    ∃ compareTo cases, typ = .switch compareTo cases ∧ snakeCase compareTo = "$compare_to"

end

/-! ## Looking types up -/

section

variable {types : String → Option TypeTree} {α β : Type}

/-- The result of looking up the names `references`: there is one if all are defined, otherwise one
of them is not found. -/
def LooksUp (types : String → Option TypeTree) (references : List String) :
    Except TypeError α → Prop
  | .ok _ => ∀ r ∈ references, types r ≠ none
  | .error (.notFound name) => name ∈ references ∧ types name = none
  | .error .assertion => False

theorem looksUp_pure (a : α) : LooksUp types [] (pure a : Except TypeError α) := by
  intro r hr
  cases hr

theorem LooksUp.bind {references references' : List String} {x : Except TypeError α}
    {f : α → Except TypeError β} (hx : LooksUp types references x)
    (hf : ∀ a, LooksUp types references' (f a)) :
    LooksUp types (references ++ references') (x >>= f) := by
  rcases x with (name | -) | a
  · exact ⟨List.mem_append_left _ hx.1, hx.2⟩
  · exact hx
  · have hrest := hf a
    change LooksUp types (references ++ references') (f a)
    rcases hfa : f a with (name | -) | b <;> rw [hfa] at hrest
    · exact ⟨List.mem_append_right _ hrest.1, hrest.2⟩
    · exact hrest
    · intro r hr
      rcases List.mem_append.mp hr with hr | hr
      · exact hx r hr
      · exact hrest r hr

theorem LooksUp.map {references : List String} {x : Except TypeError α}
    (hx : LooksUp types references x) (f : α → β) :
    LooksUp types references (x >>= fun a => pure (f a)) := by
  have hbind : LooksUp types (references ++ []) (x >>= fun a => pure (f a)) :=
    hx.bind fun a => looksUp_pure (f a)
  rwa [List.append_nil] at hbind

theorem looksUp_getType (name : String) : LooksUp types [name] (getType types name) := by
  rw [getType]
  cases h : types name with
  | none => exact ⟨List.mem_singleton_self name, h⟩
  | some t =>
      intro r hr
      rw [List.mem_singleton.mp hr, h]
      exact Option.some_ne_none t

def ParticleSwitch (types : String → Option TypeTree) : Prop :=
  ∀ t, types "particle_data" = some t →
    ∃ name switch compareTo cases, t = .typedef name (.switch switch true compareTo cases)

theorem looksUp_particle (hparticle : ParticleSwitch types) (compareTo : String) :
    LooksUp types ["particle_data"]
      (getType types "particle_data" >>= particleInstance compareTo) := by
  rw [getType]
  cases h : types "particle_data" with
  | none => exact ⟨List.mem_singleton_self _, h⟩
  | some t =>
      obtain ⟨name, switch, compare, cases, rfl⟩ := hparticle t h
      intro r hr
      rw [List.mem_singleton.mp hr, h]
      exact Option.some_ne_none _

mutual

theorem TypeExpr.looksUp (hparticle : ParticleSwitch types) :
    ∀ (type : TypeExpr) (switchNames : List (String × String)),
      LooksUp types type.references (type.generateType types switchNames)
  | .named name, _ => looksUp_getType name
  | .container fields, _ => (fields.looksUp hparticle).map _
  | .switch compareTo cases, switchNames =>
      (cases.looksUp hparticle (caseNames compareTo switchNames)).map _
  | .pstring countType, _ =>
      (countType.looksUp hparticle []).bind fun _ => (looksUp_getType "char").map _
  | .array countType type, _ =>
      (countType.looksUp hparticle []).bind fun _ => (type.looksUp hparticle []).map _
  | .buffer countType, _ =>
      (countType.looksUp hparticle []).bind fun _ => (looksUp_getType "u8").map _
  | .bitfield _ _, _ => looksUp_pure _
  | .option type, _ => (type.looksUp hparticle []).map _
  | .particleData compareTo, _ => looksUp_particle hparticle compareTo
  | .entityMetadataLoop, _ => looksUp_pure _

theorem FieldExprs.looksUp (hparticle : ParticleSwitch types) :
    ∀ fields : FieldExprs, LooksUp types fields.references (fields.generateType types)
  | .nil => looksUp_pure _
  | .cons _ type fields =>
      (type.looksUp hparticle []).bind fun _ => (fields.looksUp hparticle).map _

theorem CaseExprs.looksUp (hparticle : ParticleSwitch types)
    (switchNames : List (String × String)) :
    ∀ cases : CaseExprs, LooksUp types cases.references (cases.generateType types switchNames)
  | .nil => looksUp_pure _
  | .default type => (type.looksUp hparticle []).map _
  | .cons _ type cases =>
      (type.looksUp hparticle []).bind fun _ => (cases.looksUp hparticle switchNames).map _

end

end

/-! ## The queue behind the loop -/

section

variable {protocolTypes : List (String × TypeExpr)}

theorem mem_needsOf {name r : String} :
    r ∈ needsOf protocolTypes name ↔ ∃ typ, (name, typ) ∈ definitions protocolTypes ∧
      r ∈ typ.references ∧ natives.lookup r = none := by
  simp only [needsOf, List.mem_flatMap, List.mem_filter, decide_eq_true_eq,
    Option.isNone_iff_eq_none]
  constructor
  · rintro ⟨⟨name, typ⟩, ⟨hmem, rfl⟩, hr, hnative⟩
    exact ⟨typ, hmem, hr, hnative⟩
  · rintro ⟨typ, hmem, hr, hnative⟩
    exact ⟨(name, typ), ⟨hmem, rfl⟩, hr, hnative⟩

theorem ProperTypes.unique (h : ProperTypes protocolTypes) {name : String} {typ typ' : TypeExpr}
    (htyp : (name, typ) ∈ definitions protocolTypes)
    (htyp' : (name, typ') ∈ definitions protocolTypes) : typ = typ' := by
  have hinj := List.inj_on_of_nodup_map h.nodup (List.mem_of_mem_filter htyp)
    (List.mem_of_mem_filter htyp') rfl
  exact (Prod.mk.inj hinj).2

/-- The state of the loop as a state of the retry queue. -/
def retryQueue (s : BaseTypes) : RetryQueue String where
  queue := (s.queue.filter fun e => !BaseTypes.skips e.1 e.2).map Prod.snd
  attempts := s.count
  finished := s.generated.map Prod.fst
  dropped := s.reported

/-- What holds in front of every round. -/
structure LoopSound (protocolTypes : List (String × TypeExpr)) (s : BaseTypes) : Prop where
  raised : s.raised = false
  types : ∀ name, s.types name ≠ none ↔
    natives.lookup name ≠ none ∨ name ∈ s.generated.map Prod.fst
  particle : ParticleSwitch s.types
  queue : ∀ e ∈ s.queue, e.1.isNative = false → (e.2, e.1) ∈ definitions protocolTypes

theorem start_sound (h : ProperTypes protocolTypes) :
    LoopSound protocolTypes (BaseTypes.start protocolTypes) where
  raised := rfl
  types := by simp [BaseTypes.start]
  particle := by
    intro t ht
    have hnone : natives.lookup "particle_data" = none := by decide
    rw [show natives.lookup "particle_data" = some t from ht] at hnone
    cases hnone
  queue := by
    intro e he hnative
    obtain ⟨d, hd, rfl⟩ := List.mem_map.mp he
    have hdefinition : d ∈ definitions protocolTypes :=
      List.mem_filter.mpr ⟨hd, by rw [show d.2.isNative = false from hnative]; rfl⟩
    rw [h.snake d hdefinition]
    exact hdefinition

theorem retryQueue_start (h : ProperTypes protocolTypes) :
    retryQueue (BaseTypes.start protocolTypes) = RetryQueue.start (queuedNames protocolTypes) := by
  have hqueue : ((BaseTypes.start protocolTypes).queue.filter fun e =>
      !BaseTypes.skips e.1 e.2).map Prod.snd = queuedNames protocolTypes := by
    rw [BaseTypes.start, List.filter_map, List.map_map, queuedNames, definitions,
      List.filter_filter]
    have hfilter : protocolTypes.filter
          ((fun e => !BaseTypes.skips e.1 e.2) ∘ fun d => (d.2, snakeCase d.1)) =
        protocolTypes.filter fun d => decide (d.1 ≠ "entity_metadata") && !d.2.isNative := by
      refine List.filter_congr fun d hd => ?_
      by_cases hnative : d.2.isNative = true
      · simp [BaseTypes.skips, hnative]
      · have hdefinition : d ∈ definitions protocolTypes :=
          List.mem_filter.mpr ⟨hd, by simpa using hnative⟩
        simp [BaseTypes.skips, hnative, h.snake d hdefinition]
    rw [hfilter]
    refine List.map_congr_left fun d hd => ?_
    have hnative := (List.mem_filter.mp hd).2
    simp only [Bool.and_eq_true] at hnative
    exact h.snake d (List.mem_filter.mpr ⟨(List.mem_filter.mp hd).1, hnative.2⟩)
  rw [retryQueue, hqueue]
  rfl

/-- The try of a definition finds all types exactly if all that it needs is generated. -/
theorem LoopSound.found {s : BaseTypes} (hs : LoopSound protocolTypes s)
    (h : ProperTypes protocolTypes) {name : String} {typ : TypeExpr}
    (hdefinition : (name, typ) ∈ definitions protocolTypes) :
    (∀ r ∈ typ.references, s.types r ≠ none) ↔
      ∀ y ∈ needsOf protocolTypes name, y ∈ s.generated.map Prod.fst := by
  constructor
  · intro hfound y hy
    obtain ⟨typ', htyp', hr, hnative⟩ := mem_needsOf.mp hy
    rw [h.unique htyp' hdefinition] at hr
    rcases (hs.types y).mp (hfound y hr) with hnative' | hmem
    · exact absurd hnative hnative'
    · exact hmem
  · intro hneeds r hr
    rw [hs.types r]
    by_cases hnative : natives.lookup r = none
    · exact Or.inr (hneeds r (mem_needsOf.mpr ⟨typ, hdefinition, hr, hnative⟩))
    · exact Or.inl hnative

theorem generateType_abstract {types : String → Option TypeTree} {compareTo : String}
    {cases : CaseExprs} {switchNames : List (String × String)} {t : TypeTree}
    (hcompare : snakeCase compareTo = "$compare_to")
    (h : (TypeExpr.switch compareTo cases).generateType types switchNames = .ok t) :
    ∃ cases', t = .switch "" true "$compare_to" cases' := by
  rw [TypeExpr.generateType] at h
  rcases hcases : cases.generateType types (caseNames compareTo switchNames) with e | cases'
  · rw [hcases] at h
    cases h
  · rw [hcases] at h
    refine ⟨cases', ?_⟩
    simpa [hcompare, pure, Except.pure, bind, Except.bind, eq_comm] using h

/-- An entry that the loop does not pass over is the next of the retry queue. -/
theorem retryQueue_cons {s : BaseTypes} {typ : TypeExpr} {name : String}
    {queue : List (TypeExpr × String)} (hqueue : s.queue = (typ, name) :: queue)
    (hskip : BaseTypes.skips typ name = false) :
    (retryQueue s).queue =
      name :: (queue.filter fun e => !BaseTypes.skips e.1 e.2).map Prod.snd := by
  simp [retryQueue, hqueue, hskip]

/-- A round of the loop is a round of the retry queue, or passes an entry over. -/
theorem LoopSound.next {s t : BaseTypes} (hs : LoopSound protocolTypes s)
    (h : ProperTypes protocolTypes) (hnext : s.next = some t) :
    LoopSound protocolTypes t ∧
      (retryQueue t = retryQueue s ∨
        RetryQueue.next (needsOf protocolTypes) 3 (retryQueue s) = some (retryQueue t)) := by
  unfold BaseTypes.next at hnext
  split at hnext
  · cases hnext
  · cases hnext
  · rename_i typ name queue _ hqueue
    have hrest : ∀ e ∈ queue, e ∈ s.queue := fun e he => by simp [hqueue, he]
    split at hnext
    · rename_i hskip
      cases hnext
      refine ⟨{ hs with queue := fun e he => hs.queue e (hrest e he) }, Or.inl ?_⟩
      exact RetryQueue.ext (by simp [retryQueue, hqueue, hskip]) rfl rfl rfl
    · rename_i hskip
      have hnative : typ.isNative = false := by
        rw [Bool.not_eq_true, BaseTypes.skips, Bool.or_eq_false_iff] at hskip
        exact hskip.1
      have hcons := retryQueue_cons hqueue (by simpa using hskip)
      have hdefinition : (name, typ) ∈ definitions protocolTypes :=
        hs.queue (typ, name) (by simp [hqueue]) hnative
      have hfound := hs.found h hdefinition
      have hlooksUp := typ.looksUp hs.particle (switchNames name)
      dsimp only at hnext
      split at hnext
      · rename_i hcount
        cases hnext
        refine ⟨{ hs with queue := fun e he => hs.queue e (hrest e he) }, Or.inr ?_⟩
        rw [RetryQueue.next, hcons]
        dsimp only
        rw [if_pos (by exact hcount)]
        exact congrArg some
          (RetryQueue.ext rfl (BaseTypes.count_update s _ name rfl).symm rfl rfl)
      · rename_i hcount
        split at hnext
        · rename_i missing hgenerate
          cases hnext
          rw [hgenerate] at hlooksUp
          have hmissing : ¬ ∀ y ∈ needsOf protocolTypes name, y ∈ s.generated.map Prod.fst :=
            fun hall => hfound.mpr hall missing hlooksUp.1 hlooksUp.2
          refine ⟨{ hs with queue := ?_ }, Or.inr ?_⟩
          · intro e he
            rcases List.mem_append.mp he with he | he
            · exact hs.queue e (hrest e he)
            · rw [List.mem_singleton.mp he]
              exact fun _ => hdefinition
          · rw [RetryQueue.next, hcons]
            dsimp only
            rw [if_neg (by exact hcount), if_neg (by exact hmissing)]
            exact congrArg some (RetryQueue.ext (by simp [retryQueue, hskip])
              (BaseTypes.count_update s _ name rfl).symm rfl rfl)
        · rename_i hgenerate
          rw [hgenerate] at hlooksUp
          exact hlooksUp.elim
        · rename_i tree hgenerate
          cases hnext
          rw [hgenerate] at hlooksUp
          refine ⟨⟨hs.raised, ?_, ?_, fun e he => hs.queue e (hrest e he)⟩, Or.inr ?_⟩
          · intro other
            by_cases hother : other = name
            · subst hother
              simp
            · simp [hother, hs.types other]
          · intro t ht
            dsimp only at ht
            by_cases hname : "particle_data" = name
            · subst hname
              obtain ⟨compareTo, cases, rfl, hcompare⟩ := h.particle typ hdefinition
              obtain ⟨cases', rfl⟩ := generateType_abstract hcompare hgenerate
              rw [Function.update_self] at ht
              cases ht
              exact ⟨_, _, _, _, rfl⟩
            · rw [Function.update_of_ne hname] at ht
              exact hs.particle t ht
          · rw [RetryQueue.next, hcons]
            dsimp only
            rw [if_neg (by exact hcount), if_pos (by exact hfound.mp hlooksUp)]
            exact congrArg some (RetryQueue.ext rfl (BaseTypes.count_update s _ name rfl).symm
              (by simp [retryQueue]) rfl)

/-- The loop ends where the retry queue ends. -/
theorem generateBaseTypes_final (h : ProperTypes protocolTypes) :
    LoopSound protocolTypes (generateBaseTypes protocolTypes) ∧
      (generateBaseTypes protocolTypes).queue = [] ∧
      retryQueue (generateBaseTypes protocolTypes) =
        RetryQueue.final (needsOf protocolTypes) 3 (queuedNames protocolTypes) := by
  have hinv : ∀ s t, LoopSound protocolTypes s → s.next = some t → LoopSound protocolTypes t :=
    fun _ _ hs hnext => (hs.next h hnext).1
  have hnone : ∀ s, LoopSound protocolTypes s → s.next = none → s.queue = [] := by
    intro s hs hnext
    unfold BaseTypes.next at hnext
    split at hnext
    · rename_i hraised
      rw [hs.raised] at hraised
      cases hraised
    · assumption
    · split at hnext
      · cases hnext
      · dsimp only at hnext
        split at hnext
        · cases hnext
        · split at hnext <;> cases hnext
  obtain ⟨hstop, hsound⟩ := Runs.finish_invariant BaseTypes.next_decreases
    (LoopSound protocolTypes) hinv (start_sound h)
  refine ⟨hsound, hnone _ hsound hstop, ?_⟩
  rw [generateBaseTypes, RetryQueue.final, ← retryQueue_start h]
  refine Runs.finish_map retryQueue (LoopSound protocolTypes) hinv ?_
    (fun _ _ hs hnext => (hs.next h hnext).2) (start_sound h)
  intro s hs hnext
  simp [RetryQueue.next, retryQueue, hnone s hs hnext]

/-! ## What is generated -/

theorem mem_queuedNames {name : String} : name ∈ queuedNames protocolTypes ↔
    name ∈ (definitions protocolTypes).map Prod.fst ∧ name ≠ "entity_metadata" := by
  simp only [queuedNames, List.mem_map, List.mem_filter, decide_eq_true_eq]
  constructor
  · rintro ⟨d, ⟨hd, hne⟩, rfl⟩
    exact ⟨⟨d, hd, rfl⟩, hne⟩
  · rintro ⟨⟨d, hd, rfl⟩, hne⟩
    exact ⟨d, ⟨hd, hne⟩, rfl⟩

theorem queuedNames_nodup (h : ProperTypes protocolTypes) : (queuedNames protocolTypes).Nodup :=
  h.nodup.sublist ((List.filter_sublist.trans List.filter_sublist).map Prod.fst)

/-- What a definition that can be compiled refers to can be compiled. -/
theorem not_broken_of_reached {a b : String} (h : ¬ Broken protocolTypes a)
    (hab : ReflTransGen (Refers protocolTypes) a b) : ¬ Broken protocolTypes b := by
  rintro ⟨c, hbc, hc⟩
  exact h ⟨c, hab.trans hbc, hc⟩

theorem dependable_of_not_broken {name : String} (h : ¬ Broken protocolTypes name)
    (hpassed : ∀ b, ReflTransGen (Refers protocolTypes) name b → b ≠ "entity_metadata") :
    RetryQueue.Dependable (needsOf protocolTypes) (queuedNames protocolTypes) name := by
  intro b hb
  constructor
  · rw [mem_queuedNames]
    refine ⟨?_, hpassed b hb⟩
    by_contra hundefined
    exact h ⟨b, hb, Or.inl hundefined⟩
  · exact fun hcycle => h ⟨b, hb, Or.inr hcycle⟩

/-- The definitions that are generated and those that are reported. -/
theorem generated_iff (h : ProperTypes protocolTypes) (name : String) :
    (name ∈ (generateBaseTypes protocolTypes).generated.map Prod.fst ↔
      RetryQueue.Within (needsOf protocolTypes) (queuedNames protocolTypes) 3 name) ∧
      (name ∈ (generateBaseTypes protocolTypes).reported ↔ name ∈ queuedNames protocolTypes ∧
        ¬ RetryQueue.Within (needsOf protocolTypes) (queuedNames protocolTypes) 3 name) := by
  obtain ⟨-, -, hfinal⟩ := generateBaseTypes_final h
  have hiff := RetryQueue.final_iff (needsOf protocolTypes) 3 (queuedNames_nodup h) name
  rw [← hfinal] at hiff
  exact hiff

/-- A definition that can be compiled is compiled only if its chains are short. -/
theorem OrderingComplete.chains_short (h : ProperTypes protocolTypes)
    (hcomplete : OrderingComplete protocolTypes) {d : String × TypeExpr}
    (hd : d ∈ definitions protocolTypes) (hbroken : ¬ Broken protocolTypes d.1) :
    d.1 ≠ "entity_metadata" ∧ ∀ chain, (d.1 :: chain).IsChain (Refers protocolTypes) →
      RetryQueue.lateNeeds (queuedNames protocolTypes) (d.1 :: chain) ≤ 2 := by
  have hgenerated : d.1 ∈ (generateBaseTypes protocolTypes).generated.map Prod.fst := by
    rw [← List.count_pos_iff, hcomplete.once d hd hbroken]
    exact Nat.one_pos
  have hwithin := (generated_iff h d.1).1.mp hgenerated
  exact ⟨(mem_queuedNames.mp hwithin.mem).2,
    fun chain hchain => Nat.le_of_lt_succ (hwithin.lateBelow chain hchain)⟩

/-- The loop compiles all that can be compiled if none of it is passed over and no chain of
references has three that stand in front of what they refer to. -/
theorem orderingComplete_of_chains (h : ProperTypes protocolTypes)
    (hchains : ∀ d ∈ definitions protocolTypes, ¬ Broken protocolTypes d.1 →
      d.1 ≠ "entity_metadata" ∧ ∀ chain, (d.1 :: chain).IsChain (Refers protocolTypes) →
        RetryQueue.lateNeeds (queuedNames protocolTypes) (d.1 :: chain) ≤ 2) :
    OrderingComplete protocolTypes := by
  obtain ⟨hsound, hempty, hfinal⟩ := generateBaseTypes_final h
  have hkept := (RetryQueue.kept_final (needsOf protocolTypes) 3 (queuedNames protocolTypes)).2
  rw [← hfinal] at hkept
  have hwithin : ∀ d ∈ definitions protocolTypes, ¬ Broken protocolTypes d.1 →
      RetryQueue.Within (needsOf protocolTypes) (queuedNames protocolTypes) 3 d.1 := by
    intro d hd hbroken
    rw [RetryQueue.within_iff]
    refine ⟨dependable_of_not_broken hbroken fun b hb => ?_,
      fun chain hchain => Nat.lt_succ_of_le ((hchains d hd hbroken).2 chain hchain)⟩
    have hb' := not_broken_of_reached hbroken hb
    have hdefined : b ∈ (definitions protocolTypes).map Prod.fst := by
      by_contra hundefined
      exact hb' ⟨b, ReflTransGen.refl, Or.inl hundefined⟩
    obtain ⟨d', hd', rfl⟩ := List.mem_map.mp hdefined
    exact (hchains d' hd' hb').1
  refine ⟨⟨hempty, hsound.raised⟩, ?_, hkept.ordered, ?_⟩
  · intro d hd hbroken
    have hnodup := (hkept.perm.nodup_iff.mpr (queuedNames_nodup h))
    have hfinished : ((generateBaseTypes protocolTypes).generated.map Prod.fst).Nodup :=
      (List.nodup_append.mp (List.nodup_append.mp hnodup).1).2.1
    exact List.count_eq_one_of_mem hfinished ((generated_iff h d.1).1.mpr (hwithin d hd hbroken))
  · intro name hname
    obtain ⟨hqueued, hnot⟩ := (generated_iff h name).2.mp hname
    by_contra hbroken
    obtain ⟨d, hd, rfl⟩ := List.mem_map.mp (mem_queuedNames.mp hqueued).1
    exact hnot (hwithin d hd hbroken)

/-- The order of the base types is complete exactly if no definition that can be compiled is
passed over, and no chain of references has three that stand in front of what they refer to. -/
theorem ordering_complete_iff (h : ProperTypes protocolTypes) :
    OrderingComplete protocolTypes ↔
      ∀ d ∈ definitions protocolTypes, ¬ Broken protocolTypes d.1 →
        d.1 ≠ "entity_metadata" ∧ ∀ chain, (d.1 :: chain).IsChain (Refers protocolTypes) →
          RetryQueue.lateNeeds (queuedNames protocolTypes) (d.1 :: chain) ≤ 2 :=
  ⟨fun hcomplete _ hd hbroken => hcomplete.chains_short h hd hbroken,
    orderingComplete_of_chains h⟩

/-! ## Ranked types -/

theorem rank_lt_of_reached (rank : String → ℕ)
    (hrank : ∀ x, ∀ y ∈ needsOf protocolTypes x, rank y < rank x) {a b : String}
    (h : TransGen (Refers protocolTypes) a b) : rank b < rank a := by
  induction h with
  | single hab => exact hrank _ _ hab
  | tail _ hbc ih => exact (hrank _ _ hbc).trans ih

theorem not_broken_of_rank (rank : String → ℕ)
    (hrank : ∀ x, ∀ y ∈ needsOf protocolTypes x, rank y < rank x)
    (hdefined : ∀ x, ∀ y ∈ needsOf protocolTypes x,
      y ∈ (definitions protocolTypes).map Prod.fst)
    {d : String × TypeExpr} (hd : d ∈ definitions protocolTypes) : ¬ Broken protocolTypes d.1 := by
  rintro ⟨b, hb, hundefined | hcycle⟩
  · apply hundefined
    rcases ReflTransGen.cases_tail hb with rfl | ⟨c, -, hcb⟩
    · exact List.mem_map_of_mem hd
    · exact hdefined c b hcb
  · exact absurd (rank_lt_of_reached rank hrank hcycle) (lt_irrefl _)

end

def twoTypes : List (String × TypeExpr) :=
  [("varint", .named "native"), ("pair", .named "single"), ("single", .named "varint")]

theorem ordering_complete_two : OrderingComplete twoTypes := by
  have hdefinitions : definitions twoTypes =
      [("pair", .named "single"), ("single", .named "varint")] := by
    simp [twoTypes, definitions, TypeExpr.isNative]
  have hproper : ProperTypes twoTypes := by
    refine ⟨by decide, ?_, by simp [hdefinitions]⟩
    rw [hdefinitions]
    simp only [List.forall_mem_cons]
    exact ⟨by decide +kernel, by decide +kernel, by simp⟩
  have hrank : ∀ x, ∀ y ∈ needsOf twoTypes x,
      (if y = "pair" then 1 else 0) < if x = "pair" then 1 else 0 := by
    intro x y hy
    obtain ⟨typ, htyp, hr, hnative⟩ := mem_needsOf.mp hy
    simp only [hdefinitions, List.mem_cons, Prod.mk.injEq, List.not_mem_nil, or_false] at htyp
    rcases htyp with ⟨rfl, rfl⟩ | ⟨rfl, rfl⟩
    · rw [List.mem_singleton.mp hr]
      decide
    · rw [List.mem_singleton.mp hr] at hnative
      exact absurd hnative (by simp [natives])
  refine (ordering_complete_iff hproper).mpr fun d hd _ => ⟨?_, fun chain hchain => ?_⟩
  · simp only [hdefinitions, List.mem_cons, List.not_mem_nil, or_false] at hd
    rcases hd with rfl | rfl <;> decide
  · exact (RetryQueue.lateNeeds_le_rank _ hrank _ hchain).trans (by split <;> omega)

def reversedTypes : List (String × TypeExpr) :=
  [("t1", .named "t2"), ("t2", .named "t3"), ("t3", .named "t4"), ("t4", .named "varint")]

theorem ordering_incomplete_reversed : ¬ OrderingComplete reversedTypes := by
  have hdefinitions : definitions reversedTypes =
      [("t1", .named "t2"), ("t2", .named "t3"), ("t3", .named "t4"), ("t4", .named "varint")] := by
    simp [reversedTypes, definitions, TypeExpr.isNative]
  have hproper : ProperTypes reversedTypes := by
    refine ⟨by decide, ?_, by simp [hdefinitions]⟩
    rw [hdefinitions]
    simp only [List.forall_mem_cons]
    exact ⟨by decide +kernel, by decide +kernel, by decide +kernel, by decide +kernel, by simp⟩
  have hneeds : ∀ x, ∀ y ∈ needsOf reversedTypes x,
      (x, y) ∈ [("t1", "t2"), ("t2", "t3"), ("t3", "t4")] := by
    intro x y hy
    obtain ⟨typ, htyp, hr, hnative⟩ := mem_needsOf.mp hy
    simp only [hdefinitions, List.mem_cons, Prod.mk.injEq, List.not_mem_nil, or_false] at htyp
    rcases htyp with ⟨rfl, rfl⟩ | ⟨rfl, rfl⟩ | ⟨rfl, rfl⟩ | ⟨rfl, rfl⟩
    · rw [List.mem_singleton.mp hr]
      decide
    · rw [List.mem_singleton.mp hr]
      decide
    · rw [List.mem_singleton.mp hr]
      decide
    · rw [List.mem_singleton.mp hr] at hnative
      exact absurd hnative (by simp [natives])
  have hfirst : ("t1", .named "t2") ∈ definitions reversedTypes := by
    simp [hdefinitions]
  have hbroken : ¬ Broken reversedTypes "t1" := by
    refine not_broken_of_rank (fun x => 4 - ["t1", "t2", "t3", "t4"].idxOf x) ?_ ?_ hfirst
    · intro x y hy
      have hxy := hneeds x y hy
      simp only [List.mem_cons, Prod.mk.injEq, List.not_mem_nil, or_false] at hxy
      rcases hxy with ⟨rfl, rfl⟩ | ⟨rfl, rfl⟩ | ⟨rfl, rfl⟩ <;> decide
    · intro x y hy
      have hxy := hneeds x y hy
      simp only [List.mem_cons, Prod.mk.injEq, List.not_mem_nil, or_false] at hxy
      rcases hxy with ⟨rfl, rfl⟩ | ⟨rfl, rfl⟩ | ⟨rfl, rfl⟩ <;> simp [hdefinitions]
  intro h
  have hshort := h.chains_short hproper hfirst hbroken
  exact absurd (hshort.2 ["t2", "t3", "t4"] (by decide +kernel)) (by decide +kernel)

end CmcServer.ProtoDef
