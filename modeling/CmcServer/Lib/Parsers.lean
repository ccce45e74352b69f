import Mathlib.Data.List.Basic
import Mathlib.Tactic.Common

/-! # Parsers

Parsers that take elements from the front of a list and work on a state meanwhile. -/

namespace Parsers

/-- What a parser makes of a list. Nothing is said about lists on which it is `undefined`. -/
inductive Parse (α σ : Type*) where
  | parsed (s : σ) (rest : List α)
  | malformed
  | undefined

abbrev Parser (α σ : Type*) := σ → List α → Parse α σ

variable {α σ : Type*}

/-- Go on with a parser on what is left. -/
def Parse.bind : Parse α σ → Parser α σ → Parse α σ
  | .parsed s rest, q => q s rest
  | .malformed, _ => .malformed
  | .undefined, _ => .undefined

theorem Parse.bind_parsed {r : Parse α σ} {q : Parser α σ} {s' : σ} {rest' : List α}
    (h : r.bind q = .parsed s' rest') :
    ∃ s rest, r = .parsed s rest ∧ q s rest = .parsed s' rest' := by
  cases r with
  | parsed s rest => exact ⟨s, rest, rfl, h⟩
  | malformed => cases h
  | undefined => cases h

def skip : Parser α σ := .parsed

def fail : Parser α σ := fun _ _ => .malformed

def unknown : Parser α σ := fun _ _ => .undefined

def seq (p q : Parser α σ) : Parser α σ := fun s xs => (p s xs).bind q

/-- A change of the state that takes nothing. -/
def modify (f : σ → σ) : Parser α σ := fun s xs => .parsed (f s) xs

/-- A parser that the state chooses. -/
def choose (p : σ → Parser α σ) : Parser α σ := fun s xs => p s s xs

/-- The first `n` elements. -/
def take (n : ℕ) (f : List α → σ → σ) : Parser α σ := fun s xs =>
  if n ≤ xs.length then .parsed (f (xs.take n) s) (xs.drop n) else .malformed

/-- The parsers from `p i` on, `n` of them. -/
def rounds (p : ℕ → Parser α σ) : (n i : ℕ) → Parser α σ
  | 0, _ => skip
  | n + 1, i => seq (p i) (rounds p n (i + 1))

/-- Rounds that take more than there is. -/
theorem rounds_take_short {n : ℕ} {f : ℕ → List α → σ → σ} {k i : ℕ} {s : σ} {xs : List α}
    (h : xs.length < k * n) : rounds (fun j => take n (f j)) k i s xs = .malformed := by
  induction k generalizing i s xs with
  | zero =>
      rw [Nat.zero_mul] at h
      exact absurd h (Nat.not_lt_zero _)
  | succ k ih =>
      rw [Nat.succ_mul] at h
      rw [rounds, seq, take]
      split
      · refine ih ?_
        rw [List.length_drop]
        omega
      · rfl

/-! ## What a parser depends on -/

/-- What a parser takes decides alone what it makes of it. -/
def Local (p : Parser α σ) : Prop :=
  ∀ s xs s' rest, p s xs = .parsed s' rest →
    ∃ front, xs = front ++ rest ∧ ∀ more, p s (front ++ more) = .parsed s' more

section

variable {p q : Parser α σ}

theorem local_modify (f : σ → σ) : Local (modify f : Parser α σ) := by
  intro s xs s' rest h
  cases h
  exact ⟨[], rfl, fun _ => rfl⟩

theorem local_skip : Local (skip : Parser α σ) := local_modify id

theorem local_fail : Local (fail : Parser α σ) := by
  intro s xs s' rest h
  cases h

theorem local_unknown : Local (unknown : Parser α σ) := by
  intro s xs s' rest h
  cases h

theorem local_take (n : ℕ) (f : List α → σ → σ) : Local (take n f) := by
  intro s xs s' rest h
  rw [take] at h
  split at h
  · rename_i hle
    cases h
    refine ⟨xs.take n, (List.take_append_drop n xs).symm, fun more => ?_⟩
    have hlen : (xs.take n).length = n := by
      rw [List.length_take]
      omega
    have hbefore := Nat.le_of_eq hlen
    have hbehind := Nat.le_of_eq hlen.symm
    rw [take, if_pos (by rw [List.length_append]; omega), List.take_append_of_le_length hbehind,
      List.drop_append_of_le_length hbehind, List.take_of_length_le hbefore,
      List.drop_of_length_le hbefore, List.nil_append]
  · cases h

theorem Local.seq (hp : Local p) (hq : Local q) : Local (seq p q) := by
  intro s xs s' rest h
  rcases Parse.bind_parsed h with ⟨s₁, rest₁, h₁, h₂⟩
  rcases hp s xs s₁ rest₁ h₁ with ⟨front, rfl, hfront⟩
  rcases hq s₁ rest₁ s' rest h₂ with ⟨back, rfl, hback⟩
  refine ⟨front ++ back, (List.append_assoc _ _ _).symm, fun more => ?_⟩
  rw [Parsers.seq, List.append_assoc, hfront, Parse.bind, hback]

theorem Local.choose {p : σ → Parser α σ} (h : ∀ s, Local (p s)) : Local (choose p) :=
  fun s => h s s

theorem Local.ite {c : Prop} [Decidable c] (hp : Local p) (hq : Local q) :
    Local (if c then p else q) := by
  split
  · exact hp
  · exact hq

theorem Local.rounds {p : ℕ → Parser α σ} (h : ∀ i, Local (p i)) (n i : ℕ) :
    Local (rounds p n i) := by
  induction n generalizing i with
  | zero => exact local_skip
  | succ n ih => exact (h i).seq (ih (i + 1))

/-- What is left is the end of the list. -/
theorem Local.length_le (h : Local p) {s s' : σ} {xs rest : List α}
    (hp : p s xs = .parsed s' rest) : rest.length ≤ xs.length := by
  rcases h s xs s' rest hp with ⟨front, rfl, -⟩
  rw [List.length_append]
  exact Nat.le_add_left _ _

end

/-! ## Parsers that leave more undefined -/

/-- `q` does what `p` does where it is defined. -/
def Abstracts (q p : Parser α σ) : Prop := ∀ s xs, q s xs = .undefined ∨ q s xs = p s xs

section

variable {p p' q q' : Parser α σ}

theorem abstracts_refl (p : Parser α σ) : Abstracts p p := fun _ _ => Or.inr rfl

theorem abstracts_unknown (p : Parser α σ) : Abstracts unknown p := fun _ _ => Or.inl rfl

theorem Abstracts.seq (hp : Abstracts p p') (hq : Abstracts q q') :
    Abstracts (seq p q) (seq p' q') := by
  intro s xs
  rw [Parsers.seq, Parsers.seq]
  rcases hp s xs with hundefined | hsame
  · exact Or.inl (by rw [hundefined, Parse.bind])
  · rw [hsame]
    cases p' s xs with
    | parsed s' rest => exact hq s' rest
    | malformed => exact Or.inr rfl
    | undefined => exact Or.inl rfl

theorem Abstracts.choose {p p' : σ → Parser α σ} (h : ∀ s, Abstracts (p s) (p' s)) :
    Abstracts (choose p) (choose p') := fun s => h s s

theorem Abstracts.ite {c : Prop} [Decidable c] (hp : Abstracts p p') (hq : Abstracts q q') :
    Abstracts (if c then p else q) (if c then p' else q') := by
  split
  · exact hp
  · exact hq

theorem Abstracts.rounds {p p' : ℕ → Parser α σ} (h : ∀ i, Abstracts (p i) (p' i)) (n i : ℕ) :
    Abstracts (rounds p n i) (rounds p' n i) := by
  induction n generalizing i with
  | zero => exact abstracts_refl _
  | succ n ih => exact (h i).seq (ih (i + 1))

end

/-! ## What a parser does to the state -/

/-- Around a successful run of the parser the states are related. -/
def Relates (r : σ → σ → Prop) (p : Parser α σ) : Prop :=
  ∀ s xs s' rest, p s xs = .parsed s' rest → r s s'

section

variable {r : σ → σ → Prop} {p q : Parser α σ}

theorem relates_modify {f : σ → σ} (h : ∀ s, r s (f s)) : Relates r (modify f : Parser α σ) := by
  intro s xs s' rest hp
  cases hp
  exact h s

theorem relates_skip (hrefl : ∀ s, r s s) : Relates r (skip : Parser α σ) := relates_modify hrefl

theorem relates_fail : Relates r (fail : Parser α σ) := by
  intro s xs s' rest h
  cases h

theorem relates_unknown : Relates r (unknown : Parser α σ) := by
  intro s xs s' rest h
  cases h

theorem relates_take {n : ℕ} {f : List α → σ → σ} (h : ∀ xs s, r s (f xs s)) :
    Relates r (take n f) := by
  intro s xs s' rest hp
  rw [take] at hp
  split at hp
  · cases hp
    exact h _ _
  · cases hp

theorem Relates.seq (htrans : ∀ {a b c}, r a b → r b c → r a c) (hp : Relates r p)
    (hq : Relates r q) : Relates r (seq p q) := by
  intro s xs s' rest h
  rcases Parse.bind_parsed h with ⟨s₁, rest₁, h₁, h₂⟩
  exact htrans (hp _ _ _ _ h₁) (hq _ _ _ _ h₂)

theorem Relates.choose {p : σ → Parser α σ} (h : ∀ s, Relates r (p s)) : Relates r (choose p) :=
  fun s => h s s

theorem Relates.ite {c : Prop} [Decidable c] (hp : Relates r p) (hq : Relates r q) :
    Relates r (if c then p else q) := by
  split
  · exact hp
  · exact hq

theorem Relates.mono {r' : σ → σ → Prop} (h : Relates r p) (hr : ∀ a b, r a b → r' a b) :
    Relates r' p :=
  fun s xs s' rest hp => hr s s' (h s xs s' rest hp)

theorem Relates.rounds (hrefl : ∀ s, r s s) (htrans : ∀ {a b c}, r a b → r b c → r a c)
    {p : ℕ → Parser α σ} (h : ∀ i, Relates r (p i)) (n i : ℕ) : Relates r (rounds p n i) := by
  induction n generalizing i with
  | zero => exact relates_skip hrefl
  | succ n ih => exact (h i).seq htrans (ih (i + 1))

end

/-! ## Parsers on related states -/

/-- Two results that left the same, with related states. -/
inductive Parse.Rel (r : σ → σ → Prop) : Parse α σ → Parse α σ → Prop where
  | parsed {s s' rest} : r s s' → Parse.Rel r (.parsed s rest) (.parsed s' rest)
  | malformed : Parse.Rel r .malformed .malformed
  | undefined : Parse.Rel r .undefined .undefined

/-- From related states the parsers take the same and lead to related states. -/
def Corresponds (r : σ → σ → Prop) (p q : Parser α σ) : Prop :=
  ∀ s s' xs, r s s' → Parse.Rel r (p s xs) (q s' xs)

section

variable {r : σ → σ → Prop} {p q p' q' : Parser α σ}

theorem corresponds_modify {f g : σ → σ} (h : ∀ s s', r s s' → r (f s) (g s')) :
    Corresponds r (modify f : Parser α σ) (modify g) :=
  fun s s' _ hs => .parsed (h s s' hs)

theorem corresponds_skip : Corresponds r (skip : Parser α σ) skip :=
  fun _ _ _ hs => .parsed hs

theorem corresponds_unknown : Corresponds r (unknown : Parser α σ) unknown :=
  fun _ _ _ _ => .undefined

theorem corresponds_take {n : ℕ} {f g : List α → σ → σ}
    (h : ∀ xs s s', r s s' → r (f xs s) (g xs s')) : Corresponds r (take n f) (take n g) := by
  intro s s' xs hs
  rw [take, take]
  split
  · exact .parsed (h _ s s' hs)
  · exact .malformed

theorem Corresponds.seq (hp : Corresponds r p p') (hq : Corresponds r q q') :
    Corresponds r (seq p q) (seq p' q') := by
  intro s s' xs hs
  rw [Parsers.seq, Parsers.seq]
  have hfirst := hp s s' xs hs
  generalize p s xs = a at hfirst
  generalize p' s' xs = b at hfirst
  cases hfirst with
  | parsed hs' => exact hq _ _ _ hs'
  | malformed => exact .malformed
  | undefined => exact .undefined

theorem Corresponds.choose {p q : σ → Parser α σ}
    (h : ∀ s s', r s s' → Corresponds r (p s) (q s')) : Corresponds r (choose p) (choose q) :=
  fun s s' xs hs => h s s' hs s s' xs hs

theorem Corresponds.rounds {p q : ℕ → Parser α σ} (h : ∀ i, Corresponds r (p i) (q i))
    (n i : ℕ) : Corresponds r (rounds p n i) (rounds q n i) := by
  induction n generalizing i with
  | zero => exact corresponds_skip
  | succ n ih => exact (h i).seq (ih (i + 1))

end

end Parsers
