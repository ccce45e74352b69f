import Mathlib.Data.List.Count
import Mathlib.Data.List.Nodup
import Mathlib.Data.List.Perm.Basic
import Mathlib.Tactic.Common

/-! # Conserved items

Items are numbered as they are made and move between places. The places are one list, in which an
item stands as often as it is somewhere. -/

namespace Conservation

/-- Every item made so far that satisfies `p` is in exactly one place, and only items that were
made are anywhere. -/
structure Conserved (p : ℕ → Prop) (made : ℕ) (places : List ℕ) : Prop where
  once : ∀ a < made, p a → places.count a = 1
  lt : ∀ a ∈ places, a < made

variable {p q : ℕ → Prop} {made : ℕ} {places places' : List ℕ} {a : ℕ}

theorem conserved_nil : Conserved p 0 [] where
  once := fun _ ha => absurd ha (Nat.not_lt_zero _)
  lt := fun _ ha => absurd ha List.not_mem_nil

namespace Conserved

/-- Moving items around conserves them. -/
theorem perm (h : Conserved p made places) (hperm : places.Perm places') :
    Conserved p made places' where
  once := by
    intro a ha hp
    rw [← hperm.count_eq]
    exact h.once a ha hp
  lt := fun a ha => h.lt a (hperm.mem_iff.mpr ha)

theorem count_made (h : Conserved p made places) : places.count made = 0 := by
  apply List.count_eq_zero_of_not_mem
  intro hmem
  exact Nat.lt_irrefl _ (h.lt _ hmem)

/-- A new item is put in a place. -/
theorem make (h : Conserved p made places) (hsame : ∀ a < made, (q a ↔ p a)) :
    Conserved q (made + 1) (made :: places) where
  once := by
    intro a ha hq
    rcases Nat.lt_succ_iff_lt_or_eq.mp ha with hlt | rfl
    · rw [List.count_cons_of_ne (Nat.ne_of_gt hlt)]
      exact h.once a hlt ((hsame a hlt).mp hq)
    · rw [List.count_cons_self, h.count_made]
  lt := by
    intro a ha
    rcases List.mem_cons.mp ha with rfl | ha
    · exact Nat.lt_succ_self _
    · exact Nat.lt_succ_of_lt (h.lt a ha)

/-- A new item that does not count may be anywhere. -/
theorem make_other (h : Conserved p made places) (hsame : ∀ a < made, (q a ↔ p a))
    (hmade : ¬ q made) : Conserved q (made + 1) places where
  once := by
    intro a ha hq
    rcases Nat.lt_succ_iff_lt_or_eq.mp ha with hlt | rfl
    · exact h.once a hlt ((hsame a hlt).mp hq)
    · exact absurd hq hmade
  lt := fun a ha => Nat.lt_succ_of_lt (h.lt a ha)

/-- An item that does not count appears. -/
theorem cons_other (h : Conserved p made places) (hlt : a < made) (ha : ¬ p a) :
    Conserved p made (a :: places) where
  once := by
    intro b hb hp
    have hne : a ≠ b := by
      rintro rfl
      exact ha hp
    rw [List.count_cons_of_ne hne]
    exact h.once b hb hp
  lt := by
    intro b hb
    rcases List.mem_cons.mp hb with rfl | hb
    · exact hlt
    · exact h.lt b hb

/-- Where every item counts, no item is in two places. -/
theorem nodup (h : Conserved p made places) (hall : ∀ a ∈ places, p a) : places.Nodup := by
  rw [List.nodup_iff_count_le_one]
  intro a
  by_cases ha : a ∈ places
  · exact Nat.le_of_eq (h.once a (h.lt a ha) (hall a ha))
  · rw [List.count_eq_zero_of_not_mem ha]
    exact Nat.zero_le 1

end Conserved

/-! ## Exclusive items -/

/-- No item is in two places, and only items that were made are anywhere. Items may be lost. -/
structure Exclusive (made : ℕ) (places : List ℕ) : Prop where
  nodup : places.Nodup
  lt : ∀ a ∈ places, a < made

theorem exclusive_nil : Exclusive 0 [] := ⟨List.nodup_nil, fun _ ha => absurd ha List.not_mem_nil⟩

namespace Exclusive

theorem perm (h : Exclusive made places) (hperm : places.Perm places') :
    Exclusive made places' :=
  ⟨hperm.nodup_iff.mp h.nodup, fun a ha => h.lt a (hperm.mem_iff.mpr ha)⟩

/-- Items are lost. -/
theorem sublist (h : Exclusive made places) (hsub : places'.Sublist places) :
    Exclusive made places' :=
  ⟨h.nodup.sublist hsub, fun a ha => h.lt a (hsub.subset ha)⟩

/-- A new item is put in a place. -/
theorem make (h : Exclusive made places) : Exclusive (made + 1) (made :: places) where
  nodup := List.nodup_cons.mpr ⟨fun hmem => Nat.lt_irrefl _ (h.lt made hmem), h.nodup⟩
  lt := by
    intro a ha
    rcases List.mem_cons.mp ha with rfl | ha
    · exact Nat.lt_succ_self _
    · exact Nat.lt_succ_of_lt (h.lt a ha)

/-- A new item is nowhere. -/
theorem make_lost (h : Exclusive made places) : Exclusive (made + 1) places :=
  h.make.sublist (List.sublist_cons_self _ _)

end Exclusive

/-! ## Places of their own -/

/-- Every item made so far is in exactly one of the places, once, and nothing else is anywhere. -/
structure Stored {π : Type*} (made : ℕ) (contents : π → List ℕ) : Prop where
  nodup : ∀ p, (contents p).Nodup
  unique : ∀ p q, ∀ a ∈ contents p, a ∈ contents q → p = q
  made_iff : ∀ a, a < made ↔ ∃ p, a ∈ contents p

namespace Stored

variable {π : Type*} {contents contents' : π → List ℕ} {p q : π}

theorem empty : Stored 0 fun _ : π => [] where
  nodup := fun _ => List.nodup_nil
  unique := fun _ _ _ ha => absurd ha List.not_mem_nil
  made_iff := by simp

/-- An item is moved to another place. -/
theorem move (h : Stored made contents) (hpq : p ≠ q) (hp : (contents p).Perm (a :: contents' p))
    (hq : (contents' q).Perm (a :: contents q))
    (hothers : ∀ r, r ≠ p → r ≠ q → contents' r = contents r) : Stored made contents' := by
  have hfrom := List.nodup_cons.mp (hp.nodup_iff.mp (h.nodup p))
  have haq : a ∉ contents q := fun haq => hpq (h.unique p q a (hp.mem_iff.mpr (by simp)) haq)
  have hmem : ∀ r b, b ∈ contents' r ↔ (b ≠ a ∧ b ∈ contents r) ∨ (b = a ∧ r = q) := by
    intro r b
    by_cases hrq : r = q
    · subst hrq
      rw [hq.mem_iff]
      grind
    · by_cases hrp : r = p
      · subst hrp
        rw [hp.mem_iff]
        grind
      · rw [hothers r hrp hrq]
        have har : a ∉ contents r := fun har => hrp (h.unique r p a har (hp.mem_iff.mpr (by simp)))
        grind
  refine ⟨fun r => ?_, fun r r' b hb hb' => ?_, fun b => ?_⟩
  · by_cases hrq : r = q
    · subst hrq
      exact hq.nodup_iff.mpr (List.nodup_cons.mpr ⟨haq, h.nodup r⟩)
    · by_cases hrp : r = p
      · exact hrp ▸ hfrom.2
      · exact hothers r hrp hrq ▸ h.nodup r
  · rw [hmem] at hb hb'
    rcases hb with ⟨hne, hb⟩ | ⟨rfl, rfl⟩
    · rcases hb' with ⟨-, hb'⟩ | ⟨rfl, -⟩
      · exact h.unique r r' b hb hb'
      · exact absurd rfl hne
    · rcases hb' with ⟨hne, -⟩ | ⟨-, rfl⟩
      · exact absurd rfl hne
      · rfl
  · rw [h.made_iff]
    simp only [hmem]
    constructor
    · rintro ⟨r, hr⟩
      by_cases hba : b = a
      · exact ⟨q, .inr ⟨hba, rfl⟩⟩
      · exact ⟨r, .inl ⟨hba, hr⟩⟩
    · rintro ⟨r, ⟨-, hr⟩ | ⟨rfl, -⟩⟩
      · exact ⟨r, hr⟩
      · exact ⟨p, hp.mem_iff.mpr (by simp)⟩

/-- A new item is put in a place. -/
theorem make (h : Stored made contents) (hp : (contents' p).Perm (made :: contents p))
    (hothers : ∀ r, r ≠ p → contents' r = contents r) : Stored (made + 1) contents' := by
  have hnew : ∀ r, made ∉ contents r := fun r hr => Nat.lt_irrefl _ ((h.made_iff made).mpr ⟨r, hr⟩)
  have hmem : ∀ r b, b ∈ contents' r ↔ b ∈ contents r ∨ (b = made ∧ r = p) := by
    intro r b
    by_cases hrp : r = p
    · subst hrp
      rw [hp.mem_iff]
      grind
    · rw [hothers r hrp]
      grind
  refine ⟨fun r => ?_, fun r r' b hb hb' => ?_, fun b => ?_⟩
  · by_cases hrp : r = p
    · subst hrp
      exact hp.nodup_iff.mpr (List.nodup_cons.mpr ⟨hnew r, h.nodup r⟩)
    · exact hothers r hrp ▸ h.nodup r
  · rw [hmem] at hb hb'
    rcases hb with hb | ⟨rfl, rfl⟩
    · rcases hb' with hb' | ⟨rfl, -⟩
      · exact h.unique r r' b hb hb'
      · exact absurd hb (hnew r)
    · rcases hb' with hb' | ⟨-, rfl⟩
      · exact absurd hb' (hnew r')
      · rfl
  · rw [Nat.lt_succ_iff_lt_or_eq, h.made_iff]
    simp only [hmem]
    constructor
    · rintro (⟨r, hr⟩ | rfl)
      · exact ⟨r, .inl hr⟩
      · exact ⟨p, .inr ⟨rfl, rfl⟩⟩
    · rintro ⟨r, hr | ⟨rfl, -⟩⟩
      · exact .inl ⟨r, hr⟩
      · exact .inr rfl

end Stored

end Conservation
