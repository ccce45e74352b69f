import CmcServer.Model.StbArray
import Mathlib.Data.List.GetD

/-! # Dynamic arrays as lists

Pushing and popping never touch memory behind the block of an array, and do to its elements what
they should. -/

namespace CmcServer.StbArray

open CriticalSection

variable {α : Type} {a : StbArray α}

def contents (a : StbArray α) : List α := a.items.take a.length

/-- The header describes the block. -/
structure Valid (a : StbArray α) : Prop where
  null : a.allocated = false → a.length = 0 ∧ a.capacity = 0
  length_le : a.length ≤ a.capacity
  block : a.items.length = a.capacity

theorem valid_null : (null α).Valid := ⟨fun _ => ⟨rfl, rfl⟩, Nat.le_refl 0, rfl⟩

theorem Valid.arrlen_eq (h : a.Valid) : a.arrlen = a.length := by
  rw [arrlen]
  split
  · rfl
  · rename_i hnull
    exact (h.null (Bool.eq_false_iff.mpr hnull)).1.symm

theorem Valid.arrcap_eq (h : a.Valid) : a.arrcap = a.capacity := by
  rw [arrcap]
  split
  · rfl
  · rename_i hnull
    exact (h.null (Bool.eq_false_iff.mpr hnull)).2.symm

theorem Valid.length_contents (h : a.Valid) : a.contents.length = a.length := by
  rw [contents, List.length_take, h.block]
  exact Nat.min_eq_left h.length_le

theorem le_grownCapacity (capacity minCap : ℕ) : minCap ≤ grownCapacity capacity minCap := by
  rw [grownCapacity]
  split
  · omega
  · split <;> omega

variable [Inhabited α]

/-- An array with room for one more element and the same elements. -/
structure Grown (a b : StbArray α) : Prop where
  valid : b.Valid
  allocated : b.allocated = true
  length : b.length = a.length
  room : a.length < b.capacity
  contents : b.contents = a.contents

theorem Valid.grow (h : a.Valid) (hfull : a.capacity < a.length + 1) :
    Grown a (a.arrgrowf 1 0) := by
  have hlength := h.length_le
  have hblock := h.block
  have hcap := le_grownCapacity a.capacity (a.length + 1)
  have hgrow : a.arrgrowf 1 0 =
      { allocated := true, length := a.length
        capacity := grownCapacity a.capacity (a.length + 1)
        items := a.items.rightpad (grownCapacity a.capacity (a.length + 1)) default } := by
    simp only [arrgrowf, h.arrlen_eq, h.arrcap_eq, gt_iff_lt, Nat.zero_lt_succ, if_true,
      Nat.not_le.mpr hfull, if_false]
  rw [hgrow]
  refine ⟨⟨by simp, ?_, ?_⟩, rfl, rfl, hcap, ?_⟩
  · exact Nat.le_of_succ_le hcap
  · simp only [List.rightpad, List.length_append, List.length_replicate]
    omega
  · exact List.take_append_of_le_length (by rw [hblock]; exact hlength)

/-- The array once there is room for another element. -/
def roomy (a : StbArray α) : StbArray α :=
  if a.allocated = false ∨ a.capacity < a.length + 1 then a.arrgrowf 1 0 else a

theorem Valid.roomy (h : a.Valid) : Grown a a.roomy := by
  rw [StbArray.roomy]
  split
  · rename_i hfull
    refine h.grow ?_
    rcases hfull with hnull | hfull
    · have := h.null hnull
      omega
    · exact hfull
  · rename_i hroom
    rw [not_or, Bool.not_eq_false] at hroom
    exact ⟨h, hroom.1, rfl, by omega, rfl⟩

theorem run_arrmaybegrow (a : StbArray α) : arrmaybegrow.run a = ((), a.roomy) := by
  have htest : (!a.allocated || decide (a.length + 1 > a.capacity)) = true ↔
      a.allocated = false ∨ a.capacity < a.length + 1 := by simp
  simp only [arrmaybegrow, StbArray.roomy, Prog.run_bind, Prog.run_load, Prog.run_ite, htest,
    Prog.run_store, Prog.run_pure]
  split <;> rfl

theorem run_arrput (a : StbArray α) (v : α) :
    (StbArray.arrput v).run a =
      ((), { a.roomy with
        length := a.roomy.length + 1, items := a.roomy.items.set a.roomy.length v }) := by
  simp only [StbArray.arrput, Prog.run_bind, run_arrmaybegrow, Prog.run_load, Prog.run_store]

theorem Valid.arrput (h : a.Valid) (v : α) :
    ((StbArray.arrput v).run a).2.Valid ∧
      ((StbArray.arrput v).run a).2.contents = a.contents ++ [v] := by
  have hgrown := h.roomy
  have hblock := hgrown.valid.block
  have hroom := hgrown.room
  have hlength := hgrown.length
  rw [run_arrput]
  refine ⟨⟨by simp [hgrown.allocated], by simp only; omega, by simpa using hblock⟩, ?_⟩
  rw [← hgrown.contents]
  simp only [StbArray.contents]
  have hlt : a.roomy.length < a.roomy.items.length := by omega
  rw [List.take_succ_eq_append_getElem (by rwa [List.length_set]),
    List.take_set_of_le (Nat.le_refl _), List.getElem_set_self]

theorem Valid.arrpop (h : a.Valid) (hne : a.length ≠ 0) :
    (StbArray.arrpop.run a).2.Valid ∧
      a.contents = (StbArray.arrpop.run a).2.contents ++ [(StbArray.arrpop.run a).1] := by
  have hlength := h.length_le
  have hblock := h.block
  have hlt : a.length - 1 < a.items.length := by omega
  simp only [StbArray.arrpop, Prog.run_bind, Prog.run_load, Prog.run_store]
  refine ⟨⟨?_, ?_, hblock⟩, ?_⟩
  · exact fun hnull => absurd (h.null hnull).1 hne
  · exact Nat.le_trans (Nat.sub_le _ _) hlength
  · rw [contents, contents, List.getD_eq_getElem _ _ hlt, ← List.take_succ_eq_append_getElem hlt,
      Nat.sub_add_cancel (Nat.pos_of_ne_zero hne)]

end CmcServer.StbArray
