import Mathlib.Data.List.Basic
import Mathlib.Data.List.Nodup
import Mathlib.Logic.Function.Basic
import Mathlib.Tactic.Common

/-! # Doubly linked rings

The links of a ring are two functions, from a node to the next one and to the previous one. -/

namespace Ring

variable {α : Type*}

/-- The links lead from `a` over the nodes of a list to `b`, and back. -/
def Path (next prev : α → α) : α → List α → α → Prop
  | a, [], b => next a = b ∧ prev b = a
  | a, x :: xs, b => (next a = x ∧ prev x = a) ∧ Path next prev x xs b

/-- The nodes of a list follow `head`, each once. -/
structure Cycle (next prev : α → α) (head : α) (nodes : List α) : Prop where
  nodup : (head :: nodes).Nodup
  path : Path next prev head nodes head

variable {next prev next' prev' : α → α} {a b x : α} {xs ys : List α}

theorem path_append : Path next prev a (xs ++ x :: ys) b ↔
    Path next prev a xs x ∧ Path next prev x ys b := by
  induction xs generalizing a with
  | nil => simp [Path]
  | cons y xs ih => simp [Path, ih, and_assoc]

/-- A path looks at the next node of all but the last node, and at the previous one of all but
the first. -/
theorem Path.congr (h : Path next prev a xs b) (hnext : ∀ y ∈ a :: xs, next' y = next y)
    (hprev : ∀ y ∈ xs ++ [b], prev' y = prev y) : Path next' prev' a xs b := by
  induction xs generalizing a with
  | nil =>
      rcases h with ⟨hn, hp⟩
      exact ⟨(hnext a (by simp)).trans hn, (hprev b (by simp)).trans hp⟩
  | cons x xs ih =>
      rcases h with ⟨⟨hn, hp⟩, hpath⟩
      refine ⟨⟨(hnext a (by simp)).trans hn, (hprev x (by simp)).trans hp⟩, ih hpath ?_ ?_⟩
      · exact fun y hy => hnext y (List.mem_cons_of_mem a hy)
      · exact fun y hy => hprev y (List.mem_cons_of_mem x hy)

theorem Path.prev_mem (h : Path next prev a xs b) : prev b ∈ a :: xs := by
  induction xs generalizing a with
  | nil => simp [h.2]
  | cons x xs ih => exact List.mem_cons_of_mem a (ih h.2)

theorem Path.reverse (h : Path next prev a xs b) : Path prev next b xs.reverse a := by
  induction xs generalizing a with
  | nil => exact ⟨h.2, h.1⟩
  | cons x xs ih =>
      rw [List.reverse_cons]
      exact path_append.mpr ⟨ih h.2, h.1.2, h.1.1⟩

/-! ## Walks -/

variable [DecidableEq α]

/-- The nodes from a node on, up to `stop`, if that is reached in a number of steps. -/
def walk (f : α → α) (stop : α) : ℕ → α → Option (List α)
  | 0, _ => none
  | n + 1, y => if y = stop then some [] else (walk f stop n (f y)).map (y :: ·)

theorem Path.walk (h : Path next prev a xs b) (hb : b ∉ xs) :
    walk next b (xs.length + 1) (next a) = some xs := by
  induction xs generalizing a with
  | nil => simp [Ring.walk, h.1]
  | cons x xs ih =>
      have hx : x ≠ b := fun hxb => hb (by simp [hxb])
      have hrest := ih h.2 fun hmem => hb (List.mem_cons_of_mem x hmem)
      rw [h.1.1, List.length_cons, Ring.walk, if_neg hx, hrest]
      rfl

/-- The nodes of a ring are met in order, and in the reverse order the other way round. -/
theorem Cycle.walks {head : α} {nodes : List α} (h : Cycle next prev head nodes) :
    Ring.walk next head (nodes.length + 1) (next head) = some nodes ∧
      Ring.walk prev head (nodes.length + 1) (prev head) = some nodes.reverse := by
  have hhead : head ∉ nodes := (List.nodup_cons.mp h.nodup).1
  have hback := h.path.reverse.walk (by simpa using hhead)
  rw [List.length_reverse] at hback
  exact ⟨h.path.walk hhead, hback⟩

/-! ## Taking a node out -/

/-- A path can end in another node, which is put behind the previous one of its end. -/
theorem Path.redirect {y : α} (h : Path next prev a xs x) (hnodup : (a :: xs).Nodup)
    (hy : y ∉ xs) :
    Path (Function.update next (prev x) y) (Function.update prev y (prev x)) a xs y := by
  induction xs generalizing a with
  | nil => simp [Path, h.2]
  | cons z xs ih =>
      rcases h with ⟨⟨hn, hp⟩, hpath⟩
      have ha : a ≠ prev x := by
        rintro rfl
        exact (List.nodup_cons.mp hnodup).1 hpath.prev_mem
      have hz : z ≠ y := fun hzy => hy (by simp [hzy])
      refine ⟨⟨?_, ?_⟩, ih hpath hnodup.of_cons fun hmem => hy (List.mem_cons_of_mem z hmem)⟩
      · rw [Function.update_of_ne ha, hn]
      · rw [Function.update_of_ne hz, hp]

/-- The nodes around a node that is taken out are linked to each other. -/
theorem Cycle.unlink {head : α} (h : Cycle next prev head (xs ++ x :: ys)) :
    Cycle (Function.update next (prev x) (next x)) (Function.update prev (next x) (prev x)) head
      (xs ++ ys) := by
  rcases path_append.mp h.path with ⟨hbefore, hafter⟩
  have hsub : (head :: (xs ++ ys)).Nodup :=
    h.nodup.sublist ((List.sublist_cons_self x ys).append_left xs |>.cons_cons head)
  have hfront : (head :: xs).Nodup := hsub.sublist ((List.sublist_append_left xs ys).cons_cons head)
  refine ⟨hsub, ?_⟩
  cases ys with
  | nil =>
      rw [hafter.1, List.append_nil]
      exact hbefore.redirect hfront (List.nodup_cons.mp hfront).1
  | cons y ys =>
      have happend : ((head :: xs) ++ (y :: ys)).Nodup := hsub
      have hdisjoint := List.disjoint_of_nodup_append happend
      have hy : y ∉ head :: xs := fun hmem => hdisjoint hmem (List.mem_cons_self ..)
      have hyys : y ∉ ys := (List.nodup_cons.mp happend.of_append_right).1
      rw [hafter.1.1]
      refine path_append.mpr ⟨?_, ?_⟩
      · exact hbefore.redirect hfront fun hmem => hy (List.mem_cons_of_mem head hmem)
      · apply hafter.2.congr
        · intro z hz
          apply Function.update_of_ne
          rintro rfl
          exact hdisjoint hbefore.prev_mem hz
        · intro z hz
          apply Function.update_of_ne
          rintro rfl
          rcases List.mem_append.mp hz with hmem | hmem
          · exact hyys hmem
          · rw [List.mem_singleton.mp hmem] at hy
            exact hy (List.mem_cons_self ..)

end Ring
