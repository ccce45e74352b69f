import CmcServer.Model.LinkedList
import CmcServer.Lib.Ring
import CmcServer.Lib.Runs

/-! # What a list holds

`list_add_tail` puts a node behind the head, in place of whatever follows it. -/

namespace CmcServer.ListState

open Runs Nodes

/-- Following `next` from the head visits the members in order and returns to the head, following
`prev` visits them in reverse, and the list is empty when there are none. -/
structure Represents (head : ℕ) (s : ListState) : Prop where
  forward : Ring.walk (fun a => (s.mem a).next) head (s.members.length + 1) (s.mem head).next =
    some s.members
  backward : Ring.walk (fun a => (s.mem a).prev) head (s.members.length + 1) (s.mem head).prev =
    some s.members.reverse
  empty : s.mem.listEmpty head = true ↔ s.members = []

def IsRing (head : ℕ) (s : ListState) : Prop :=
  Ring.Cycle (fun a => (s.mem a).next) (fun a => (s.mem a).prev) head s.members

variable {head : ℕ} {s t : ListState}

theorem IsRing.represents (h : IsRing head s) : Represents head s where
  forward := h.walks.1
  backward := h.walks.2
  empty := by
    have hpath := h.path
    have hnodup := h.nodup
    rw [listEmpty, decide_eq_true_iff]
    cases hmembers : s.members with
    | nil =>
        rw [hmembers] at hpath
        simpa using hpath.1
    | cons x xs =>
        rw [hmembers] at hpath hnodup
        have hne : x ≠ head := by
          rintro rfl
          simp at hnodup
        simpa [hpath.1.1] using hne

/-! ## Operations -/

theorem listAddTail_links (mem : Nodes) {node : ℕ} (hne : node ≠ head) :
    (mem.listAddTail head node head).next = node ∧ (mem.listAddTail head node head).prev = node ∧
      (mem.listAddTail head node node).next = head ∧
        (mem.listAddTail head node node).prev = head := by
  simp [listAddTail, hne, hne.symm]

/-- In an empty list that is right. -/
theorem isRing_add {node : ℕ} (hempty : s.members = [])
    (h : step head s (.add node) = some t) : IsRing head t := by
  rw [step, hempty] at h
  by_cases hmem : node ∈ [head]
  · rw [if_pos hmem] at h
    cases h
  · rw [if_neg hmem] at h
    cases h
    have hne : node ≠ head := by simpa using hmem
    rcases listAddTail_links s.mem hne with ⟨hnext, hprev, hnext', hprev'⟩
    exact ⟨by simpa using hne.symm, ⟨hnext, hprev'⟩, hnext', hprev⟩

/-- In any other list it is not: the nodes behind the head are lost. -/
theorem represents_add {node : ℕ} (h : step head s (.add node) = some t)
    (ht : Represents head t) : s.members = [] := by
  rw [step] at h
  by_cases hmem : node ∈ head :: s.members
  · rw [if_pos hmem] at h
    cases h
  · rw [if_neg hmem] at h
    cases h
    have hne : node ≠ head := fun hhead => hmem (by simp [hhead])
    rcases listAddTail_links s.mem hne with ⟨hnext, -, hnext', -⟩
    have hforward := ht.forward
    have hlength : (s.members ++ [node]).length = s.members.length + 1 := by simp
    simp only [hlength, Ring.walk, hnext, hnext', if_neg hne] at hforward
    have hnil : s.members ++ [node] = [node] := by
      simpa using hforward.symm
    simpa using hnil

/-- `list_del` links the nodes around the one it deletes, whose own links become poison. -/
theorem listDel_links (mem : Nodes) {node a : ℕ} (ha : a ≠ node) :
    (mem.listDel node a).next =
        Function.update (fun b => (mem b).next) (mem node).prev (mem node).next a ∧
      (mem.listDel node a).prev =
        Function.update (fun b => (mem b).prev) (mem node).next (mem node).prev a := by
  simp [listDel, ha, Function.update_apply]

theorem isRing_del {node : ℕ} (hring : IsRing head s) (h : step head s (.del node) = some t) :
    IsRing head t := by
  rw [step] at h
  by_cases hmem : node ∈ s.members
  · rw [if_pos hmem] at h
    cases h
    obtain ⟨xs, ys, hmembers⟩ := List.append_of_mem hmem
    rw [IsRing, hmembers] at hring
    have hnode : node ∉ head :: (xs ++ ys) := by
      have hperm : (head :: (xs ++ node :: ys)).Perm (node :: head :: (xs ++ ys)) :=
        (List.perm_middle.cons head).trans (List.Perm.swap node head _)
      exact (List.nodup_cons.mp (hperm.nodup_iff.mp hring.nodup)).1
    have herase : s.members.erase node = xs ++ ys := by
      have hxs : node ∉ xs := fun hx => hnode (by simp [hx])
      rw [hmembers, List.erase_append_right _ hxs, List.erase_cons_head]
    have hunlink := hring.unlink
    rw [IsRing, herase]
    refine ⟨hunlink.nodup, hunlink.path.congr ?_ ?_⟩
    · intro a ha
      exact (listDel_links s.mem (ne_of_mem_of_not_mem ha hnode)).1
    · intro a ha
      have ha' : a ∈ head :: (xs ++ ys) := by
        simpa [or_comm, or_left_comm] using ha
      exact (listDel_links s.mem (ne_of_mem_of_not_mem ha' hnode)).2
  · rw [if_neg hmem] at h
    cases h

/-! ## Sequences of operations -/

def AddsToEmpty (x : Transition ListState ListEvent) : Prop :=
  match x.event with
  | .add _ => x.pre.members = []
  | .del _ => True

instance (x : Transition ListState ListEvent) : Decidable (AddsToEmpty x) := by
  unfold AddsToEmpty
  split <;> infer_instance

theorem isRing_initial {mem : Nodes} (hinit : mem head = initList head) :
    IsRing head { mem, members := [] } := by
  refine ⟨by simp, ?_, ?_⟩
  · simp [hinit, initList]
  · simp [hinit, initList]

theorem isRing_step {e : ListEvent} (hring : IsRing head s) (h : step head s e = some t)
    (hadds : AddsToEmpty ⟨s, e, t⟩) : IsRing head t := by
  cases e with
  | add node => exact isRing_add hadds h
  | del node => exact isRing_del hring h

theorem represents_iff {e : ListEvent} (hring : IsRing head s) (h : step head s e = some t) :
    Represents head t ↔ AddsToEmpty ⟨s, e, t⟩ := by
  constructor
  · intro ht
    cases e with
    | add node => exact represents_add h ht
    | del node => trivial
  · intro hadds
    exact (isRing_step hring h hadds).represents

/-- A list holds its members after every operation exactly when nodes are only added to an empty
list. -/
theorem list_represents_iff {mem : Nodes} {trace : List (Transition ListState ListEvent)}
    (hinit : mem head = initList head) (h : Run (step head) { mem, members := [] } trace t) :
    (Represents head { mem, members := [] } ∧ ∀ x ∈ trace, Represents head x.post) ↔
      ∀ x ∈ trace, AddsToEmpty x := by
  have hring : IsRing head { mem, members := [] } := isRing_initial hinit
  have hiff : (∀ x ∈ trace, Represents head x.post) ↔ ∀ x ∈ trace, AddsToEmpty x := by
    apply h.forall_congr (IsRing head) hring
    · intro s e t hs hstep ht
      exact isRing_step hs hstep ((represents_iff hs hstep).mp ht)
    · intro s e t hs hstep
      exact represents_iff hs hstep
  rw [hiff]
  exact and_iff_right hring.represents

/-- One client at a time. -/
theorem list_represents_one :
    let trace := replay (step 1) ⟨initList, []⟩ [.add 2, .del 2, .add 3]
    ∃ t, Run (step 1) ⟨initList, []⟩ trace t ∧ ∀ x ∈ trace, Represents 1 x.post := by
  obtain ⟨t, hrun⟩ := run_replay (step 1) ⟨initList, []⟩ [.add 2, .del 2, .add 3]
  refine ⟨t, hrun, ((list_represents_iff rfl hrun).mpr ?_).2⟩
  decide

/-- The second client takes the place of the first one. -/
theorem list_forgets : ¬ ∀ (head : ℕ) (mem : Nodes) (trace : List (Transition ListState ListEvent))
    (t : ListState), mem head = initList head → Run (step head) { mem, members := [] } trace t →
      ∀ x ∈ trace, Represents head x.post := by
  intro h
  obtain ⟨t, hrun⟩ := run_replay (step 1) ⟨initList, []⟩ [.add 2, .add 3]
  have hall := h 1 _ _ t rfl hrun
  have hlost : ∃ x ∈ replay (step 1) ⟨initList, []⟩ [.add 2, .add 3],
      Ring.walk (fun a => (x.post.mem a).next) 1 3 (x.post.mem 1).next = some [3] ∧
        x.post.members = [2, 3] := by
    decide
  obtain ⟨x, hx, hwalk, hmembers⟩ := hlost
  have hforward := (hall x hx).forward
  rw [hmembers] at hforward
  cases hwalk.symm.trans hforward

end CmcServer.ListState
