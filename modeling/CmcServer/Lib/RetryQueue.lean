import CmcServer.Lib.Runs
import Mathlib.Data.List.Nodup
import Mathlib.Data.List.Perm.Basic
import Mathlib.Algebra.BigOperators.Group.List.Basic
import Mathlib.Algebra.GroupWithZero.Nat
import Mathlib.Data.Fintype.EquivFin
import Mathlib.Data.Fintype.Basic
import Mathlib.Logic.Relation

/-! # Queues with a number of tries

The items of a queue need other items. The first item is tried: it is finished if all that it needs
is finished, otherwise it goes to the end of the queue. An item that was tried often enough is
dropped. -/

open Runs Relation

/-- The queue, how often each item was taken from it, and the items that left it. -/
@[ext]
structure RetryQueue (ι : Type*) where
  queue : List ι
  attempts : ι → ℕ
  finished : List ι
  dropped : List ι

namespace RetryQueue

variable {ι : Type*} [DecidableEq ι]

/-- What the items of a queue have left, each its tries and a last look at it. -/
def left (tries : ℕ) (attempts : ι → ℕ) (queue : List ι) : ℕ :=
  queue.length + (queue.map fun x => tries + 1 - attempts x).sum

omit [DecidableEq ι] in
theorem left_mono (tries : ℕ) {attempts attempts' : ι → ℕ} (h : ∀ x, attempts x ≤ attempts' x)
    (queue : List ι) : left tries attempts' queue ≤ left tries attempts queue := by
  induction queue with
  | nil => exact le_rfl
  | cons x queue ih =>
      have hx := h x
      simp only [left, List.length_cons, List.map_cons, List.sum_cons] at ih ⊢
      omega

theorem attempts_le_update (attempts : ι → ℕ) (x y : ι) :
    attempts y ≤ Function.update attempts x (attempts x + 1) y := by
  by_cases h : y = x
  · subst h
    simp
  · simp [h]

omit [DecidableEq ι] in
theorem left_cons (tries : ℕ) (attempts : ι → ℕ) (x : ι) (queue : List ι) :
    left tries attempts queue < left tries attempts (x :: queue) := by
  simp only [left, List.length_cons, List.map_cons, List.sum_cons]
  omega

/-- An item that leaves the queue takes what it has left. -/
theorem left_pop (tries : ℕ) (attempts : ι → ℕ) (x : ι) (queue : List ι) :
    left tries (Function.update attempts x (attempts x + 1)) queue <
      left tries attempts (x :: queue) :=
  Nat.lt_of_le_of_lt (left_mono tries (attempts_le_update attempts x) queue)
    (left_cons tries attempts x queue)

/-- An item that goes to the end of the queue has a try less. -/
theorem left_requeue {tries : ℕ} {attempts : ι → ℕ} {x : ι} (h : attempts x ≤ tries)
    (queue : List ι) :
    left tries (Function.update attempts x (attempts x + 1)) (queue ++ [x]) <
      left tries attempts (x :: queue) := by
  have hmono := left_mono tries (attempts_le_update attempts x) queue
  simp only [left, List.length_append, List.length_cons, List.map_append, List.sum_append,
    List.map_cons, List.sum_cons, List.length_nil, List.map_nil, List.sum_nil,
    Function.update_self] at hmono ⊢
  omega

variable (needs : ι → List ι) (tries : ℕ)

def start (items : List ι) : RetryQueue ι := ⟨items, fun _ => 0, [], []⟩

def next (s : RetryQueue ι) : Option (RetryQueue ι) :=
  match s.queue with
  | [] => none
  | x :: queue =>
      let attempts := Function.update s.attempts x (s.attempts x + 1)
      if tries ≤ s.attempts x then some { s with queue, attempts, dropped := s.dropped ++ [x] }
      else if ∀ y ∈ needs x, y ∈ s.finished then
        some { s with queue, attempts, finished := s.finished ++ [x] }
      else some { s with queue := queue ++ [x], attempts }

theorem next_decreases (s t : RetryQueue ι) (h : next needs tries s = some t) :
    left tries t.attempts t.queue < left tries s.attempts s.queue := by
  rcases hqueue : s.queue with - | ⟨x, queue⟩
  · simp [next, hqueue] at h
  · simp only [next, hqueue] at h
    split at h
    · cases h
      exact left_pop tries s.attempts x queue
    · split at h
      · cases h
        exact left_pop tries s.attempts x queue
      · cases h
        exact left_requeue (by omega) queue

/-- The queue when it is empty. -/
def final (items : List ι) : RetryQueue ι :=
  finish (next needs tries) (fun s => left tries s.attempts s.queue) (next_decreases needs tries)
    (start items)

/-! ## What every round keeps -/

/-- The items are in the queue, finished or dropped, each once, and an item is finished after all
that it needs. -/
structure Kept (items : List ι) (s : RetryQueue ι) : Prop where
  perm : (s.queue ++ s.finished ++ s.dropped).Perm items
  ordered : ∀ before x after, s.finished = before ++ x :: after → needs x ⊆ before

omit [DecidableEq ι] in
theorem ordered_concat {finished : List ι} {x : ι}
    (h : ∀ before y after, finished = before ++ y :: after → needs y ⊆ before)
    (hx : needs x ⊆ finished) :
    ∀ before y after, finished ++ [x] = before ++ y :: after → needs y ⊆ before := by
  intro before y after heq
  rcases List.eq_nil_or_concat after with rfl | ⟨rest, z, rfl⟩
  · obtain ⟨rfl, hlast⟩ := List.append_inj' heq rfl
    obtain rfl : x = y := by simpa using hlast
    exact hx
  · rw [List.concat_eq_append, ← List.cons_append, ← List.append_assoc] at heq
    obtain ⟨rfl, -⟩ := List.append_inj' heq rfl
    exact h before y rest rfl

variable {needs tries} {items : List ι}

theorem Kept.next {s t : RetryQueue ι} (h : Kept needs items s)
    (hnext : next needs tries s = some t) : Kept needs items t := by
  rcases hqueue : s.queue with - | ⟨x, queue⟩
  · simp [RetryQueue.next, hqueue] at hnext
  · have hperm := h.perm
    rw [hqueue] at hperm
    simp only [RetryQueue.next, hqueue] at hnext
    split at hnext
    · cases hnext
      refine ⟨?_, h.ordered⟩
      refine List.Perm.trans ?_ hperm
      rw [← List.append_assoc]
      exact List.perm_append_singleton x _
    · split at hnext
      · rename_i hneeds
        cases hnext
        refine ⟨?_, ordered_concat needs h.ordered hneeds⟩
        refine List.Perm.trans ?_ hperm
        refine List.Perm.append_right _ ?_
        rw [← List.append_assoc]
        exact List.perm_append_singleton x _
      · cases hnext
        refine ⟨?_, h.ordered⟩
        refine List.Perm.trans ?_ hperm
        refine List.Perm.append_right _ (List.Perm.append_right _ ?_)
        exact List.perm_append_singleton x _

variable (needs tries items) in
theorem kept_final : (final needs tries items).queue = [] ∧
    Kept needs items (final needs tries items) := by
  have hstart : Kept needs items (start items) := ⟨by simp [start], by simp [start]⟩
  obtain ⟨hnone, hkept⟩ := finish_invariant (next_decreases needs tries)
    (Kept needs items) (fun _ _ hs hnext => hs.next hnext) hstart
  refine ⟨?_, hkept⟩
  rw [final]
  generalize finish _ _ _ _ = s at hnone
  rcases hqueue : s.queue with - | ⟨x, queue⟩
  · rfl
  · simp only [next, hqueue] at hnone
    split at hnone
    · cases hnone
    · split at hnone <;> cases hnone

/-! ## The rounds

The items that are not finished are tried again in the order of the list. -/

variable (needs items) in
/-- The item is finished within a number of rounds: what it needs is finished before, in the same
round if it stands in front of the item. -/
inductive Within : ℕ → ι → Prop where
  | intro {r : ℕ} {x : ι} (mem : x ∈ items)
      (earlier : ∀ y ∈ needs x, items.idxOf y < items.idxOf x → Within (r + 1) y)
      (later : ∀ y ∈ needs x, items.idxOf x ≤ items.idxOf y → Within r y) : Within (r + 1) x

theorem within_zero {x : ι} : ¬ Within needs items 0 x := by
  intro h
  cases h

theorem within_succ_iff {r : ℕ} {x : ι} :
    Within needs items (r + 1) x ↔ x ∈ items ∧ ∀ y ∈ needs x,
      (items.idxOf y < items.idxOf x → Within needs items (r + 1) y) ∧
        (items.idxOf x ≤ items.idxOf y → Within needs items r y) := by
  constructor
  · rintro ⟨hmem, hearlier, hlater⟩
    exact ⟨hmem, fun y hy => ⟨hearlier y hy, hlater y hy⟩⟩
  · rintro ⟨hmem, hneeds⟩
    exact ⟨hmem, fun y hy => (hneeds y hy).1, fun y hy => (hneeds y hy).2⟩

theorem Within.succ {r : ℕ} {x : ι} (h : Within needs items r x) :
    Within needs items (r + 1) x := by
  induction h with
  | intro mem _ _ ihearlier ihlater => exact ⟨mem, ihearlier, ihlater⟩

theorem Within.mem {r : ℕ} {x : ι} (h : Within needs items r x) : x ∈ items := by
  cases h with
  | intro mem _ _ => exact mem

theorem mem_front_iff {front back : List ι} {x : ι} (hitems : items = front ++ x :: back)
    (hnodup : items.Nodup) (y : ι) : y ∈ front ↔ items.idxOf y < items.idxOf x := by
  rw [hitems, List.nodup_append] at hnodup
  have hx : x ∉ front := fun hmem => hnodup.2.2 x hmem x List.mem_cons_self rfl
  have hidx : items.idxOf x = front.length := by
    rw [hitems, List.idxOf_append_of_notMem hx, List.idxOf_cons_self, Nat.add_zero]
  rw [hidx, hitems]
  constructor
  · intro hy
    rw [List.idxOf_append_of_mem hy]
    exact List.idxOf_lt_length_of_mem hy
  · intro hlt
    by_contra hy
    rw [List.idxOf_append_of_notMem hy] at hlt
    omega

open Classical in
variable (needs items) in
/-- The items of a list that take more than `r` rounds. -/
noncomputable def pending (r : ℕ) (l : List ι) : List ι :=
  l.filter fun x => ¬ Within needs items r x

@[simp] theorem pending_nil (r : ℕ) : pending needs items r [] = [] := rfl

theorem pending_append (r : ℕ) (l l' : List ι) :
    pending needs items r (l ++ l') = pending needs items r l ++ pending needs items r l' :=
  List.filter_append ..

theorem pending_cons_of_within {r : ℕ} {x : ι} (hx : Within needs items r x) (l : List ι) :
    pending needs items r (x :: l) = pending needs items r l := by
  simp [pending, hx]

theorem pending_cons_of_not {r : ℕ} {x : ι} (hx : ¬ Within needs items r x) (l : List ι) :
    pending needs items r (x :: l) = x :: pending needs items r l := by
  simp [pending, hx]

theorem mem_pending {r : ℕ} {x : ι} {l : List ι} :
    x ∈ pending needs items r l ↔ x ∈ l ∧ ¬ Within needs items r x := by
  simp [pending]

variable (needs items) in
/-- In the middle of a round, when the items in front have had their try. -/
structure Round (r : ℕ) (front back : List ι) (s : RetryQueue ι) : Prop where
  queue : s.queue = pending needs items r back ++ pending needs items (r + 1) front
  finished : ∀ y, y ∈ s.finished ↔
    Within needs items r y ∨ y ∈ front ∧ Within needs items (r + 1) y
  dropped : s.dropped = []
  waiting : ∀ x ∈ back, ¬ Within needs items r x → s.attempts x = r
  again : ∀ x ∈ front, ¬ Within needs items (r + 1) x → s.attempts x = r + 1

theorem round_start (items : List ι) : Round needs items 0 [] items (start items) where
  queue := by simp [start, pending, within_zero]
  finished := by simp [start, within_zero]
  dropped := rfl
  waiting := fun _ _ _ => rfl
  again := by simp

variable {r : ℕ} {front back : List ι} {x : ι} {s : RetryQueue ι}

/-- What is finished when `x` has had its try. -/
theorem finished_append_iff {y : ι} :
    (Within needs items r y ∨ y ∈ front ++ [x] ∧ Within needs items (r + 1) y) ↔
      (Within needs items r y ∨ y ∈ front ∧ Within needs items (r + 1) y) ∨
        y = x ∧ Within needs items (r + 1) x := by
  rw [List.mem_append, List.mem_singleton]
  constructor
  · rintro (hy | ⟨hmem | rfl, hy⟩)
    · exact Or.inl (Or.inl hy)
    · exact Or.inl (Or.inr ⟨hmem, hy⟩)
    · exact Or.inr ⟨rfl, hy⟩
  · rintro ((hy | ⟨hmem, hy⟩) | ⟨rfl, hy⟩)
    · exact Or.inl hy
    · exact Or.inr ⟨Or.inl hmem, hy⟩
    · exact Or.inr ⟨Or.inr rfl, hy⟩

/-- An item that was finished in an earlier round is not in the queue. -/
theorem Round.pass (h : Round needs items r front (x :: back) s) (hx : Within needs items r x) :
    Round needs items r (front ++ [x]) back s where
  queue := by
    rw [h.queue, pending_cons_of_within hx, pending_append, pending_cons_of_within hx.succ]
    simp
  finished := by
    intro y
    rw [h.finished y, finished_append_iff]
    constructor
    · exact Or.inl
    · rintro (hy | ⟨rfl, -⟩)
      · exact hy
      · exact Or.inl hx
  dropped := h.dropped
  waiting := fun y hy => h.waiting y (List.mem_cons_of_mem x hy)
  again := by
    intro y hy hnot
    rcases List.mem_append.mp hy with hy | hy
    · exact h.again y hy hnot
    · rw [List.mem_singleton.mp hy] at hnot
      exact absurd hx.succ hnot

/-- What an item needs is finished when it has its try exactly if it takes this many rounds. -/
theorem Round.needs_finished (h : Round needs items r front (x :: back) s)
    (hitems : items = front ++ x :: back) (hnodup : items.Nodup) :
    (∀ y ∈ needs x, y ∈ s.finished) ↔ Within needs items (r + 1) x := by
  have hx : x ∈ items := by simp [hitems]
  rw [within_succ_iff]
  constructor
  · intro hneeds
    refine ⟨hx, fun y hy => ?_⟩
    rcases (h.finished y).mp (hneeds y hy) with hwithin | ⟨hmem, hwithin⟩
    · exact ⟨fun _ => hwithin.succ, fun _ => hwithin⟩
    · have hlt := (mem_front_iff hitems hnodup y).mp hmem
      exact ⟨fun _ => hwithin, fun hle => absurd hlt (not_lt.mpr hle)⟩
  · rintro ⟨-, hneeds⟩ y hy
    rw [h.finished y]
    rcases Nat.lt_or_ge (items.idxOf y) (items.idxOf x) with hlt | hge
    · exact Or.inr ⟨(mem_front_iff hitems hnodup y).mpr hlt, (hneeds y hy).1 hlt⟩
    · exact Or.inl ((hneeds y hy).2 hge)

/-- The try of an item that was not finished in an earlier round. -/
theorem Round.attempt (h : Round needs items r front (x :: back) s)
    (hitems : items = front ++ x :: back) (hnodup : items.Nodup) (hr : r < tries)
    (hx : ¬ Within needs items r x) :
    ∃ t, next needs tries s = some t ∧ Round needs items r (front ++ [x]) back t := by
  have hqueue := h.queue
  rw [pending_cons_of_not hx, List.cons_append] at hqueue
  have htry : ¬ tries ≤ s.attempts x := by
    rw [h.waiting x List.mem_cons_self hx]
    omega
  have hother : ∀ y ≠ x, Function.update s.attempts x (s.attempts x + 1) y = s.attempts y :=
    fun y hy => Function.update_of_ne hy _ _
  have hsplit := List.nodup_append.mp (hitems ▸ hnodup)
  have hwaiting : ∀ y ∈ back, ¬ Within needs items r y →
      Function.update s.attempts x (s.attempts x + 1) y = r := by
    intro y hy hnot
    have hne : y ≠ x := fun heq => (List.nodup_cons.mp hsplit.2.1).1 (heq ▸ hy)
    rw [hother y hne]
    exact h.waiting y (List.mem_cons_of_mem x hy) hnot
  have hagain : ∀ y ∈ front ++ [x], ¬ Within needs items (r + 1) y →
      Function.update s.attempts x (s.attempts x + 1) y = r + 1 := by
    intro y hy hnot
    rcases List.mem_append.mp hy with hy | hy
    · have hne : y ≠ x := hsplit.2.2 y hy x List.mem_cons_self
      rw [hother y hne]
      exact h.again y hy hnot
    · rw [List.mem_singleton.mp hy, Function.update_self, h.waiting x List.mem_cons_self hx]
  simp only [next, hqueue, htry, if_false]
  split
  · rename_i hneeds
    have hwithin := (h.needs_finished hitems hnodup).mp hneeds
    refine ⟨_, rfl, ?_, ?_, h.dropped, hwaiting, hagain⟩
    · simp [pending_append, pending_cons_of_within hwithin]
    · intro y
      rw [List.mem_append, h.finished y, List.mem_singleton, finished_append_iff]
      simp only [hwithin, and_true]
  · rename_i hneeds
    have hnot : ¬ Within needs items (r + 1) x :=
      fun hwithin => hneeds ((h.needs_finished hitems hnodup).mpr hwithin)
    refine ⟨_, rfl, ?_, ?_, h.dropped, hwaiting, hagain⟩
    · simp [pending_append, pending_cons_of_not hnot]
    · intro y
      rw [h.finished y, finished_append_iff]
      simp only [hnot, and_false, or_false]

theorem Round.over (h : Round needs items r items [] s) : Round needs items (r + 1) [] items s where
  queue := by simp [h.queue]
  finished := by
    intro y
    rw [h.finished y]
    constructor
    · rintro (hy | ⟨-, hy⟩)
      · exact Or.inl hy.succ
      · exact Or.inl hy
    · rintro (hy | ⟨hmem, -⟩)
      · exact Or.inr ⟨hy.mem, hy⟩
      · cases hmem
  dropped := h.dropped
  waiting := h.again
  again := by simp

/-- The loop comes to the start of the next round. -/
theorem Round.finish_eq (hnodup : items.Nodup) (hr : r < tries)
    (hitems : items = front ++ back) (h : Round needs items r front back s) :
    ∃ t, Round needs items (r + 1) [] items t ∧
      finish (next needs tries) (fun s => left tries s.attempts s.queue)
        (next_decreases needs tries) s =
      finish (next needs tries) (fun s => left tries s.attempts s.queue)
        (next_decreases needs tries) t := by
  induction back generalizing front s with
  | nil =>
      rw [List.append_nil] at hitems
      subst hitems
      exact ⟨s, h.over, rfl⟩
  | cons x back ih =>
      have hitems' : items = (front ++ [x]) ++ back := by simp [hitems]
      by_cases hx : Within needs items r x
      · exact ih hitems' (h.pass hx)
      · obtain ⟨t, hnext, ht⟩ := h.attempt hitems hnodup hr hx
        obtain ⟨u, hu, heq⟩ := ih hitems' ht
        exact ⟨u, hu, by rw [finish_of_some hnext, heq]⟩

variable (needs) in
/-- Items that have no try left are dropped. -/
theorem finish_drops (hs : ∀ x ∈ s.queue, tries ≤ s.attempts x) :
    let t := finish (next needs tries) (fun s => left tries s.attempts s.queue)
      (next_decreases needs tries) s
    t.finished = s.finished ∧ t.dropped = s.dropped ++ s.queue := by
  intro t
  obtain ⟨queue, hqueue⟩ : ∃ queue, s.queue = queue := ⟨_, rfl⟩
  induction queue generalizing s with
  | nil =>
      have hnone : next needs tries s = none := by simp [next, hqueue]
      rw [show t = s from finish_of_none hnone, hqueue, List.append_nil]
      exact ⟨rfl, rfl⟩
  | cons x queue ih =>
      have hx : tries ≤ s.attempts x := hs x (by simp [hqueue])
      have hnext : next needs tries s = some
          { s with
            queue := queue, attempts := Function.update s.attempts x (s.attempts x + 1),
            dropped := s.dropped ++ [x] } := by
        simp [next, hqueue, hx]
      have hrest := ih (s := { s with
            queue := queue, attempts := Function.update s.attempts x (s.attempts x + 1),
            dropped := s.dropped ++ [x] }) (by
        intro y hy
        exact (hs y (by simp [hqueue, show y ∈ queue from hy])).trans
          (attempts_le_update s.attempts x y)) rfl
      rw [show t = _ from finish_of_some hnext, hqueue]
      simpa using hrest

/-- What is finished and what is dropped in the end. -/
theorem final_iff (needs : ι → List ι) (tries : ℕ) (hnodup : items.Nodup) (x : ι) :
    (x ∈ (final needs tries items).finished ↔ Within needs items tries x) ∧
      (x ∈ (final needs tries items).dropped ↔ x ∈ items ∧ ¬ Within needs items tries x) := by
  have hrounds : ∀ r ≤ tries, ∃ t, Round needs items r [] items t ∧
      final needs tries items = finish (next needs tries)
        (fun s => left tries s.attempts s.queue) (next_decreases needs tries) t := by
    intro r hr
    induction r with
    | zero => exact ⟨start items, round_start items, rfl⟩
    | succ r ih =>
        obtain ⟨t, ht, hfinal⟩ := ih (by omega)
        obtain ⟨u, hu, heq⟩ := ht.finish_eq hnodup (Nat.lt_of_succ_le hr) rfl
        exact ⟨u, hu, hfinal.trans heq⟩
  obtain ⟨t, ht, hfinal⟩ := hrounds tries le_rfl
  have hqueue : t.queue = pending needs items tries items := by
    simp [ht.queue]
  have hdrops := finish_drops needs (s := t) (by
    intro y hy
    rw [hqueue, mem_pending] at hy
    exact (ht.waiting y hy.1 hy.2).ge)
  rw [hfinal, hdrops.1, hdrops.2, hqueue, ht.dropped, List.nil_append, mem_pending, ht.finished]
  simp

/-! ## Chains of needs -/

/-- The item and what it depends on are items of the queue, and none depends on itself. -/
def Dependable (needs : ι → List ι) (items : List ι) (x : ι) : Prop :=
  ∀ y, ReflTransGen (fun a b => b ∈ needs a) x y →
    y ∈ items ∧ ¬ TransGen (fun a b => b ∈ needs a) y y

/-- How often an item of the chain needs one that does not stand in front of it. -/
def lateNeeds (items : List ι) : List ι → ℕ
  | x :: y :: chain =>
      (if items.idxOf x ≤ items.idxOf y then 1 else 0) + lateNeeds items (y :: chain)
  | _ => 0

/-- No chain of needs from the item has that many late ones. -/
def LateBelow (needs : ι → List ι) (items : List ι) (r : ℕ) (x : ι) : Prop :=
  ∀ chain, (x :: chain).IsChain (fun a b => b ∈ needs a) → lateNeeds items (x :: chain) < r

omit [DecidableEq ι] in
theorem Dependable.need {y : ι} (h : Dependable needs items x) (hy : y ∈ needs x) :
    Dependable needs items y :=
  fun z hz => h z (ReflTransGen.head hy hz)

omit [DecidableEq ι] in
theorem dependable_of_needs (hx : x ∈ items) (h : ∀ y ∈ needs x, Dependable needs items y) :
    Dependable needs items x := by
  intro z hz
  rcases ReflTransGen.cases_head hz with rfl | ⟨y, hy, hyz⟩
  · refine ⟨hx, fun hcycle => ?_⟩
    obtain ⟨y, hy, hyx⟩ := TransGen.head'_iff.mp hcycle
    exact (h y hy x hyx).2 hcycle
  · exact h y hy z hyz

/-- The needs of a dependable item are well-founded, there are finitely many and no cycle. -/
theorem Dependable.acc (h : Dependable needs items x) : Acc (fun a b => a ∈ needs b) x := by
  let reached := {y // ReflTransGen (fun a b => b ∈ needs a) x y}
  have hfinite : Finite reached :=
    Finite.of_injective (fun y : reached => (⟨y.1, (h y.1 y.2).1⟩ : {y // y ∈ items}))
      fun y z heq => Subtype.ext (congrArg (fun w : {y // y ∈ items} => w.1) heq)
  let below : reached → reached → Prop :=
    fun y z => TransGen (fun a b => b ∈ needs a) z.1 y.1
  have : IsTrans reached below := ⟨fun _ _ _ hyz hzw => hzw.trans hyz⟩
  have : Std.Irrefl below := ⟨fun y => (h y.1 y.2).2⟩
  have hwf : WellFounded below := Finite.wellFounded_of_trans_of_irrefl below
  have hall : ∀ y : reached, Acc (fun a b => a ∈ needs b) y.1 := by
    intro y
    induction y using hwf.induction with
    | _ y ih =>
        refine Acc.intro _ fun z hz => ?_
        exact ih ⟨z, y.2.tail hz⟩ (TransGen.single hz)
  exact hall ⟨x, ReflTransGen.refl⟩

theorem Within.dependable (h : Within needs items r x) : Dependable needs items x := by
  induction h with
  | @intro r x mem _ _ ihearlier ihlater =>
      refine dependable_of_needs mem fun y hy => ?_
      rcases Nat.lt_or_ge (items.idxOf y) (items.idxOf x) with hlt | hge
      · exact ihearlier y hy hlt
      · exact ihlater y hy hge

theorem Within.lateBelow (h : Within needs items r x) : LateBelow needs items r x := by
  induction h with
  | @intro r x _ _ _ ihearlier ihlater =>
      intro chain hchain
      cases chain with
      | nil => exact Nat.succ_pos r
      | cons y chain =>
          obtain ⟨hy, hrest⟩ := List.isChain_cons_cons.mp hchain
          rw [lateNeeds]
          split
          · have hlate := ihlater y hy ‹_› chain hrest
            omega
          · have hearlier := ihearlier y hy (not_le.mp ‹_›) chain hrest
            omega

/-- The rounds that an item takes are counted by the late needs in its chains. -/
theorem within_iff : Within needs items r x ↔
    Dependable needs items x ∧ LateBelow needs items r x := by
  refine ⟨fun h => ⟨h.dependable, h.lateBelow⟩, ?_⟩
  rintro ⟨hdependable, hlate⟩
  induction hdependable.acc generalizing r with
  | intro x _ ih =>
      have hpos : 0 < r := hlate [] (.singleton x)
      obtain ⟨r, rfl⟩ : ∃ k, r = k + 1 := ⟨r - 1, by omega⟩
      refine ⟨(hdependable x ReflTransGen.refl).1, fun y hy hlt => ?_, fun y hy hle => ?_⟩
      · refine ih y hy (hdependable.need hy) fun chain hchain => ?_
        have hcons := hlate (y :: chain) (List.isChain_cons_cons.mpr ⟨hy, hchain⟩)
        rw [lateNeeds, if_neg (not_le.mpr hlt)] at hcons
        omega
      · refine ih y hy (hdependable.need hy) fun chain hchain => ?_
        have hcons := hlate (y :: chain) (List.isChain_cons_cons.mpr ⟨hy, hchain⟩)
        rw [lateNeeds, if_pos hle] at hcons
        omega

/-- There are no more late needs in a chain than ranks that the needs go down. -/
theorem lateNeeds_le_rank (rank : ι → ℕ) (hrank : ∀ x, ∀ y ∈ needs x, rank y < rank x)
    (items : List ι) {x : ι} {chain : List ι}
    (hchain : (x :: chain).IsChain fun a b => b ∈ needs a) :
    lateNeeds items (x :: chain) ≤ rank x := by
  induction chain generalizing x with
  | nil => exact Nat.zero_le _
  | cons y chain ih =>
      obtain ⟨hy, hrest⟩ := List.isChain_cons_cons.mp hchain
      have hle := ih hrest
      have hlt := hrank x y hy
      rw [lateNeeds]
      split <;> omega

end RetryQueue
