import Mathlib.Data.List.Basic
import Mathlib.Logic.Function.Basic
import Mathlib.Tactic.Common

/-! # Linked lists

The intrusive list of `list.h`. A node is known by its address. -/

namespace CmcServer

/-- `list_node_t`. -/
structure ListNode where
  next : ℕ
  prev : ℕ
  deriving DecidableEq, Repr

/-- The nodes in memory. -/
abbrev Nodes := ℕ → ListNode

namespace Nodes

def setNext (mem : Nodes) (node next : ℕ) : Nodes :=
  Function.update mem node { mem node with next }

def setPrev (mem : Nodes) (node prev : ℕ) : Nodes :=
  Function.update mem node { mem node with prev }

@[simp] theorem setNext_next (mem : Nodes) (a v b : ℕ) :
    (mem.setNext a v b).next = if b = a then v else (mem b).next := by
  by_cases h : b = a <;> simp [setNext, h]

@[simp] theorem setNext_prev (mem : Nodes) (a v b : ℕ) :
    (mem.setNext a v b).prev = (mem b).prev := by
  by_cases h : b = a <;> simp [setNext, h]

@[simp] theorem setPrev_next (mem : Nodes) (a v b : ℕ) :
    (mem.setPrev a v b).next = (mem b).next := by
  by_cases h : b = a <;> simp [setPrev, h]

@[simp] theorem setPrev_prev (mem : Nodes) (a v b : ℕ) :
    (mem.setPrev a v b).prev = if b = a then v else (mem b).prev := by
  by_cases h : b = a <;> simp [setPrev, h]

/-- `INIT_LIST`. -/
def initList (list : ℕ) : ListNode := ⟨list, list⟩

def listEmpty (mem : Nodes) (head : ℕ) : Bool := (mem head).next = head

def listAddTail (head newNode : ℕ) (mem : Nodes) : Nodes :=
  let prev := head
  let mem := mem.setPrev head newNode
  let mem := mem.setNext newNode head
  let mem := mem.setPrev newNode prev
  mem.setNext prev newNode

def listDel (entry : ℕ) (mem : Nodes) : Nodes :=
  let next := (mem entry).next
  let prev := (mem entry).prev
  let mem := mem.setPrev next prev
  let mem := mem.setNext prev next
  let mem := mem.setNext entry 0x100
  mem.setPrev entry 0x200

end Nodes

/-! ## Use -/

/-- The memory, and the nodes that were added and not deleted yet, which the code does not keep. -/
structure ListState where
  mem : Nodes
  members : List ℕ

inductive ListEvent where
  | add (node : ℕ)
  | del (node : ℕ)
  deriving DecidableEq, Repr

namespace ListState

/-- A fresh node is added, or a member is deleted. -/
def step (head : ℕ) (s : ListState) : ListEvent → Option ListState
  | .add node =>
      if node ∈ head :: s.members then none
      else some { mem := s.mem.listAddTail head node, members := s.members ++ [node] }
  | .del node =>
      if node ∈ s.members then
        some { mem := s.mem.listDel node, members := s.members.erase node }
      else none

end ListState

end CmcServer
