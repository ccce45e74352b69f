import CmcServer.Lib.CriticalSection

/-! # Dynamic arrays

The growing arrays of `stb_ds.h`, as far as the buffer pools use them. Reads and writes of the
header and of the elements are single steps. -/

namespace CmcServer

open CriticalSection

/-- An array with its header, whether it is not `NULL`, and the memory for its elements. -/
structure StbArray (α : Type*) where
  allocated : Bool
  length : ℕ
  capacity : ℕ
  items : List α

namespace StbArray

variable {α : Type} [Inhabited α]

def null (α : Type) : StbArray α := ⟨false, 0, 0, []⟩

def arrlen (a : StbArray α) : ℕ := if a.allocated then a.length else 0

def arrcap (a : StbArray α) : ℕ := if a.allocated then a.capacity else 0

/-- The capacity of an array that grows, so that pushing takes constant time on average. -/
def grownCapacity (capacity minCap : ℕ) : ℕ :=
  if minCap < 2 * capacity then 2 * capacity
  else if minCap < 4 then 4
  else minCap

/-- `stbds_arrgrowf`. `realloc` is taken to succeed, and what is behind the old elements is not
known. -/
def arrgrowf (a : StbArray α) (addlen minCap : ℕ) : StbArray α :=
  let minLen := a.arrlen + addlen
  let minCap := if minLen > minCap then minLen else minCap
  if minCap ≤ a.arrcap then a
  else
    let minCap := grownCapacity a.arrcap minCap
    { allocated := true, length := a.arrlen, capacity := minCap
      items := a.items.rightpad minCap default }

/-- `stbds_arrmaybegrow`, for one more element. -/
def arrmaybegrow : Prog (StbArray α) Unit := do
  let full ← Prog.load fun a => !a.allocated || a.length + 1 > a.capacity
  if full then Prog.store fun a => a.arrgrowf 1 0
  else pure ()

/-- `arrput`. -/
def arrput (v : α) : Prog (StbArray α) Unit := do
  arrmaybegrow
  let length ← Prog.load StbArray.length
  Prog.store fun a => { a with length := length + 1 }
  Prog.store fun a => { a with items := a.items.set length v }

/-- `arrpop`. -/
def arrpop : Prog (StbArray α) α := do
  let length ← Prog.load StbArray.length
  Prog.store fun a => { a with length := length - 1 }
  let length ← Prog.load StbArray.length
  Prog.load fun a => a.items.getD length default

end StbArray

end CmcServer
