import CS24.Subpython.Types

/-!
# The pool allocator

`mm.c`: an explicit free list, best fit, splitting without coalescing. Loops along the
free list, and everything that calls them, take the number of iterations they may do.
-/

namespace CS24.Subpython
open Machine Mem

def mmInit (size pool : Nat) : M Unit :=
  modify fun s => { s with
    memorySize := size
    memoryPool := pool
    freeList := pool
    mem := storeSize (storeNext (storeType s.mem pool .free) pool 0) pool size }

/-- A `free_value_t **`: the variable `free_list` or the field `next` of a free value. -/
inductive Link where
  | head
  | next (v : Nat)

def Link.follow (s : State) : Link → Nat
  | .head => s.freeList
  | .next v => nextFree s.mem v

def Link.assign (target : Nat) : Link → M Unit
  | .head => modify fun s => { s with freeList := target }
  | .next v => modifyMem fun m => storeNext m v target

/-- `mem_used` -/
def memUsedFrom : Nat → Nat → Nat → M Nat
  | 0, _, _ => throw .outOfFuel
  | n + 1, freeValue, used => do
    if freeValue = 0 then pure used
    else
      let m ← reads State.mem
      memUsedFrom n (nextFree m freeValue) ((used + (2 ^ 64 - valueSize m freeValue)) % 2 ^ 64)

def memUsed (n : Nat) : M Nat := do
  let s ← reads id
  memUsedFrom n s.freeList s.memorySize

/-- The loop of `mm_malloc`: the link to the best fit, if there is one, and its size. -/
def bestFitFrom (size : Nat) : Nat → Link → Option Link → Nat → M (Option Link × Nat)
  | 0, _, _, _ => throw .outOfFuel
  | n + 1, link, bestFit, smallestSize => do
    let s ← reads id
    let freeValue := link.follow s
    if freeValue = 0 then pure (bestFit, smallestSize)
    else
      let freeSize := valueSize s.mem freeValue
      if size ≤ freeSize ∧ freeSize < smallestSize then
        bestFitFrom size n (.next freeValue) (some link) freeSize
      else bestFitFrom size n (.next freeValue) bestFit smallestSize

def mmMalloc (n size : Nat) : M Nat := do
  match ← bestFitFrom size n .head none (2 ^ 64 - 1) with
  | (none, _) =>
    let used ← memUsed n
    exceptionSetFormat .memoryError
      s!"cannot service request of size {size} with {used} bytes allocated"
    pure 0
  | (some link, smallestSize) =>
    let value ← reads link.follow
    let remainingSize := smallestSize - size
    if headerSize < remainingSize then
      modifyMem fun m => storeSize m value size
      let next := value + size
      modifyMem fun m => storeType m next .free
      modifyMem fun m => storeNext m next (nextFree m value)
      modifyMem fun m => storeSize m next remainingSize
      link.assign next
    else
      link.assign (nextFree (← reads State.mem) value)
    pure value

def mmFree (value : Nat) : M Unit := do
  modifyMem fun m => storeType m value .free
  modify fun s => { s with mem := storeNext s.mem value s.freeList, freeList := value }
  modifyMem fun m => fill m (value + headerSize) 0xCC (dataSize m value)

def isPoolAddress (s : State) (a : Nat) : Prop :=
  s.memoryPool ≤ a ∧ a < s.memoryPool + s.memorySize

instance (s : State) (a : Nat) : Decidable (isPoolAddress s a) :=
  inferInstanceAs (Decidable (_ ∧ _))

end CS24.Subpython
