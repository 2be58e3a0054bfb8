import CS24.Machine.Memory

/-!
# The malloc package

The boundary-tag allocator of `mm.c` over the simulated heap of `memlib.c`.
Addresses and sizes are natural numbers; `size_t` arithmetic on a request is
reduced modulo `2 ^ 64`. A null pointer is `0`. A call is an `Option`: it is
`none` when the C call does not return, because the walk of `find_fit` does not
reach the end of the heap or an assertion fails.
-/

namespace CS24.Malloc
open Machine Mem

def maxHeap : Nat := 100 * 2 ^ 20
/-- `ALIGNMENT`, twice the size of a `size_t` -/
def alignment : Nat := 16
/-- `sizeof(block_t)` and `offsetof(block_t, payload)` -/
def headerSize : Nat := 8
/-- `sizeof(size_t)` -/
def wordSize : Nat := 8

/-- The mapping `mem_init` obtains from `mmap`: page aligned, in the lower half
of the address space, and above its first `MAX_HEAP` bytes. -/
structure Region where
  heap : Nat
  aligned : alignment ∣ heap
  room : maxHeap ≤ heap
  low : heap + maxHeap < 2 ^ 63

/-- The bytes of memory, the simulated break and the static `last_node`. -/
structure State where
  mem : Mem
  memBrk : Nat
  lastNode : Nat

def memMaxAddr (R : Region) : Nat := R.heap + maxHeap

def memResetBrk (R : Region) (s : State) : State := { s with memBrk := R.heap }

/-- Returns the old break, or `(void *)-1`; `incr` is a `long`. -/
def memSbrk (R : Region) (s : State) (incr : Nat) : State × Nat :=
  if 2 ^ 63 ≤ incr ∨ memMaxAddr R < s.memBrk + incr then (s, 2 ^ 64 - 1)
  else ({ s with memBrk := s.memBrk + incr }, s.memBrk)

def memHeapLo (R : Region) : Nat := R.heap

def memHeapHi (s : State) : Nat := s.memBrk - 1

def roundUp (size n : Nat) : Nat := (size + n - 1) % 2 ^ 64 / n * n

/-- The header without its last bit, which is `is_allocated`. -/
def getSize (m : Mem) (block : Nat) : Nat := load64 m block / 2 * 2

def setHeader (m : Mem) (block size : Nat) (isAllocated : Bool) : Mem :=
  store64 m block (size ||| isAllocated.toNat)

def checkAllocated (m : Mem) (block : Nat) : Bool := load64 m block % 2 == 1

def setFooter (m : Mem) (block : Nat) : Mem :=
  store64 m (block + getSize m block - wordSize)
    (getSize m block ||| (checkAllocated m block).toNat)

def mmInit (R : Region) (s : State) : State × Int :=
  let r := memSbrk R (memResetBrk R s) (alignment - headerSize)
  (r.1, if 2 ^ 63 ≤ r.2 then -1 else 0)

def firstBlock (R : Region) : Nat := memHeapLo R + alignment - headerSize

/-- The neighbours of `b`: `c` after it and `a` before it, `0` where the code
takes `b` for the end or for the front of the heap. -/
def nextBlock (s : State) (b : Nat) : Nat :=
  if memHeapHi s ≤ b + getSize s.mem b then 0 else b + getSize s.mem b

def prevBlock (R : Region) (s : State) (b : Nat) : Nat :=
  if (b + 2 ^ 64 - getSize s.mem b) % 2 ^ 64 ≤ firstBlock R then 0
  else b - load64 s.mem (b - wordSize) / 2 * 2

def mark (m : Mem) (block size : Nat) (isAllocated : Bool) : Mem :=
  setFooter (setHeader m block size isAllocated) block

def coalesce (R : Region) (s : State) (b : Nat) : Mem × Nat :=
  let m := s.mem
  let c := nextBlock s b
  let a := prevBlock R s b
  if c ≠ 0 ∧ checkAllocated m c = false then
    if a ≠ 0 ∧ checkAllocated m a = false then
      (mark m a (getSize m a + getSize m b + getSize m c) false, a)
    else (mark m b (getSize m b + getSize m c) false, b)
  else if a ≠ 0 ∧ checkAllocated m a = false then
    (mark m a (getSize m a + getSize m b) false, a)
  else (mark m b (getSize m b) false, b)

/-- The `while` loop of `find_fit` from `heap_pointer` on, for at most `fuel` blocks. -/
def findFitFrom (m : Mem) (hi size : Nat) : Nat → Nat → Option Nat
  | 0, _ => none
  | fuel + 1, heapPointer =>
    if heapPointer < hi then
      if size ≤ getSize m heapPointer ∧ checkAllocated m heapPointer = false then
        some heapPointer
      else findFitFrom m hi size fuel (heapPointer + getSize m heapPointer)
    else some 0

def findFit (R : Region) (s : State) (size : Nat) : Option Nat :=
  findFitFrom s.mem (memHeapHi s) size (s.memBrk - R.heap) (firstBlock R)

def split (m : Mem) (block s : Nat) : Mem :=
  let sSize := getSize m block - s
  let m := mark m block s true
  if 0 < sSize then mark m (block + s) sSize false else m

def malloc (R : Region) (s : State) (size : Nat) : Option (State × Nat) :=
  let size := roundUp ((headerSize + size + wordSize) % 2 ^ 64) alignment
  match findFit R s size with
  | none => none
  | some 0 =>
    let (s, block) := memSbrk R s size
    if 2 ^ 63 ≤ block then some (s, 0)
    else some ({ s with mem := mark s.mem block size true }, block + headerSize)
  | some block => some ({ s with mem := split s.mem block size }, block + headerSize)

/-- The links a freed block gets: `curr_node->prev = NULL`, `curr_node->next = NULL`
and, when a block was freed before, `last_node->next` and `curr_node->prev`. -/
def linkNode (m : Mem) (lastNode currNode : Nat) : Mem :=
  let m := store64 (store64 m currNode 0) (currNode + wordSize) 0
  if lastNode ≠ 0 then store64 (store64 m (lastNode + wordSize) currNode) currNode lastNode
  else m

def free (R : Region) (s : State) (ptr : Nat) : Option State :=
  if ptr = 0 then some s
  else
    let (m, block) := coalesce R s (ptr - headerSize)
    if checkAllocated m block then none
    else
      let currNode := block + wordSize
      some { s with mem := linkNode m s.lastNode currNode, lastNode := currNode }

def realloc (R : Region) (s : State) (oldPtr size : Nat) : Option (State × Nat) :=
  if size = 0 then (free R s oldPtr).map (·, 0)
  else if oldPtr = 0 then malloc R s size
  else do
    let (s, newPtr) ← malloc R s size
    if newPtr = 0 then return (s, 0)
    let oldSize := getSize s.mem (oldPtr - headerSize)
    let oldSize := if size < oldSize then size else oldSize
    let s ← free R { s with mem := copy s.mem newPtr oldPtr oldSize } oldPtr
    return (s, newPtr)

def calloc (R : Region) (s : State) (nmemb size : Nat) : Option (State × Nat) := do
  let bytes := nmemb * size % 2 ^ 64
  let (s, newPtr) ← malloc R s bytes
  if newPtr = 0 then return (s, 0)
  return ({ s with mem := fill s.mem newPtr 0 bytes }, newPtr)

end CS24.Malloc
