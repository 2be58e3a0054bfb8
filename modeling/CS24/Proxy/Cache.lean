import CS24.Machine.Program

/-!
# The cache of the proxy

`buffer.c` and `cache.c` without the locks. Nodes, key strings and buffers are found by
their addresses, with 0 for a null pointer. Which address `malloc` hands out for a node is
up to the caller; it is not one in use. A walk along links takes the number of nodes it may
visit.
-/

namespace CS24.Proxy
open Machine

/-- `buffer_t` -/
structure Buffer where
  data : Nat → UInt8
  length : Nat
  capacity : Nat

def Buffer.bytes (b : Buffer) : List UInt8 := (List.range b.length).map b.data

/-- `buffer_resize` -/
def Buffer.resize (b : Buffer) (newCapacity : Nat) : Buffer :=
  if newCapacity ≤ b.capacity then b else { b with capacity := max newCapacity (b.capacity * 2) }

/-- `buffer_create` -/
def Buffer.create (initialCapacity : Nat) : Buffer :=
  Buffer.resize ⟨fun _ => 0, 0, 0⟩ (if initialCapacity = 0 then 1 else initialCapacity)

/-- `buffer_append_bytes` -/
def Buffer.append (b : Buffer) (bytes : List UInt8) : Buffer :=
  let b := b.resize (b.length + bytes.length)
  { b with
    data := fun i => if b.length ≤ i then bytes.getD (i - b.length) 0 else b.data i
    length := b.length + bytes.length }

def bins : Nat := 1024
def maxCacheSize : Nat := 1024 * 1024
def maxObjectSize : Nat := 1024 * 100

/-- `node_t` -/
structure Node where
  prev : Nat
  next : Nat
  hashTableNext : Nat
  key : Nat
  value : Nat

structure State where
  /-- The nodes that are allocated. -/
  nodes : Nat → Option Node
  strings : Nat → List UInt8
  buffers : Nat → Buffer
  queueSize : Nat
  front : Nat
  back : Nat
  arr : Nat → Nat
  size : Nat

/-- Why a call does not return: an access through a pointer that is null or to freed
memory, an answer that `malloc` cannot give, or the end of the fuel. -/
inductive Stop where
  | badPointer
  | badMalloc
  | outOfFuel

abbrev M := StateT State (Except Stop)

/-- `*node` -/
def deref (node : Nat) : M Node := do
  match ← reads (·.nodes node) with
  | some n => pure n
  | none => throw .badPointer

/-- An assignment to fields of `*node`. -/
def assign (node : Nat) (f : Node → Node) : M Unit := do
  let n ← deref node
  modify fun s => { s with nodes := Function.update s.nodes node (some (f n)) }

/-- `free` of a node or a null pointer -/
def freeNode (node : Nat) : M Unit := do
  if node = 0 then pure ()
  else
    let _ ← deref node
    modify fun s => { s with nodes := Function.update s.nodes node none }

def hash (s : List UInt8) : Nat :=
  (s.foldl (fun (hash c : UInt8) => ((hash <<< 5) + hash) + c) (UInt8.ofNat 5381)).toNat % bins

/-- `init_node`, where `malloc` returns `node` -/
def initNode (node key value : Nat) : M Unit := do
  if node = 0 ∨ 2 ^ 64 ≤ node ∨ ((← reads State.nodes) node).isSome then throw .badMalloc
  else modify fun s => { s with
    nodes := Function.update s.nodes node (some ⟨0, 0, 0, key, value⟩) }

def initCache (strings : Nat → List UInt8) (buffers : Nat → Buffer) : State where
  nodes := fun _ => none
  strings := strings
  buffers := buffers
  queueSize := 0
  front := 0
  back := 0
  arr := fun _ => 0
  size := 0

def dequeue : M Nat := do
  let s ← reads fun s => s
  if s.back = 0 then pure 0
  else if s.front = s.back then
    modify fun s => { s with front := 0 }
    pure s.front
  else
    let temp := (← deref s.back).prev
    (if temp ≠ 0 then assign temp fun n => { n with next := 0 } else pure ())
    modify fun s => { s with queueSize := (s.queueSize + (2 ^ 64 - 1)) % 2 ^ 64 }
    pure temp

def queueUpdate (node : Nat) : M Unit := do
  let s ← reads fun s => s
  if node = s.front then pure ()
  else
    let n ← deref node
    assign n.prev fun m => { m with next := n.next }
    (if n.next ≠ 0 then assign n.next fun m => { m with prev := n.prev } else pure ())
    (if node = s.back then do
      modify fun s => { s with back := n.prev }
      assign n.prev fun m => { m with next := 0 }
    else pure ())
    assign node fun m => { m with next := s.front, prev := 0 }
    assign s.front fun m => { m with prev := node }
    modify fun s => { s with front := node }

def enqueue (node : Nat) : M Unit := do
  let s ← reads fun s => s
  assign node fun m => { m with next := s.front }
  (if s.back = 0 then modify fun s => { s with back := node, front := node }
  else do
    assign s.front fun m => { m with prev := node }
    modify fun s => { s with front := node })
  modify fun s => { s with queueSize := (s.queueSize + 1) % 2 ^ 64 }

def cacheRemove : M Nat := do
  let back ← deref (← reads State.back)
  let hashedKey := hash ((← reads State.strings) back.key)
  let _ ← dequeue
  freeNode ((← reads State.arr) hashedKey)
  modify fun s => { s with arr := Function.update s.arr hashedKey 0 }
  pure back.value

/-- The loop of `cache_insert` that evicts. -/
def evict (length : Nat) : Nat → M Unit
  | 0 => throw .outOfFuel
  | n + 1 => do
    if maxCacheSize ≤ ((← reads State.size) + length) % 2 ^ 64 then
      let removed ← cacheRemove
      modify fun s => { s with size := (s.size + (2 ^ 64 - (s.buffers removed).length)) % 2 ^ 64 }
      evict length n
    else pure ()

/-- The loop of `cache_insert` along a chain. -/
def lastOfChain : Nat → Nat → Nat → M Nat
  | 0, _, _ => throw .outOfFuel
  | n + 1, head, headPrev => do
    if head = 0 then pure headPrev
    else lastOfChain n (← deref head).hashTableNext head

/-- The part of `cache_insert` that puts the node into the hash table. -/
def chainAppend (n node hashedKey head : Nat) : M Unit := do
  if head = 0 then modify fun s => { s with arr := Function.update s.arr hashedKey node }
  else
    let headPrev ← lastOfChain n head 0
    assign headPrev fun m => { m with hashTableNext := node }

/-- `cache_insert`, where `malloc` returns `node`; `node` is leaked if the buffer is too big. -/
def cacheInsert (n node key value : Nat) : M Nat := do
  initNode node key value
  let hashedKey := hash ((← reads State.strings) key)
  let head := (← reads State.arr) hashedKey
  let length := ((← reads State.buffers) value).length
  if maxObjectSize ≤ length then pure 0
  else
    evict length n
    chainAppend n node hashedKey head
    modify fun s => { s with size := (s.size + length) % 2 ^ 64 }
    enqueue node
    pure node

/-- The loop of `contains`; keys are compared as pointers. -/
def containsFrom (key : Nat) : Nat → Nat → M Nat
  | 0, _ => throw .outOfFuel
  | n + 1, node => do
    if node = 0 then pure 0
    else
      let m ← deref node
      if m.key = key then pure node else containsFrom key n m.hashTableNext

def contains (n key : Nat) : M Nat := do
  let hashedKey := hash ((← reads State.strings) key)
  containsFrom key n ((← reads State.arr) hashedKey)

end CS24.Proxy
