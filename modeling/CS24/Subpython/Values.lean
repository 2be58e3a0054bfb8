import CS24.Subpython.Ast
import CS24.Subpython.Refs

/-!
# Values

`eval_refs.c`, and how the evaluator reads and writes the values that it has a pointer to.
A pointer that no longer leads to a value stops the run where it is used. The last section
keeps the record of the references that the evaluator holds and of those that it loses.
-/

namespace CS24.Subpython
open Machine Mem

section
variable (m : Mem) (v : Nat)

def integerValue : Int64 := (UInt64.ofNat (load64 m (v + 24))).toInt64

def storeInteger (i : Int64) : Mem := store64 m (v + 24) i.toUInt64.toNat
def storeSizeField (size : Int) : Mem := store64 m (v + 24) (size % 2 ^ 64).toNat
def storeListValues (ref : Int) : Mem := storeRef m (v + 32) ref
def storeDictOccupied (occupied : Int) : Mem := store64 m (v + 32) (occupied % 2 ^ 64).toNat
def storeDictKeys (ref : Int) : Mem := storeRef m (v + 40) ref
def storeDictValues (ref : Int) : Mem := storeRef m (v + 44) ref
def storeCapacity (capacity : Nat) : Mem := store64 m (v + 24) capacity
def storeSlot (i : Nat) (ref : Int) : Mem := storeRef m (slotAddress v i) ref

/-- The slots of an array before `n` become `NULL_REF`. -/
def clearSlots : Nat → Mem
  | 0 => m
  | i + 1 => storeSlot (clearSlots i) v i nullRef

end

/-- A new value of which the data is then set. Its size is computed in a `size_t`; where that
wraps around, the data leaves the block. -/
def makeReference (n : Nat) (type : ValueType) (size : Nat) (init : Mem → Nat → Mem) : M Int := do
  let ref ← makeRef n type (size % 2 ^ 64)
  if ref = nullRef then pure ref
  else
    let v ← deref ref
    if size ≤ valueSize (← reads State.mem) v then
      modifyMem fun m => init m v
      pure ref
    else throw .outOfBounds

def makeReferenceInt (n : Nat) (i : Int64) : M Int :=
  makeReference n .integer 32 fun m v => storeInteger m v i

def makeReferenceString (n : Nat) (value : List UInt8) : M Int :=
  makeReference n .string (24 + (value.length + 1)) fun m v => write m (v + 24) (value ++ [0])

/-- `make_reference_string_concat`: what the two calls of `strcpy` leave -/
def makeReferenceStringConcat (n : Nat) (v₁ v₂ : List UInt8) : M Int :=
  makeReferenceString n (v₁ ++ v₂)

def makeReferenceList (n : Nat) : M Int :=
  makeReference n .list 40 fun m v => storeListValues (storeSizeField m v 0) v nullRef

def makeReferenceDict (n : Nat) : M Int :=
  makeReference n .dict 48 fun m v => storeDictValues (storeDictKeys
    (storeDictOccupied (storeSizeField m v 0) v 0) v nullRef) v nullRef

def makeReferenceRefarray (n capacity : Nat) : M Int :=
  makeReference n .refArray (32 + 4 * capacity) fun m v =>
    clearSlots (storeCapacity m v capacity) v capacity

def checkPointer (v : Nat) (type : ValueType) : M Unit := do
  let s ← reads id
  if v ≠ 0 ∧ v ∈ s.refTable ∧ typeOf s.mem v = some type then pure () else throw .outOfBounds

def checkCurrent (ref : Int) (v : Nat) : M Unit := do
  let s ← reads id
  if v ≠ 0 ∧ lookup s.refTable ref = v then pure () else throw .outOfBounds

def coerce (v : Nat) (types : List ValueType) : M Unit := do
  let m ← reads State.mem
  assert (∃ type ∈ types, typeOf m v = some type)

/-- `array->values[i]` -/
def readSlot (array i : Nat) : M Int := do
  checkPointer array .refArray
  let m ← reads State.mem
  if i < capacity m array then pure (slot m array i) else throw .outOfBounds

/-- `array->values[i] = ref` -/
def writeSlot (array i : Nat) (ref : Int) : M Unit := do
  checkPointer array .refArray
  let m ← reads State.mem
  if i < capacity m array then modifyMem fun m => storeSlot m array i ref else throw .outOfBounds

def holding {α : Type} (refs : List Int) (c : M α) : M α := do
  modify fun s => { s with held := refs ++ s.held }
  let a ← c
  modify fun s => { s with held := s.held.drop refs.length }
  pure a

def lose (ref : Int) : M Unit := modify fun s =>
  if ref = nullRef ∨ ref = tombstoneRef then s else { s with leaked := ref :: s.leaked }

/-- `array->values[i] = ref` where the old reference is not released. -/
def overwriteSlot (array i : Nat) (ref : Int) : M Unit := do
  lose (← readSlot array i)
  writeSlot array i ref

end CS24.Subpython
