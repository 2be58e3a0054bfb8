import CS24.Subpython.Mm

/-!
# References

`refs.c`: the table of references, reference counts and the copying collector.
-/

namespace CS24.Subpython
open Machine Mem

/-- The alignment of values in the memory pool. -/
def alignment : Nat := 8

/-- `assign_reference`. The table has room for 8 references first and then for twice as many
each time; `max_refs` is an `int32_t`, so that 2^30 of them cannot be doubled. -/
def assignReference (value : Nat) : M Int := do
  let refTable ← reads State.refTable
  match refTable.findIdx? (· == 0) with
  | some i =>
    modify fun s => { s with refTable := refTable.set i value }
    pure i
  | none =>
    if refTable.length < 2 ^ 30 then
      modify fun s => { s with refTable := refTable ++ [value] }
      pure refTable.length
    else throw .outOfBounds

/-- The size rounded up to a multiple of the alignment, in a `size_t`. -/
def alignedSize (size : Nat) : Nat := (size + (alignment - 1)) % 2 ^ 64 / alignment * alignment

def makeRef (n : Nat) (type : ValueType) (size : Nat) : M Int := do
  let value ← mmMalloc n (alignedSize size)
  if value = 0 then pure nullRef
  else
    assert (typeOf (← reads State.mem) value = some .free)
    modifyMem fun m => storeType m value type
    modifyMem fun m => storeCount m value 1
    modifyMem fun m => fill m (value + headerSize) 0xCC (dataSize m value)
    assignReference value

/-- `ref_table[ref]`, 0 outside of the table -/
def lookup (refTable : List Nat) (ref : Int) : Nat :=
  if 0 ≤ ref then refTable.getD ref.toNat 0 else 0

def deref (ref : Int) : M Nat := do
  let s ← reads id
  assert (0 ≤ ref ∧ ref < s.refTable.length)
  assert (isPoolAddress s (lookup s.refTable ref))
  pure (lookup s.refTable ref)

def refsUsed : M Nat := reads fun s => s.refTable.countP (· ≠ 0)

/-- The loop of `recurse` over a ref array. -/
def recurseArray (g : Int → M Unit) (v : Nat) : Nat → Nat → M Unit
  | 0, _ => throw .outOfFuel
  | n + 1, i => do
    let m ← reads State.mem
    if i < capacity m v then
      g (slot m v i)
      recurseArray g v n (i + 1)
    else pure ()

def recurse (n : Nat) (v : Nat) (g : Int → M Unit) : M Unit := do
  let m ← reads State.mem
  match typeOf m v with
  | some .list => g (listValues m v)
  | some .dict =>
    g (dictKeys m v)
    g (dictValues (← reads State.mem) v)
  | some .refArray => recurseArray g v n 0
  | _ => pure ()

/-- `incref`. A count that does not fit in a `size_t` takes more calls than fuel is for. -/
def incref (ref : Int) : M Unit := do
  let v ← deref ref
  let m ← reads State.mem
  if refCount m v + 1 < 2 ^ 64 then modifyMem fun m => storeCount m v (refCount m v + 1)
  else throw .outOfFuel

def decref : Nat → Int → M Unit
  | 0, _ => throw .outOfFuel
  | n + 1, ref => do
    if ref = nullRef ∨ ref = tombstoneRef then pure ()
    else
      let v ← deref ref
      modifyMem fun m => if 0 < refCount m v then storeCount m v (refCount m v - 1) else m
      if refCount (← reads State.mem) v = 0 then
        recurse n v (decref n)
        modify fun s => { s with refTable := s.refTable.set ref.toNat 0 }
        mmFree v
      else pure ()

def operateGlobal : Nat → Int → M Unit
  | 0, _ => throw .outOfFuel
  | n + 1, ref => do
    if ref = nullRef ∨ ref = tombstoneRef then pure ()
    else
      let s ← reads id
      let v := lookup s.refTable ref
      if isPoolAddress s v then
        modifyMem fun m => storeCount m v (refCount m v + 1)
      else if v = 0 then throw .outOfBounds
      else
        let newV ← mmMalloc n (valueSize s.mem v)
        if newV = 0 then throw .nullPointer
        else
          modifyMem fun m => copy m newV v (valueSize m v)
          modifyMem fun m => storeCount m newV 1
          modify fun s => { s with refTable := s.refTable.set ref.toNat newV }
          recurse n newV (operateGlobal n)

def wrapper (n : Nat) (_name : String) (ref : Int) : M Unit := operateGlobal n ref

def foreachGlobal (g : String → Int → M Unit) : M Unit := do
  (← reads State.globals).forM fun entry => g entry.1 entry.2

def collectGarbage (n : Nat) : M Unit := do
  let _oldUse ← memUsed n
  modify fun s => { s with f := !s.f }
  let s ← reads id
  mmInit (s.actualSize / 2) (if s.f then s.halfwayPoint else s.pool)
  foreachGlobal (wrapper n)
  modify fun s => { s with
    refTable := s.refTable.map fun a => if isPoolAddress s a then a else 0 }

end CS24.Subpython
