import CS24.Subpython.Allocation
import CS24.Subpython.Slots

/-!
# Making values

The functions of `eval_refs.c` that make integers, strings, lists and arrays, on a heap with exact
counts. Unless memory or references run out, the new value has a reference that had none, with the
count 1, and every other value stays where it is, byte by byte.
-/

namespace CS24.Subpython
open Machine Mem RefCount

variable {s s₁ t : State} {m : Mem} {L : Finset Int} {refs : Int → List Int} {fl : List Nat}
  {before after : List Nat} {ext : Int → Nat} {b n size v : Nat} {r u : Int} {xs : List Int}
  {type : ValueType} {init : Mem → Nat → Mem}

/-- From `s` to `t` a value was made. -/
structure Made (type : ValueType) (init : Mem → Nat → Mem) (xs : List Int) (ext : Int → Nat)
    (s : State) (r : Int) (t : State) : Prop where
  new : r ∉ s.live
  live : t.live = insert r s.live
  heap : ∃ fl', Heap t.live t.fields fl' t
  exact_ : Exact t.live t.fields t.count (Function.update ext r 1)
  addr : ∀ u ∈ s.live, t.addr u = s.addr u
  kept : ∀ u ∈ s.live, Agree s.mem t.mem (s.addr u) (s.addr u + valueSize s.mem (s.addr u))
  type_eq : typeOf t.mem (t.addr r) = some type
  fields : t.fields r = xs
  init_eq : ∃ m, t.mem = init m (t.addr r)
  small : t.refTable.length ≤ 2 ^ 31
  rest : t = { s with mem := t.mem, freeList := t.freeList, refTable := t.refTable }

/-- The header that `make_ref` writes. -/
def header (m : Mem) (b : Nat) (type : ValueType) : Mem :=
  fill (storeCount (storeType m b type) b 1) (b + headerSize) 0xCC
    (dataSize (storeCount (storeType m b type) b 1) b)

end CS24.Subpython
