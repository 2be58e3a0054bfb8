import CS24.Subpython.Creation
import CS24.Subpython.Eval
import CS24.Subpython.Sequences

/-!
# List literals

`eval_literal_list`: an array and a list are made, the list gets the array, and the elements are
evaluated into its slots. No variable refers to the list yet, so it is only there in the end if the
evaluation of the elements leaves it alone; a collection of garbage does not.
-/

namespace CS24.Subpython
open Machine Mem RefCount

variable {s s' t : State} {fl fl' : List Nat} {ext ext' ext'' : Int → Nat}
  {list array size r : Int} {front slots owed : List Int} {evaluate : Node → M Int}
  {node : Node} {values : List Node} {n v i : Nat}

/-- A heap with exact counts -/
structure Counted (s : State) (fl : List Nat) (ext : Int → Nat) : Prop where
  heap : Heap s.live s.fields fl s
  exact_ : Exact s.live s.fields s.count ext
  table : s.refTable.length ≤ 2 ^ 31

structure Standing (s : State) (list array size : Int) (slots : List Int) : Prop where
  list_live : list ∈ s.live
  list_type : typeOf s.mem (s.addr list) = some .list
  size_eq : sizeField s.mem (s.addr list) = size
  values : listValues s.mem (s.addr list) = array
  array_live : array ∈ s.live
  array_type : typeOf s.mem (s.addr array) = some .refArray
  slots_eq : s.fields array = slots

def Leaves (s : State) (ext : Int → Nat) (s' : State) (ext' : Int → Nat) : Prop :=
  ∀ ⦃list array size : Int⦄ ⦃slots : List Int⦄, Standing s list array size slots → 0 < ext list →
    Standing s' list array size slots ∧ 0 < ext' list

theorem Leaves.refl : Leaves s ext s ext := fun _ _ _ _ h hpos => ⟨h, hpos⟩

theorem Leaves.trans (h : Leaves s ext s' ext') (h' : Leaves s' ext' t ext'') :
    Leaves s ext t ext'' := by
  intro list array size slots hs hpos
  obtain ⟨hs', hpos'⟩ := h hs hpos
  exact h' hs' hpos'

theorem Standing.arrayAt (h : Standing s list array size slots) (hs : Counted s fl ext) :
    ArrayAt s fl ext list array size slots slots := by
  have hupdate : Function.update s.fields array slots = s.fields := by
    rw [← h.slots_eq, Function.update_eq_self]
  refine ⟨?_, ?_, h.list_live, h.list_type, h.size_eq, h.values, h.array_live, h.array_type,
    h.slots_eq⟩
  · rw [hupdate]
    exact hs.heap
  · rw [hupdate]
    exact hs.exact_

theorem ArrayAt.standing (h : ArrayAt s fl ext list array size slots owed) :
    Standing s list array size slots :=
  ⟨h.list_live, h.list_type, h.size_eq, h.values, h.array_live, h.array_type, h.slots_eq⟩

theorem ArrayAt.counted (h : ArrayAt s fl ext list array size slots slots)
    (htable : s.refTable.length ≤ 2 ^ 31) : Counted s fl ext := by
  have hupdate : Function.update s.fields array slots = s.fields := by
    rw [← h.slots_eq, Function.update_eq_self]
  refine ⟨?_, ?_, htable⟩
  · have hheap := h.heap
    rwa [hupdate] at hheap
  · have hexact := h.exact_
    rwa [hupdate] at hexact

theorem Standing.of_kept (h : Standing s list array size slots) {refs : Int → List Int}
    (hheap : Heap s.live refs fl s) (hlive : s.live ⊆ s'.live)
    (haddr : ∀ u ∈ s.live, s'.addr u = s.addr u)
    (hlist : Kept s.mem s'.mem (s.addr list)) (harray : Kept s.mem s'.mem (s.addr array)) :
    Standing s' list array size slots := by
  have hextent := (hheap.live list h.list_live).2
  have hroom := hextent
  rw [extent, h.list_type] at hroom
  dsimp only at hroom
  constructor
  · exact hlive h.list_live
  · rw [haddr list h.list_live, hlist.typeOf_eq]
    exact h.list_type
  · rw [haddr list h.list_live, sizeField_congr (hlist.rest.mono (by omega) (by omega))]
    exact h.size_eq
  · rw [haddr list h.list_live]
    exact (loadRef_congr (hlist.rest.mono (by omega) (by omega))).trans h.values
  · exact hlive h.array_live
  · rw [haddr array h.array_live, harray.typeOf_eq]
    exact h.array_type
  · rw [State.fields, haddr array h.array_live,
      harray.fields_eq (hheap.live array h.array_live).2]
    exact h.slots_eq

def LeavesRest (list array : Int) (s : State) (ext : Int → Nat) (s' : State)
    (ext' : Int → Nat) : Prop :=
  ∀ ⦃l a size : Int⦄ ⦃slots : List Int⦄, l ≠ list → a ≠ array → Standing s l a size slots →
    0 < ext l → Standing s' l a size slots ∧ 0 < ext' l

theorem LeavesRest.trans (h : LeavesRest list array s ext s' ext')
    (h' : LeavesRest list array s' ext' t ext'') : LeavesRest list array s ext t ext'' := by
  intro l a size slots hl ha hs hpos
  obtain ⟨hs', hpos'⟩ := h hl ha hs hpos
  exact h' hl ha hs' hpos'

theorem Leaves.rest (h : Leaves s ext s' ext') : LeavesRest list array s ext s' ext' :=
  fun _ _ _ _ _ _ hs hpos => h hs hpos

theorem Standing.fill {k : Nat}
    (h : Standing s list array size (front ++ List.replicate (k + 1) nullRef))
    (hs : Counted s fl (plus ext [r])) (hr : r ∈ s.live) :
    wp (overwriteSlot (s.addr array) front.length r) (fun _ => True) (fun _ t =>
      Counted t fl ext ∧ Standing t list array size (front ++ [r] ++ List.replicate k nullRef) ∧
        LeavesRest list array s ext t ext) s := by
  have hat := h.arrayAt hs
  obtain ⟨h₀, hlt⟩ := State.table_of_live hr
  have htable := hs.table
  rw [List.replicate_succ] at hat
  have hlose : lose nullRef s = .ok ((), s) :=
    congrArg (fun t => Except.ok ((), t)) (if_pos (Or.inl rfl))
  have hi : front.length < (front ++ nullRef :: List.replicate k nullRef).length := by
    rw [List.length_append, List.length_cons]
    omega
  rw [overwriteSlot, wp_bind_of_ok (hat.readSlot_ok getElem?_middle), wp_bind_of_ok hlose]
  have hstored := hat.store hi (x := r) (by omega) (by omega)
  rw [set_middle] at hstored
  have hcount : ∀ u ∈ s.live, plus ext [r] u + [nullRef].count u = ext u + [r].count u := by
    intro u hu
    rw [plus_apply, count_null hs.heap hu, Nat.add_zero]
  have hswap := hstored.swap (.inr hr) hcount
  rw [List.append_assoc, List.singleton_append]
  refine wp_of_ok (hat.writeSlot_ok hi) ⟨hswap.counted htable, hswap.standing, ?_⟩
  intro l a size slots hl ha hother hpos
  have hframe := hat.frame_store (x := r) hi
  have hlarray : l ≠ array := by
    rintro rfl
    exact absurd (hother.list_type.symm.trans h.array_type) (by decide)
  have halist : a ≠ list := by
    rintro rfl
    exact absurd (hother.array_type.symm.trans h.list_type) (by decide)
  exact ⟨hother.of_kept hs.heap (Finset.Subset.refl _) (fun _ _ => rfl)
    (hframe.kept l hother.list_live hl hlarray) (hframe.kept a hother.array_live halist ha), hpos⟩

section
variable {type : ValueType} {init : Mem → Nat → Mem} {xs : List Int} {refs : Int → List Int}
  {u : Int}

theorem Made.mem_live (h : Made type init xs ext s r t) : r ∈ t.live := by
  rw [h.live]
  exact Finset.mem_insert_self r s.live

theorem Made.counted (h : Made type init xs ext s r t) :
    ∃ fl', Counted t fl' (Function.update ext r 1) := by
  obtain ⟨fl', hheap⟩ := h.heap
  exact ⟨fl', hheap, h.exact_, h.small⟩

end

end CS24.Subpython
