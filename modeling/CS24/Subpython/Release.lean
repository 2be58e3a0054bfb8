import CS24.Subpython.Decref

/-!
# What `decref` frees

On a heap whose counts are exact, `decref` terminates, frees the least set of values that
lose their last references, and leaves a heap whose counts are exact again.
-/

namespace CS24.Subpython
open Machine Mem RefCount

variable {s s' : State} {fl : List Nat} {r u : Int} {ext : Int → Nat} {gone : List Int}

/-- The references with a value. -/
def State.live (s : State) : Finset Int :=
  ((Finset.range s.refTable.length).image Nat.cast).filter fun r => s.addr r ≠ 0

theorem State.mem_live : r ∈ s.live ↔ s.addr r ≠ 0 := by
  refine ⟨fun h => (Finset.mem_filter.mp h).2, fun h => Finset.mem_filter.mpr ⟨?_, h⟩⟩
  unfold State.addr lookup at h
  split_ifs at h with h0
  · have hlt : r.toNat < s.refTable.length := by
      by_contra hge
      exact h (by rw [List.getD_eq_getElem?_getD, List.getElem?_eq_none (by omega)]; rfl)
    exact Finset.mem_image.mpr ⟨r.toNat, Finset.mem_range.mpr hlt, by omega⟩
  · exact absurd rfl h

theorem State.table_of_live (h : r ∈ s.live) : 0 ≤ r ∧ r < s.refTable.length := by
  obtain ⟨i, hi, rfl⟩ := Finset.mem_image.mp (Finset.mem_filter.mp h).1
  have hlt := Finset.mem_range.mp hi
  omega

theorem Apart.ne {m : Mem} {b c : Nat} (h : Apart m b c) (hb : 24 ≤ valueSize m b)
    (hc : 24 ≤ valueSize m c) : b ≠ c := by
  rintro rfl
  rcases h with h | h <;> omega

theorem Heap.nodup_free {L : Finset Int} {refs : Int → List Int} (h : Heap L refs fl s) :
    fl.Nodup :=
  h.chain_apart.imp_of_mem fun hb hc hbc => hbc.ne (h.free _ hb).2.2 (h.free _ hc).2.2

/-- The values `gone` were freed by giving up a reference to `r` from outside; those that are
left from outside are `ext`, and `fl` was the free list. -/
structure Released (fl : List Nat) (ext : Int → Nat) (r : Int) (s : State) (gone : List Int)
    (s' : State) : Prop where
  least : IsLeast {S | Closed s.live s.fields s.count ext r S} {u | u ∈ gone}
  once : gone.Nodup
  table : ∀ u, s'.addr u = if u ∈ gone then 0 else s.addr u
  free : Chain s'.mem s'.freeList (gone.reverse.map s.addr ++ fl)
  free_once : (gone.reverse.map s.addr ++ fl).Nodup
  kept : ∀ u ∈ s'.live, Kept s.mem s'.mem (s.addr u)
  exact_ : Exact s'.live s'.fields s'.count ext
  heap : Heap s'.live s'.fields (gone.reverse.map s.addr ++ fl) s'
  rest : s' = { s with mem := s'.mem, freeList := s'.freeList, refTable := s'.refTable }

theorem Freed.live {refs : Int → List Int} (h : Freed s.live refs fl ext s gone s') :
    s'.live = s.live \ gone.toFinset := by
  ext u
  rw [State.mem_live, h.addr, Finset.mem_sdiff, State.mem_live, List.mem_toFinset]
  by_cases hu : u ∈ gone <;> simp [hu]

theorem Freed.released (h : Freed s.live s.fields fl ext s gone s')
    (hheap : Heap s.live s.fields fl s) (hx : Exact s.live s.fields s.count (plus ext [r]))
    (hr : r ∈ s.live) : Released fl ext r s gone s' := by
  have hmem : ∀ u ∈ s'.live, u ∈ s.live ∧ u ∉ gone := fun u hu => by
    rw [h.live] at hu
    simpa using hu
  have hfields : ∀ u ∈ s'.live, s'.fields u = s.fields u := fun u hu =>
    h.fields_eq hheap (hmem u hu).1 (hmem u hu).2
  have hheap' : Heap s'.live s.fields (gone.reverse.map s.addr ++ fl) s' := h.live ▸ h.heap
  have hexact : Exact s'.live s.fields s'.count ext := h.live ▸ h.exact_
  have hgone : {u | u ∈ gone} = {u | Garbage s.live s.fields s.count ext u} := by
    ext u
    refine ⟨h.garbage u, fun hu => ?_⟩
    have hnot : u ∉ s.live \ gone.toFinset :=
      hu.not_mem Finset.sdiff_subset h.exact_ fun w hw hpos => by
        have hw' : w ∈ s.live ∧ w ∉ gone := by simpa using hw
        exact h.count_pos w hw'.1 hw'.2 hpos
    simpa [hu.mem] using hnot
  constructor
  · rw [hgone]
    exact isLeast_garbage hx hr
  · exact h.nodup
  · exact h.addr
  · exact hheap'.chain
  · exact hheap'.nodup_free
  · exact fun u hu => h.kept u (hmem u hu).1 (hmem u hu).2
  · exact hexact.congr hfields (fun _ _ => rfl) fun _ _ => rfl
  · exact hheap'.with_refs fun u hu x hx' => hheap'.closed u hu x (hfields u hu ▸ hx')
  · exact h.rest

/-- `decref` on a heap with exact counts. -/
theorem decref_releases (hheap : Heap s.live s.fields fl s)
    (hx : Exact s.live s.fields s.count ext) :
    (∀ r n, IsSpecial r → decref (n + 1) r s = .ok ((), s)) ∧
    ∀ r ∈ s.live, 1 ≤ ext r → ∃ enough, ∀ n ≥ enough, ∃ gone s',
      decref n r s = .ok ((), s') ∧
        Released fl (Function.update ext r (ext r - 1)) r s gone s' := by
  refine ⟨fun r n hr => decref_special hr, fun r hr hpos => ?_⟩
  have hplus : plus (Function.update ext r (ext r - 1)) [r] = ext := by
    funext x
    rw [plus_apply]
    by_cases hxr : x = r
    · subst hxr
      rw [Function.update_self, List.count_singleton_self]
      omega
    · rw [Function.update_of_ne hxr, List.count_eq_zero_of_not_mem (by simpa using hxr),
        Nat.add_zero]
  generalize Function.update ext r (ext r - 1) = ext' at hplus ⊢
  rw [← hplus] at hx
  let width := s.live.sup fun u => (s.fields u).length
  refine ⟨s.live.card + width + 2, fun n hn => ?_⟩
  have hfuel : Fuel (fun _ => False) s.live s n :=
    .inr ⟨width, fun u hu => Finset.le_sup (f := fun u => (s.fields u).length) hu, hn⟩
  obtain ⟨⟨⟩, s', hs', gone, hgone⟩ :=
    (decref_freed hheap hx (.inr hr) (fun _ _ => rfl) hfuel).returns
  exact ⟨gone, s', hs', hgone.released hheap hx hr⟩

def putValue (m : Mem) (v : Nat) (type : ValueType) (size : Nat) : Mem :=
  storeSize (storeCount (storeType m v type) v 1) v size

def nestedMem : Mem :=
  let list := storeRef (store64 (putValue (fun _ => 0) 64 .list 40) 88 1) 96 1
  let array := storeRef (store64 (putValue list 104 .refArray 40) 128 1) 136 2
  let integer := store64 (putValue array 144 .integer 32) 168 7
  storeSize (storeNext (storeType integer 176 .free) 176 0) 176 144

def nested : State where
  mem := nestedMem
  memorySize := 256
  memoryPool := 64
  freeList := 176
  pool := 64
  f := false
  halfwayPoint := 192
  actualSize := 256
  refTable := [64, 104, 144]
  exception := none
  globals := [("x", 0)]
  noneRef := nullRef
  trueRef := nullRef
  falseRef := nullRef
  output := []
  held := []
  leaked := []

instance (s : State) (b : Nat) : Decidable (InPool s b) := inferInstanceAs (Decidable (_ ∧ _))

instance (m : Mem) (b c : Nat) : Decidable (Apart m b c) := inferInstanceAs (Decidable (_ ∨ _))

theorem nested_heap : Heap nested.live nested.fields [176] nested where
  pool_pos := by decide
  pool_end := by decide
  table _ := State.table_of_live
  live := by decide +kernel
  free := by decide +kernel
  live_apart := by decide +kernel
  free_apart := by decide +kernel
  chain_apart := List.pairwise_singleton ..
  chain := ⟨rfl, by decide, by decide +kernel,
    show nextFree nested.mem 176 = 0 by decide +kernel⟩
  closed := by decide +kernel

theorem nested_exact :
    Exact nested.live nested.fields nested.count (fun r => if r = 0 then 1 else 0) := by
  unfold Exact
  decide +kernel

theorem decref_releases_nested : ∃ enough, ∀ n ≥ enough, ∃ gone s',
    decref n 0 nested = .ok ((), s') ∧
      Released [176] (Function.update (fun r => if r = 0 then 1 else 0) 0 0) 0 nested gone s' :=
  (decref_releases nested_heap nested_exact).2 0 (by decide +kernel) (by decide)

end CS24.Subpython
