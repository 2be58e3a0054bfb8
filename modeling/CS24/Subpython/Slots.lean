import CS24.Subpython.Release
import CS24.Subpython.Comparing

/-!
# The array of a list

A list on the heap and the slots of its array. The counts may already be those of other
contents of the array than the ones in memory, as they are while a slot is about to change:
releasing the old element, counting the new one and writing the slot are separate steps.
-/

namespace CS24.Subpython
open Machine Mem RefCount

variable {s s' : State} {m' : Mem} {fl fl' : List Nat} {ext ext' : Int → Nat}
  {list array size x r u : Int} {slots counted counted' : List Int} {i n : Nat} {E : Stop → Prop}

theorem sizeField_congr {m : Mem} {v : Nat} (h : Agree m m' (v + 24) (v + 32)) :
    sizeField m' v = sizeField m v :=
  congrArg (fun n : Nat => (n : Int).bmod (2 ^ 64)) (load64_congr h)

theorem sizeField_storeSizeField (m : Mem) (v : Nat) (h₁ : 0 ≤ u) (h₂ : u < 2 ^ 63) :
    sizeField (storeSizeField m v u) v = u := by
  have hlt : (u % 2 ^ 64).toNat < 2 ^ 64 := by omega
  have hload : load64 (storeSizeField m v u) (v + 24) = (u % 2 ^ 64).toNat :=
    load64_store64_same hlt
  have hmod : (((u % 2 ^ 64).toNat : Nat) : Int) = u % (2 ^ 64 : Nat) :=
    Int.toNat_of_nonneg (Int.emod_nonneg _ (by omega))
  have hsize : sizeField (storeSizeField m v u) v = (u % (2 ^ 64 : Nat)).bmod (2 ^ 64) :=
    congrArg (Int.bmod · (2 ^ 64)) ((congrArg Nat.cast hload).trans hmod)
  exact hsize.trans ((Int.emod_bmod u _).trans (Int.bmod_eq_of_le (by omega) (by omega)))

theorem sizeField_lt (m : Mem) (v : Nat) : sizeField m v < 2 ^ 63 := by
  have hlt := Int.bmod_lt (x := (load64 m (v + 24) : Int)) (m := 2 ^ 64) (by decide)
  unfold sizeField
  omega

theorem slot_bounds (m : Mem) (v i : Nat) : -2 ^ 31 ≤ slot m v i ∧ slot m v i < 2 ^ 31 := by
  have hlo := Int.le_bmod (x := (load32 m (slotAddress v i) : Int)) (m := 2 ^ 32) (by decide)
  have hhi := Int.bmod_lt (x := (load32 m (slotAddress v i) : Int)) (m := 2 ^ 32) (by decide)
  unfold slot loadRef
  omega

/-- The list has the array, which holds `slots` in memory, and the counts are those of an array
that holds `counted`. -/
structure ArrayAt (s : State) (fl : List Nat) (ext : Int → Nat) (list array size : Int)
    (slots counted : List Int) : Prop where
  heap : Heap s.live (Function.update s.fields array counted) fl s
  exact_ : Exact s.live (Function.update s.fields array counted) s.count ext
  list_live : list ∈ s.live
  list_type : typeOf s.mem (s.addr list) = some .list
  size_eq : sizeField s.mem (s.addr list) = size
  values : listValues s.mem (s.addr list) = array
  array_live : array ∈ s.live
  array_type : typeOf s.mem (s.addr array) = some .refArray
  slots_eq : s.fields array = slots

section
variable {L : Finset Int} {refs : Int → List Int} (h : Heap L refs fl s) (hr : r ∈ L)
  (hd : ChangesOnly s.mem m' (s.addr r + 24) (valueSize s.mem (s.addr r) - 24))
include h hr hd

theorem Heap.header_data (hu : u ∈ L) : Agree s.mem m' (s.addr u) (s.addr u + 24) := by
  have h24 := (h.live r hr).1.2.2
  have h24u := (h.live u hu).1.2.2
  by_cases hne : u = r
  · rw [hne]
    exact hd.agree (.inl le_rfl)
  · apply hd.agree
    have hapart := h.live_apart u hu r hr hne
    unfold Apart at hapart
    omega

theorem Heap.writesTo_data : WritesTo s r m' := by
  have h24 := (h.live r hr).1.2.2
  have hheader := h.header_data hr hd hr
  exact ⟨hd.mono (by omega) (by omega), valueSize_congr (hheader.mono (by omega) le_rfl)⟩

theorem Heap.count_data (hu : u ∈ L) : State.count { s with mem := m' } u = s.count u := by
  have hheader := h.header_data hr hd hu
  have hcount : refCount m' (s.addr u) = refCount s.mem (s.addr u) :=
    refCount_congr (hheader.mono (by omega) (by omega))
  exact hcount

theorem Heap.typeOf_data (hu : u ∈ L) : typeOf m' (s.addr u) = typeOf s.mem (s.addr u) :=
  typeOf_congr ((h.header_data hr hd hu).mono le_rfl (by omega))

theorem Heap.fields_data (hu : u ∈ L) (hne : u ≠ r) :
    State.fields { s with mem := m' } u = s.fields u := by
  have hagree := h.agree_live hr (h.writesTo_data hr hd) hu hne
  obtain ⟨⟨-, -, h24⟩, hext⟩ := h.live u hu
  have hfields : fields m' (s.addr u) = fields s.mem (s.addr u) :=
    fields_congr (hagree.mono le_rfl (by omega)) (hagree.mono (by omega) (by omega))
  exact hfields

end

namespace ArrayAt

theorem ne (h : ArrayAt s fl ext list array size slots counted) : list ≠ array := by
  rintro rfl
  have htype := h.list_type.symm.trans h.array_type
  cases htype

theorem slots_map (h : ArrayAt s fl ext list array size slots counted) :
    slots = (List.range (capacity s.mem (s.addr array))).map (slot s.mem (s.addr array)) := by
  rw [← h.slots_eq, State.fields, fields, h.array_type]

theorem length (h : ArrayAt s fl ext list array size slots counted) :
    slots.length = capacity s.mem (s.addr array) := by
  rw [h.slots_map, List.length_map, List.length_range]

theorem extent_le (h : ArrayAt s fl ext list array size slots counted) :
    32 + 4 * slots.length ≤ valueSize s.mem (s.addr array) := by
  have hext := (h.heap.live array h.array_live).2
  rw [extent, h.array_type] at hext
  rw [h.length]
  exact hext

theorem slot_of_getElem? (h : ArrayAt s fl ext list array size slots counted)
    (hx : slots[i]? = some x) : slot s.mem (s.addr array) i = x := by
  rw [h.slots_map, List.getElem?_map, Option.map_eq_some_iff] at hx
  obtain ⟨j, hj, rfl⟩ := hx
  rw [List.getElem?_range (by
    have hlt := (List.getElem?_eq_some_iff.mp hj).1
    rwa [List.length_range] at hlt)] at hj
  rw [Option.some.inj hj]

theorem list_fields (h : ArrayAt s fl ext list array size slots counted) :
    s.fields list = [array] := by
  rw [State.fields, fields, h.list_type]
  dsimp only
  rw [h.values]

theorem refers (h : ArrayAt s fl ext list array size slots counted) {type : ValueType}
    (hr : r ∈ s.live) (htype : typeOf s.mem (s.addr r) = some type) :
    Refers s r (s.addr r) type :=
  ⟨deref_eq h.heap hr, State.mem_live.mp hr, htype⟩

theorem readSlot_ok (h : ArrayAt s fl ext list array size slots counted)
    (hx : slots[i]? = some x) : readSlot (s.addr array) i s = .ok (x, s) := by
  have hlt := (List.getElem?_eq_some_iff.mp hx).1
  rw [h.length] at hlt
  rw [Subpython.readSlot_ok (h.refers h.array_live h.array_type) hlt, h.slot_of_getElem? hx]

theorem listRefarray_ok (h : ArrayAt s fl ext list array size slots counted) :
    listRefarray (s.addr list) s = .ok (s.addr array, s) := by
  have hderef : deref (listValues s.mem (s.addr list)) s = .ok (s.addr array, s) := by
    rw [h.values]
    exact deref_eq h.heap h.array_live
  rw [listRefarray, refarrayOf, bind_of_ok (reads_eq _), bind_of_ok hderef,
    bind_of_ok (coerce_ok h.array_type (List.mem_singleton_self _))]
  rfl

theorem recount (h : ArrayAt s fl ext list array size slots counted)
    (hc : ∀ x ∈ s.live, ext x + counted.count x = ext' x + counted'.count x)
    (hmem : ∀ x ∈ counted', IsSpecial x ∨ x ∈ s.live) :
    ArrayAt s fl ext' list array size slots counted' := by
  have hexact : Exact s.live (Function.update (Function.update s.fields array counted) array
      counted') s.count ext' := h.exact_.exchange h.array_live fun x hx => by
    rw [Function.update_self]
    exact hc x hx
  rw [Function.update_idem] at hexact
  have hclosed : ∀ u ∈ s.live, ∀ x ∈ Function.update s.fields array counted' u,
      IsSpecial x ∨ x ∈ s.live := by
    intro u hu x hx
    by_cases hne : u = array
    · rw [hne, Function.update_self] at hx
      exact hmem x hx
    · have hold := h.heap.closed u hu x
      rw [Function.update_of_ne hne] at hx hold
      exact hold hx
  exact ⟨h.heap.with_refs hclosed, hexact, h.list_live, h.list_type, h.size_eq, h.values,
    h.array_live, h.array_type, h.slots_eq⟩

theorem rewrite (h : ArrayAt s fl ext list array size slots counted) (hr : r ∈ s.live)
    (hd : ChangesOnly s.mem m' (s.addr r + 24) (valueSize s.mem (s.addr r) - 24))
    (he : extent m' (s.addr r) ≤ valueSize s.mem (s.addr r))
    (hfields : r ≠ array → State.fields { s with mem := m' } r = s.fields r) :
    Heap s.live (Function.update (State.fields { s with mem := m' }) array counted) fl
      { s with mem := m' } ∧
    Exact s.live (Function.update (State.fields { s with mem := m' }) array counted)
      (State.count { s with mem := m' }) ext := by
  have hsame : ∀ u ∈ s.live, Function.update (State.fields { s with mem := m' }) array counted u =
      Function.update s.fields array counted u := by
    intro u hu
    by_cases hne : u = array
    · rw [hne, Function.update_self, Function.update_self]
    · rw [Function.update_of_ne hne, Function.update_of_ne hne]
      by_cases hur : u = r
      · rw [hur] at hne ⊢
        exact hfields hne
      · exact h.heap.fields_data hr hd hu hur
  have hheap := h.heap.write hr (h.heap.writesTo_data hr hd) he
  refine ⟨hheap.with_refs fun u hu x hx => ?_, ?_⟩
  · rw [hsame u hu] at hx
    exact h.heap.closed u hu x hx
  · exact h.exact_.congr hsame (fun u hu => h.heap.count_data hr hd hu) fun _ _ => rfl

theorem listValues_data (h : ArrayAt s fl ext list array size slots counted)
    (hd : ChangesOnly s.mem m' (s.addr array + 24) (valueSize s.mem (s.addr array) - 24)) :
    Agree s.mem m' (s.addr list) (s.addr list + 40) := by
  have hagree := h.heap.agree_live h.array_live (h.heap.writesTo_data h.array_live hd)
    h.list_live h.ne
  have hext := (h.heap.live list h.list_live).2
  rw [extent, h.list_type] at hext
  dsimp only at hext
  exact hagree.mono le_rfl (by omega)

theorem store (h : ArrayAt s fl ext list array size slots counted) (hi : i < slots.length)
    (h₁ : -2 ^ 31 ≤ x) (h₂ : x < 2 ^ 31) :
    ArrayAt { s with mem := storeSlot s.mem (s.addr array) i x } fl ext list array size
      (slots.set i x) counted := by
  have hext := h.extent_le
  have honly : ChangesOnly s.mem (storeSlot s.mem (s.addr array) i x)
      (slotAddress (s.addr array) i) 4 := changesOnly_storeRef _ _ _
  have hd : ChangesOnly s.mem (storeSlot s.mem (s.addr array) i x) (s.addr array + 24)
      (valueSize s.mem (s.addr array) - 24) := by
    apply honly.mono
    · unfold slotAddress
      omega
    · unfold slotAddress
      omega
  have hcap : capacity (storeSlot s.mem (s.addr array) i x) (s.addr array) =
      capacity s.mem (s.addr array) := by
    apply capacity_congr
    apply honly.agree
    unfold slotAddress
    omega
  have htype := h.heap.typeOf_data h.array_live hd h.array_live
  have hextent : extent (storeSlot s.mem (s.addr array) i x) (s.addr array) ≤
      valueSize s.mem (s.addr array) := by
    rw [extent, htype, h.array_type, hcap]
    have hroom := (h.heap.live array h.array_live).2
    rw [extent, h.array_type] at hroom
    exact hroom
  obtain ⟨hheap, hexact⟩ := h.rewrite h.array_live hd hextent fun hne => absurd rfl hne
  have hlist := h.listValues_data hd
  have hsize : sizeField (storeSlot s.mem (s.addr array) i x) (s.addr list) =
      sizeField s.mem (s.addr list) := sizeField_congr (hlist.mono (by omega) (by omega))
  have hvalues : listValues (storeSlot s.mem (s.addr array) i x) (s.addr list) =
      listValues s.mem (s.addr list) := loadRef_congr (hlist.mono (by omega) (by omega))
  constructor
  · exact hheap
  · exact hexact
  · exact h.list_live
  · exact (h.heap.typeOf_data h.array_live hd h.list_live).trans h.list_type
  · exact hsize.trans h.size_eq
  · exact hvalues.trans h.values
  · exact h.array_live
  · exact htype.trans h.array_type
  · change fields (storeSlot s.mem (s.addr array) i x) (s.addr array) = _
    rw [fields, htype, h.array_type]
    dsimp only
    rw [hcap, ← h.length]
    apply List.ext_getElem
    · rw [List.length_map, List.length_range, List.length_set]
    · intro j hj hj'
      rw [List.getElem_map, List.getElem_range, List.getElem_set]
      rw [List.length_set] at hj'
      split_ifs with hij
      · rw [← hij]
        exact loadRef_storeRef _ _ h₁ h₂
      · have hslot := h.slot_of_getElem? (List.getElem?_eq_getElem hj')
        rw [← hslot]
        apply slot_congr
        apply honly.agree
        unfold slotAddress
        omega

theorem writeSlot_ok (h : ArrayAt s fl ext list array size slots counted) (hi : i < slots.length) :
    writeSlot (s.addr array) i x s =
      .ok ((), { s with mem := storeSlot s.mem (s.addr array) i x }) := by
  have hrefers := h.refers h.array_live h.array_type
  have hpointer : checkPointer (s.addr array) .refArray s = .ok ((), s) := by
    rw [checkPointer, bind_of_ok (reads_eq _)]
    exact congrFun (if_pos ⟨hrefers.ne_zero, hrefers.mem_refTable, hrefers.type⟩) s
  rw [writeSlot, bind_of_ok hpointer, bind_of_ok (reads_eq _)]
  rw [h.length] at hi
  exact congrFun (if_pos hi) s

theorem resize (h : ArrayAt s fl ext list array size slots counted) (h₁ : 0 ≤ u)
    (h₂ : u < 2 ^ 63) : ArrayAt { s with mem := storeSizeField s.mem (s.addr list) u } fl ext list
      array u slots counted := by
  have hext := (h.heap.live list h.list_live).2
  rw [extent, h.list_type] at hext
  dsimp only at hext
  have honly : ChangesOnly s.mem (storeSizeField s.mem (s.addr list) u) (s.addr list + 24) 8 :=
    changesOnly_store64 _ _ _
  have hd : ChangesOnly s.mem (storeSizeField s.mem (s.addr list) u) (s.addr list + 24)
      (valueSize s.mem (s.addr list) - 24) := honly.mono le_rfl (by omega)
  have htype := h.heap.typeOf_data h.list_live hd h.list_live
  have hvalues : listValues (storeSizeField s.mem (s.addr list) u) (s.addr list) =
      listValues s.mem (s.addr list) := loadRef_congr (honly.agree (.inr (by omega)))
  have hextent : extent (storeSizeField s.mem (s.addr list) u) (s.addr list) ≤
      valueSize s.mem (s.addr list) := by
    rw [extent, htype, h.list_type]
    exact hext
  have hfields : fields (storeSizeField s.mem (s.addr list) u) (s.addr list) = s.fields list := by
    rw [h.list_fields, fields, htype, h.list_type]
    exact congrArg (fun x => [x]) (hvalues.trans h.values)
  obtain ⟨hheap, hexact⟩ := h.rewrite h.list_live hd hextent fun _ => hfields
  constructor
  · exact hheap
  · exact hexact
  · exact h.list_live
  · exact htype.trans h.list_type
  · exact sizeField_storeSizeField _ _ h₁ h₂
  · exact hvalues.trans h.values
  · exact h.array_live
  · exact (h.heap.typeOf_data h.list_live hd h.array_live).trans h.array_type
  · rw [← h.slots_eq]
    exact h.heap.fields_data h.list_live hd h.array_live h.ne.symm

theorem of_kept (h : ArrayAt s fl ext list array size slots counted) (hlist : list ∈ s'.live)
    (harray : array ∈ s'.live) (hlive : s'.live ⊆ s.live)
    (haddr : ∀ u ∈ s'.live, s'.addr u = s.addr u)
    (hkept : ∀ u ∈ s'.live, Kept s.mem s'.mem (s.addr u))
    (hheap : Heap s'.live (Function.update s.fields array counted) fl' s')
    (hexact : Exact s'.live (Function.update s.fields array counted) s'.count ext') :
    ArrayAt s' fl' ext' list array size slots counted := by
  have hfields : ∀ u ∈ s'.live, s'.fields u = s.fields u := fun u hu => by
    rw [State.fields, haddr u hu]
    exact (hkept u hu).fields_eq (h.heap.live u (hlive hu)).2
  have hsame : ∀ u ∈ s'.live, Function.update s'.fields array counted u =
      Function.update s.fields array counted u := by
    intro u hu
    by_cases hne : u = array
    · rw [hne, Function.update_self, Function.update_self]
    · rw [Function.update_of_ne hne, Function.update_of_ne hne, hfields u hu]
  have hext := (h.heap.live list h.list_live).2
  rw [extent, h.list_type] at hext
  dsimp only at hext
  have hrest := (hkept list hlist).rest
  constructor
  · refine hheap.with_refs fun u hu x hx => ?_
    rw [hsame u hu] at hx
    exact hheap.closed u hu x hx
  · exact hexact.congr hsame (fun _ _ => rfl) fun _ _ => rfl
  · exact hlist
  · rw [haddr list hlist, (hkept list hlist).typeOf_eq]
    exact h.list_type
  · rw [haddr list hlist, sizeField_congr (hrest.mono (by omega) (by omega))]
    exact h.size_eq
  · rw [haddr list hlist]
    exact (loadRef_congr (hrest.mono (by omega) (by omega))).trans h.values
  · exact harray
  · rw [haddr array harray, (hkept array harray).typeOf_eq]
    exact h.array_type
  · rw [hfields array harray]
    exact h.slots_eq

theorem retain (h : ArrayAt s fl ext list array size slots counted) (hx : x ∈ s.live)
    (hroom : s.count x + 1 < 2 ^ 64) :
    ArrayAt { s with mem := storeCount s.mem (s.addr x) (s.count x + 1) } fl (plus ext [x]) list
      array size slots counted := by
  apply h.of_kept
  · exact h.list_live
  · exact h.array_live
  · exact Finset.Subset.refl _
  · exact fun _ _ => rfl
  · exact fun u hu => h.heap.kept_count hx hu _
  · exact h.heap.with_count hx _
  · exact h.exact_.increment fun u hu => h.heap.count_with_count hx hu hroom

theorem not_garbage (h : ArrayAt s fl ext list array size slots counted) (hlist : 0 < ext' list) :
    ¬ Garbage s.live (Function.update s.fields array counted) s.count ext' array := by
  rintro ⟨-, -, -, hreferred⟩
  have hgarbage := hreferred list h.list_live (by
    rw [Function.update_of_ne h.ne, h.list_fields]
    exact List.mem_singleton_self _)
  have h0 := hgarbage.ext_eq_zero
  omega

theorem release (h : ArrayAt s fl (plus ext [x]) list array size slots counted)
    (hx : IsSpecial x ∨ x ∈ s.live) (hlist : 0 < ext list) (hfuel : Fuel E s.live s n) :
    wp (decref n x) E (fun _ s' => ∃ gone fl',
      Freed s.live (Function.update s.fields array counted) fl ext s gone s' ∧
        ArrayAt s' fl' ext list array size slots counted) s := by
  have hfields : FieldsOf s.live (Function.update s.fields array counted) ext s := by
    intro u hu
    apply Function.update_of_ne
    rintro rfl
    exact h.not_garbage hlist hu
  refine (decref_freed h.heap h.exact_ hx hfields hfuel).post fun _ s' ⟨gone, hf⟩ =>
    ⟨gone, gone.reverse.map s.addr ++ fl, hf, ?_⟩
  have hmem : ∀ {u}, u ∈ s'.live ↔ u ∈ s.live ∧ u ∉ gone := fun {u} => by
    rw [hf.live]
    simp
  have hgone : array ∉ gone := fun hmem => h.not_garbage hlist (hf.garbage array hmem)
  apply h.of_kept (hmem.mpr ⟨h.list_live, hf.not_mem hlist⟩) (hmem.mpr ⟨h.array_live, hgone⟩)
    (fun u hu => (hmem.mp hu).1) (fun u hu => hf.addr_of_not_mem (hmem.mp hu).2)
    (fun u hu => hf.kept u (hmem.mp hu).1 (hmem.mp hu).2)
  · rw [hf.live]
    exact hf.heap
  · rw [hf.live]
    exact hf.exact_

end ArrayAt

/-- From `s` to `s'` no value moves, and those that stay keep what they hold, apart from the list
and its array. -/
structure Frame (list array : Int) (s s' : State) : Prop where
  live : s'.live ⊆ s.live
  addr : ∀ u ∈ s'.live, s'.addr u = s.addr u
  kept : ∀ u ∈ s'.live, u ≠ list → u ≠ array → Kept s.mem s'.mem (s.addr u)
  rest : s' = { s with mem := s'.mem, freeList := s'.freeList, refTable := s'.refTable }

theorem Frame.refl : Frame list array s s where
  live := Finset.Subset.refl _
  addr _ _ := rfl
  kept _ _ _ _ := .refl
  rest := rfl

theorem Frame.trans {t : State} {L : Finset Int} {refs : Int → List Int}
    (h : Frame list array s s') (h' : Frame list array s' t) (hheap : Heap L refs fl s)
    (hL : s.live ⊆ L) : Frame list array s t where
  live := h'.live.trans h.live
  addr u hu := (h'.addr u hu).trans (h.addr u (h'.live hu))
  kept u hu hlist harray := by
    have hmem := h'.live hu
    have hsecond := h'.kept u hu hlist harray
    rw [h.addr u hmem] at hsecond
    have h24 := (hheap.live u (hL (h.live hmem))).1.2.2
    exact (h.kept u hmem hlist harray).trans hsecond h24
  rest := by rw [h'.rest, h.rest]

theorem Heap.frame_write {refs : Int → List Int} (h : Heap s.live refs fl s) (hr : r ∈ s.live)
    (hd : ChangesOnly s.mem m' (s.addr r + 24) (valueSize s.mem (s.addr r) - 24))
    (hwhich : r = list ∨ r = array) : Frame list array s { s with mem := m' } where
  live := Finset.Subset.refl _
  addr _ _ := rfl
  kept u hu hlist harray := by
    have hne : u ≠ r := by
      rintro rfl
      exact hwhich.elim hlist harray
    have hagree := h.agree_live hr (h.writesTo_data hr hd) hu hne
    exact .of_agree hagree (h.live u hu).1.2.2
  rest := rfl

theorem Heap.frame_count {refs : Int → List Int} (h : Heap s.live refs fl s) (hr : r ∈ s.live)
    (a : Nat) : Frame list array s { s with mem := storeCount s.mem (s.addr r) a } where
  live := Finset.Subset.refl _
  addr _ _ := rfl
  kept _ hu _ _ := h.kept_count hr hu a
  rest := rfl

theorem Freed.frame_rest {refs : Int → List Int} {gone : List Int}
    (h : Freed s.live refs fl ext s gone s') : Frame list array s s' := by
  have hmem : ∀ u ∈ s'.live, u ∈ s.live ∧ u ∉ gone := fun u hu => by
    rw [h.live] at hu
    simpa using hu
  constructor
  · exact fun u hu => (hmem u hu).1
  · exact fun u hu => h.addr_of_not_mem (hmem u hu).2
  · exact fun u hu _ _ => h.kept u (hmem u hu).1 (hmem u hu).2
  · exact h.rest

namespace ArrayAt

theorem frame_store (h : ArrayAt s fl ext list array size slots counted) (hi : i < slots.length) :
    Frame list array s { s with mem := storeSlot s.mem (s.addr array) i x } := by
  have hext := h.extent_le
  have honly : ChangesOnly s.mem (storeSlot s.mem (s.addr array) i x)
      (slotAddress (s.addr array) i) 4 := changesOnly_storeRef _ _ _
  apply h.heap.frame_write h.array_live
  · apply honly.mono
    · unfold slotAddress
      omega
    · unfold slotAddress
      omega
  · exact .inr rfl

theorem shiftSlots_spec {front back rest : List Int}
    (h : ArrayAt s fl ext list array size (front ++ x :: (back ++ rest)) counted) :
    ∃ y s', shiftSlots (s.addr array) (front.length + back.length) back.length s = .ok ((), s') ∧
      ArrayAt s' fl ext list array size (front ++ (back ++ y :: rest)) counted ∧
      Frame list array s s' ∧ s'.live = s.live ∧ s'.addr = s.addr := by
  induction back generalizing s front x with
  | nil =>
    exact ⟨x, s, rfl, h, .refl, rfl, rfl⟩
  | cons b back ih =>
    have hlength : (front ++ x :: (b :: back ++ rest)).length =
        front.length + (back.length + rest.length + 2) := by
      simp only [List.length_append, List.length_cons]
      omega
    have hget : (front ++ x :: (b :: back ++ rest))[front.length + 1]? = some b := by
      rw [List.getElem?_append_right (by omega), Nat.add_sub_cancel_left]
      rfl
    have hb := slot_bounds s.mem (s.addr array) (front.length + 1)
    rw [h.slot_of_getElem? hget] at hb
    have hi : front.length < (front ++ x :: (b :: back ++ rest)).length := by omega
    have hstore := h.store hi hb.1 hb.2
    have hset : (front ++ x :: (b :: back ++ rest)).set front.length b =
        (front ++ [b]) ++ b :: (back ++ rest) := by
      rw [List.set_append_right _ _ le_rfl, Nat.sub_self]
      simp
    rw [hset] at hstore
    obtain ⟨y, s', hs', harray, hframe, hlive, haddr⟩ := ih hstore
    have hindex : front.length + (back.length + 1) - (back.length + 1) = front.length :=
      Nat.add_sub_cancel ..
    have hloop : (front ++ [b]).length + back.length = front.length + (back.length + 1) := by
      simp only [List.length_append, List.length_cons, List.length_nil]
      omega
    refine ⟨y, s', ?_, ?_, (h.frame_store hi).trans hframe h.heap (Finset.Subset.refl _), hlive,
      haddr⟩
    · rw [List.length_cons, shiftSlots, hindex, bind_of_ok (h.readSlot_ok hget),
        bind_of_ok (h.writeSlot_ok hi), ← hloop]
      exact hs'
    · rw [List.append_assoc] at harray
      exact harray

theorem incref_spec (h : ArrayAt s fl ext list array size slots counted) (hx : x ∈ s.live)
    (hroom : E .outOfFuel ∨ s.count x + 1 < 2 ^ 64) :
    wp (incref x) E (fun _ s' => ArrayAt s' fl (plus ext [x]) list array size slots counted ∧
      Frame list array s s' ∧ s'.live = s.live) s := by
  rw [incref, wp_bind_of_ok (deref_eq h.heap hx), wp_bind, wp_reads, wp_ite]
  constructor
  · intro hlt
    exact ⟨h.retain hx hlt, h.heap.frame_count hx _, rfl⟩
  · intro hge
    rcases hroom with hE | hlt
    · exact hE
    · exact absurd hlt hge

theorem writeSlot_spec (h : ArrayAt s fl ext list array size slots counted)
    (hi : i < slots.length) (h₁ : -2 ^ 31 ≤ x) (h₂ : x < 2 ^ 31) :
    wp (writeSlot (s.addr array) i x) E (fun _ s' =>
      ArrayAt s' fl ext list array size (slots.set i x) counted ∧ Frame list array s s' ∧
        s'.live = s.live) s :=
  wp_of_ok (h.writeSlot_ok hi) ⟨h.store hi h₁ h₂, h.frame_store hi, rfl⟩

theorem resize_spec (h : ArrayAt s fl ext list array (u + 1) slots counted) (h₀ : 0 ≤ u) :
    wp (modifyMem fun m => storeSizeField m (s.addr list) (sizeField m (s.addr list) - 1)) E
      (fun _ s' => ArrayAt s' fl ext list array u slots counted ∧ Frame list array s s' ∧
        s'.live = s.live ∧ ∀ n, Fuel E s.live s n → Fuel E s'.live s' n) s := by
  have hlt := sizeField_lt s.mem (s.addr list)
  have hsize : sizeField s.mem (s.addr list) - 1 = u := by
    rw [h.size_eq]
    omega
  have hext := (h.heap.live list h.list_live).2
  rw [extent, h.list_type] at hext
  dsimp only at hext
  have honly : ChangesOnly s.mem (storeSizeField s.mem (s.addr list) u) (s.addr list + 24) 8 :=
    changesOnly_store64 _ _ _
  have hd := honly.mono (b := s.addr list + 24) (k := valueSize s.mem (s.addr list) - 24)
    le_rfl (by omega)
  rw [modifyMem, wp_modify, hsize]
  have hresize := h.resize h₀ (by omega)
  refine ⟨hresize, h.heap.frame_write h.list_live hd (.inl rfl), rfl, fun n hfuel => ?_⟩
  refine hfuel.imp_right fun hn => ?_
  obtain ⟨width, hwidth, hn⟩ := hn
  refine ⟨width, fun v hv => ?_, hn⟩
  by_cases hne : v = list
  · have hlist := hwidth v hv
    rw [hne, h.list_fields] at hlist
    rw [hne, hresize.list_fields]
    exact hlist
  · rw [h.heap.fields_data h.list_live hd hv hne]
    exact hwidth v hv

theorem release_spec (h : ArrayAt s fl (plus ext [x]) list array size slots counted)
    (hx : IsSpecial x ∨ x ∈ s.live) (hlist : 0 < ext list) (hfuel : Fuel E s.live s n) :
    wp (decref n x) E (fun _ s' => (∃ fl', ArrayAt s' fl' ext list array size slots counted) ∧
      Frame list array s s' ∧ ∀ u ∈ s.live, 0 < ext u → u ∈ s'.live ∧ s'.count u ≤ s.count u) s :=
  (h.release hx hlist hfuel).post fun _ s' ⟨gone, fl', hf, h'⟩ => by
    refine ⟨⟨fl', h'⟩, hf.frame_rest, fun u hu hpos => ?_⟩
    have hgone := hf.not_mem hpos
    refine ⟨?_, hf.count_le u hu hgone⟩
    rw [hf.live]
    simpa [hgone] using hu

end ArrayAt

end CS24.Subpython
