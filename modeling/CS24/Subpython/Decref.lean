import CS24.Subpython.Heap

/-!
# Releasing a reference

`decref` on a heap with exact counts. While a value is being taken apart its references
count as external, so the same statement holds of every recursive call: it is about the
live values that are not yet being freed. The values freed are the garbage.
-/

namespace CS24.Subpython
open Machine Mem RefCount

variable {m m' : Mem} {v n : Nat} {s s' : State} {L : Finset Int}
  {refs : Int → List Int} {fl : List Nat} {r u : Int} {ext : Int → Nat} {gone : List Int}
  {E : Stop → Prop}

theorem assert_of {p : Prop} [Decidable p] (h : p) : assert p = pure () := if_pos h

theorem deref_eq (h : Heap L refs fl s) (hr : r ∈ L) : deref r s = .ok (s.addr r, s) := by
  obtain ⟨h0, hlt⟩ := h.table r hr
  obtain ⟨⟨hlo, hhi, hsize⟩, -⟩ := h.live r hr
  have hpool : isPoolAddress s (lookup s.refTable r) := ⟨hlo, by
    change s.addr r < _
    omega⟩
  change ((assert (0 ≤ r ∧ r < s.refTable.length) >>= fun _ =>
    assert (isPoolAddress s (lookup s.refTable r)) >>= fun _ =>
      pure (lookup s.refTable r)) : M Nat) s = _
  rw [assert_of ⟨h0, hlt⟩, assert_of hpool]
  rfl

section
variable {J : List Int → State → Prop} {g : Int → M Unit}

theorem recurseArray_spec {i : Nat} (htype : typeOf m v = some .refArray)
    (hJ : ∀ l s', J l s' → Agree m s'.mem (v + 24) (v + extent m v))
    (hg : ∀ x l s', J (x :: l) s' → wp (g x) E (fun _ => J l) s')
    (h : J ((List.range' i (capacity m v - i)).map (slot m v)) s)
    (hfuel : E .outOfFuel ∨ capacity m v - i < n) :
    wp (recurseArray g v n i) E (fun _ => J []) s := by
  induction n generalizing i s with
  | zero =>
    rcases hfuel with hE | hlt
    · exact hE
    · omega
  | succ n ih =>
    have hagree := hJ _ _ h
    unfold extent at hagree
    simp only [htype] at hagree
    have hcap : capacity s.mem v = capacity m v :=
      capacity_congr (hagree.mono (by omega) (by omega))
    rw [recurseArray, wp_bind, wp_reads, hcap, wp_ite]
    constructor
    · intro hi
      have hslot : slot s.mem v i = slot m v i :=
        slot_congr (hagree.mono (by unfold slotAddress; omega) (by unfold slotAddress; omega))
      rw [hslot]
      rw [show capacity m v - i = capacity m v - (i + 1) + 1 by omega, List.range'_succ,
        List.map_cons] at h
      exact (hg _ _ _ h).bind fun _ s' hs' => ih hs' (hfuel.imp_right (by omega))
    · intro hi
      rw [show capacity m v - i = 0 by omega] at h
      exact h

theorem recurse_spec (hJ : ∀ l s', J l s' → Agree s.mem s'.mem (v + 24) (v + extent s.mem v))
    (hg : ∀ x l s', J (x :: l) s' → wp (g x) E (fun _ => J l) s')
    (h : J (fields s.mem v) s) (hfuel : E .outOfFuel ∨ (fields s.mem v).length < n) :
    wp (recurse n v g) E (fun _ => J []) s := by
  rw [recurse, wp_bind, wp_reads]
  unfold fields at h hfuel
  split
  · rename_i htype
    simp only [htype] at h
    exact hg _ _ _ h
  · rename_i htype
    simp only [htype] at h
    refine (hg _ _ _ h).bind fun _ s' hs' => ?_
    have hagree := hJ _ _ hs'
    unfold extent at hagree
    simp only [htype] at hagree
    have hvalues : dictValues s'.mem v = dictValues s.mem v :=
      loadRef_congr (hagree.mono (by omega) (by omega))
    rw [wp_bind, wp_reads, hvalues]
    exact hg _ _ _ hs'
  · rename_i htype
    simp only [htype] at h hfuel
    rw [List.length_map, List.length_range] at hfuel
    rw [List.range_eq_range'] at h
    exact recurseArray_spec htype hJ hg h hfuel
  · rename_i hlist hdict harray
    split at h
    · contradiction
    · contradiction
    · contradiction
    · exact h

end

theorem Heap.writesTo_count (h : Heap L refs fl s) (hr : r ∈ L) (a : Nat) :
    WritesTo s r (storeCount s.mem (s.addr r) a) := by
  have hsize := (h.live r hr).1.2.2
  have honly := changesOnly_storeCount s.mem (s.addr r) a
  exact ⟨honly.mono (by omega) (by omega), valueSize_congr (honly.agree (.inr (by omega)))⟩

theorem Heap.kept_count (h : Heap L refs fl s) (hr : r ∈ L) (hu : u ∈ L) (a : Nat) :
    Kept s.mem (storeCount s.mem (s.addr r) a) (s.addr u) := by
  by_cases hne : u = r
  · subst hne
    have honly := changesOnly_storeCount s.mem (s.addr u) a
    exact ⟨honly.agree (.inl (by omega)), honly.agree (.inr (by omega))⟩
  · exact .of_agree (h.agree_live hr (h.writesTo_count hr a) hu hne) (h.live u hu).1.2.2

theorem Heap.with_count (h : Heap L refs fl s) (hr : r ∈ L) (a : Nat) :
    Heap L refs fl { s with mem := storeCount s.mem (s.addr r) a } := by
  refine h.write hr (h.writesTo_count hr a) ?_
  have hext := (h.live r hr).2
  rw [(h.kept_count hr hr a).extent_eq hext]
  exact hext

theorem Heap.count_with_count (h : Heap L refs fl s) (hr : r ∈ L) (hu : u ∈ L) {a : Nat}
    (ha : a < 2 ^ 64) :
    State.count { s with mem := storeCount s.mem (s.addr r) a } u =
      if u = r then a else s.count u := by
  split_ifs with hne
  · rw [hne]
    exact refCount_storeCount _ _ ha
  · have hsize := (h.live u hu).1.2.2
    have hagree := h.agree_live hr (h.writesTo_count hr a) hu hne
    have hcount : Agree s.mem (storeCount s.mem (s.addr r) a) (s.addr u + 8) (s.addr u + 16) :=
      hagree.mono (by omega) (by omega)
    exact refCount_congr hcount

theorem State.count_lt (s : State) (r : Int) : s.count r < 2 ^ 64 := load64_lt s.mem _

/-- From `s` to `s'` the values `gone` of the live values `L` were freed, in this order,
and the references from outside that are left are `ext`. -/
structure Freed (L : Finset Int) (refs : Int → List Int) (fl : List Nat) (ext : Int → Nat)
    (s : State) (gone : List Int) (s' : State) : Prop where
  nodup : gone.Nodup
  subset : ∀ u ∈ gone, u ∈ L
  heap : Heap (L \ gone.toFinset) refs (gone.reverse.map s.addr ++ fl) s'
  exact_ : Exact (L \ gone.toFinset) refs s'.count ext
  addr : ∀ u, s'.addr u = if u ∈ gone then 0 else s.addr u
  length : s'.refTable.length = s.refTable.length
  frame : ∀ x, (∀ u ∈ L, x < s.addr u ∨ s.addr u + valueSize s.mem (s.addr u) ≤ x) →
    s'.mem x = s.mem x
  size : ∀ u ∈ L, valueSize s'.mem (s.addr u) = valueSize s.mem (s.addr u)
  kept : ∀ u ∈ L, u ∉ gone → Kept s.mem s'.mem (s.addr u)
  count_le : ∀ u ∈ L, u ∉ gone → s'.count u ≤ s.count u
  count_pos : ∀ u ∈ L, u ∉ gone → 0 < s.count u → 0 < s'.count u
  garbage : ∀ u ∈ gone, Garbage L refs s.count ext u
  rest : s' = { s with mem := s'.mem, freeList := s'.freeList, refTable := s'.refTable }

theorem Freed.nil (h : Heap L refs fl s) (hx : Exact L refs s.count ext) :
    Freed L refs fl ext s [] s where
  nodup := List.nodup_nil
  subset := by simp
  heap := by simpa using h
  exact_ := by simpa using hx
  addr := by simp
  length := rfl
  frame _ _ := rfl
  size _ _ := rfl
  kept _ _ _ := .refl
  count_le _ _ _ := le_rfl
  count_pos _ _ _ h := h
  garbage := by simp
  rest := rfl

theorem Freed.addr_of_not_mem (h : Freed L refs fl ext s gone s') (hu : u ∉ gone) :
    s'.addr u = s.addr u := by
  rw [h.addr, if_neg hu]

theorem Freed.not_mem (h : Freed L refs fl ext s gone s') (hu : 0 < ext u) : u ∉ gone := by
  intro hmem
  have h0 := (h.garbage u hmem).ext_eq_zero
  omega

theorem Freed.trans {ext' : Int → Nat} {gone' : List Int} {s'' : State}
    (h : Freed L refs fl ext' s gone s')
    (h' : Freed (L \ gone.toFinset) refs (gone.reverse.map s.addr ++ fl) ext s' gone' s'')
    (hs : ∀ u ∈ L, 24 ≤ valueSize s.mem (s.addr u)) (hext : ∀ u, ext' u = 0 → ext u = 0) :
    Freed L refs fl ext s (gone ++ gone') s'' := by
  have hmem : ∀ {u}, u ∈ L \ gone.toFinset ↔ u ∈ L ∧ u ∉ gone := by simp
  have hgone' : ∀ u ∈ gone', u ∈ L ∧ u ∉ gone := fun u hu => hmem.mp (h'.subset u hu)
  have hset : (L \ gone.toFinset) \ gone'.toFinset = L \ (gone ++ gone').toFinset := by
    ext w
    simp [and_assoc]
  have hlist : gone'.reverse.map s'.addr ++ (gone.reverse.map s.addr ++ fl) =
      (gone ++ gone').reverse.map s.addr ++ fl := by
    rw [List.reverse_append, List.map_append, List.append_assoc]
    refine congrArg (· ++ _) (List.map_congr_left fun u hu => ?_)
    exact h.addr_of_not_mem (hgone' u (List.mem_reverse.mp hu)).2
  have hgarbage : ∀ u ∈ gone, Garbage L refs s.count ext u := fun u hu =>
    (h.garbage u hu).of_subset (Finset.Subset.refl L) (fun w hw hw' => absurd hw hw')
      (fun _ _ => le_rfl) hext
  constructor
  · refine List.nodup_append.mpr ⟨h.nodup, h'.nodup, ?_⟩
    rintro u hu w hw rfl
    exact (hgone' u hw).2 hu
  · intro u hu
    rcases List.mem_append.mp hu with hu | hu
    · exact h.subset u hu
    · exact (hgone' u hu).1
  · rw [← hset, ← hlist]
    exact h'.heap
  · rw [← hset]
    exact h'.exact_
  · intro u
    rw [h'.addr, h.addr]
    by_cases hu : u ∈ gone <;> by_cases hu' : u ∈ gone' <;> simp [hu, hu']
  · rw [h'.length, h.length]
  · intro x hx
    rw [h'.frame x, h.frame x hx]
    intro u hu
    obtain ⟨huL, hugone⟩ := hmem.mp hu
    rw [h.addr_of_not_mem hugone, h.size u huL]
    exact hx u huL
  · intro u hu
    by_cases hugone : u ∈ gone
    · -- the block is on the free list already, which the second stretch leaves alone
      have hb : s.addr u ∈ gone.reverse.map s.addr ++ fl :=
        List.mem_append_left _ (List.mem_map_of_mem (List.mem_reverse.mpr hugone))
      have h24 := hs u hu
      have hsize := h.size u hu
      have hagree : Agree s'.mem s''.mem (s.addr u + 16) (s.addr u + 24) := by
        intro x h₁ h₂
        refine h'.frame x fun w hw => ?_
        rcases h.heap.free_apart w hw _ hb with hlt | hlt <;> omega
      rw [valueSize_congr hagree, hsize]
    · have hsize := h'.size u (hmem.mpr ⟨hu, hugone⟩)
      rw [h.addr_of_not_mem hugone] at hsize
      rw [hsize, h.size u hu]
  · intro u hu hun
    simp only [List.mem_append, not_or] at hun
    have hkept := h'.kept u (hmem.mpr ⟨hu, hun.1⟩) hun.2
    rw [h.addr_of_not_mem hun.1] at hkept
    exact (h.kept u hu hun.1).trans hkept (hs u hu)
  · intro u hu hun
    simp only [List.mem_append, not_or] at hun
    exact (h'.count_le u (hmem.mpr ⟨hu, hun.1⟩) hun.2).trans (h.count_le u hu hun.1)
  · intro u hu hun hpos
    simp only [List.mem_append, not_or] at hun
    exact h'.count_pos u (hmem.mpr ⟨hu, hun.1⟩) hun.2 (h.count_pos u hu hun.1 hpos)
  · intro u hu
    rcases List.mem_append.mp hu with hu | hu
    · exact hgarbage u hu
    · refine (h'.garbage u hu).of_subset Finset.sdiff_subset (fun w hw hw' => ?_)
        (fun w hw => ?_) fun _ hw => hw
      · refine hgarbage w ?_
        by_contra hwgone
        exact hw' (hmem.mpr ⟨hw, hwgone⟩)
      · obtain ⟨hwL, hwgone⟩ := hmem.mp hw
        exact h.count_le w hwL hwgone
  · rw [h'.rest, h.rest]

theorem Freed.memoryPool (h : Freed L refs fl ext s gone s') : s'.memoryPool = s.memoryPool := by
  rw [h.rest]

theorem Freed.memorySize (h : Freed L refs fl ext s gone s') : s'.memorySize = s.memorySize := by
  rw [h.rest]

/-- The state after the block of a dead value went to the free list. -/
def State.release (s : State) (r : Int) : State :=
  { s with
    refTable := s.refTable.set r.toNat 0
    mem := freed s.mem s.freeList (s.addr r)
    freeList := s.addr r }

theorem Freed.finish (h : Heap L refs fl s) (hr : r ∈ L) (hx : Exact L refs s.count (plus ext [r]))
    (h1 : s.count r = 1) {s₁ : State} (hs₁ : s₁ = { s with mem := storeCount s.mem (s.addr r) 0 })
    (hf : Freed (L.erase r) refs fl ext s₁ gone s') :
    Freed L refs fl ext s (gone ++ [r]) (s'.release r) := by
  have hmem : ∀ {u}, u ∈ L.erase r ↔ u ≠ r ∧ u ∈ L := Finset.mem_erase
  have hr₁ : r ∉ gone := fun hmem' => (hmem.mp (hf.subset r hmem')).1 rfl
  have haddr₁ : ∀ u, s₁.addr u = s.addr u := fun u => by rw [hs₁]; rfl
  have hv : s'.addr r = s.addr r := by rw [hf.addr_of_not_mem hr₁, haddr₁]
  have hkept₁ : ∀ u ∈ L, Kept s.mem s₁.mem (s.addr u) := fun u hu => by
    rw [hs₁]
    exact h.kept_count hr hu 0
  have h24 : ∀ u ∈ L, 24 ≤ valueSize s.mem (s.addr u) := fun u hu => (h.live u hu).1.2.2
  have hsize₁ : ∀ u ∈ L, valueSize s₁.mem (s.addr u) = valueSize s.mem (s.addr u) := fun u hu =>
    (hkept₁ u hu).valueSize_eq (h24 u hu)
  -- the block of the dead value is as it was
  have hblock : Agree s₁.mem s'.mem (s.addr r) (s.addr r + valueSize s.mem (s.addr r)) := by
    intro x hlo hhi
    refine hf.frame x fun u hu => ?_
    obtain ⟨hne, hu⟩ := hmem.mp hu
    rw [haddr₁, hsize₁ u hu]
    rcases h.live_apart r hr u hu (Ne.symm hne) with hlt | hlt <;> omega
  have hsize : ∀ u ∈ L, valueSize s'.mem (s.addr u) = valueSize s.mem (s.addr u) := by
    intro u hu
    by_cases hne : u = r
    · subst hne
      rw [valueSize_congr (hblock.mono (by omega) (by have := h24 u hu; omega)), hsize₁ u hu]
    · have hsu := hf.size u (hmem.mpr ⟨hne, hu⟩)
      rw [haddr₁] at hsu
      rw [hsu, hsize₁ u hu]
  have hpool : s'.memoryPool = s.memoryPool := hf.memoryPool.trans (by rw [hs₁])
  have hend : s'.memorySize = s.memorySize := hf.memorySize.trans (by rw [hs₁])
  obtain ⟨hin, -⟩ := h.live r hr
  obtain ⟨h0, hlt⟩ := h.table r hr
  have hin' : InPool { s' with refTable := s'.refTable.set r.toNat 0 } (s.addr r) := by
    unfold InPool at hin ⊢
    rw [hsize r hr]
    dsimp only
    rwa [hpool, hend]
  have hfree : ∀ b ∈ gone.reverse.map s₁.addr ++ fl, Apart s'.mem (s.addr r) b := by
    intro b hb
    rcases List.mem_append.mp hb with hb | hb
    · obtain ⟨u, hu, rfl⟩ := List.mem_map.mp hb
      obtain ⟨hne, huL⟩ := hmem.mp (hf.subset u (List.mem_reverse.mp hu))
      rw [haddr₁]
      exact (h.live_apart r hr u huL (Ne.symm hne)).congr (hsize r hr) (hsize u huL)
    · have hb24 := (h.free b hb).2.2
      have hagree : Agree s.mem s'.mem (b + 16) (b + 24) := by
        intro x hlo hhi
        rw [hf.frame x, hs₁]
        · refine (h.writesTo_count hr 0).only x ?_
          rcases h.free_apart r hr b hb with hlt | hlt <;> omega
        · intro u hu
          obtain ⟨-, hu⟩ := hmem.mp hu
          rw [haddr₁, hsize₁ u hu]
          rcases h.free_apart u hu b hb with hlt | hlt <;> omega
      exact (h.free_apart r hr b hb).congr (hsize r hr) (valueSize_congr hagree)
  generalize hs₂ : ({ s' with refTable := s'.refTable.set r.toNat 0 } : State) = s₂ at hin'
  have htable : ∀ u, u ≠ r → s₂.addr u = s'.addr u := fun u hne => by
    rw [← hs₂]
    exact lookup_set_ne h0 hne 0
  have hother : ∀ {u}, u ∈ L.erase r \ gone.toFinset ↔ u ≠ r ∧ u ∈ L ∧ u ∉ gone := by
    intro u
    simp [hmem, and_assoc]
  have haddr' : ∀ u ∈ L.erase r \ gone.toFinset, s'.addr u = s.addr u := fun u hu => by
    rw [hf.addr_of_not_mem (hother.mp hu).2.2, haddr₁]
  have hmem₂ : s₂.mem = s'.mem := by rw [← hs₂]
  have hheap₂ : Heap (L.erase r \ gone.toFinset) refs (gone.reverse.map s₁.addr ++ fl) s₂ := by
    refine hf.heap.transfer ?_ ?_ ?_ (fun u hu => htable u (hother.mp hu).1) (fun u _ => ?_)
      (fun u hu => ?_) ?_ fun b _ => ?_
    · rw [← hs₂]
    · rw [← hs₂]
    · rw [← hs₂]
      exact (List.length_set ..).ge
    · rw [hmem₂]
    · rw [hmem₂]
      exact (hf.heap.live u hu).2
    · rw [← hs₂]
    · rw [hmem₂]
      exact .refl
  have hheap := hheap₂.mmFree hin'
    (fun u hu => by
      obtain ⟨hne, huL, -⟩ := hother.mp hu
      rw [htable u hne, haddr' u hu, hmem₂]
      exact (h.live_apart r hr u huL (Ne.symm hne)).congr (hsize r hr) (hsize u huL))
    (hmem₂ ▸ hfree)
  rw [← hs₂] at hheap htable
  have hrelease : s'.release r = { s' with
      refTable := s'.refTable.set r.toNat 0
      mem := freed s'.mem s'.freeList (s.addr r)
      freeList := s.addr r } := by
    rw [State.release, hv]
  obtain ⟨honly, -, -, hsize'⟩ := freed_spec (hsize r hr ▸ h24 r hr) hf.heap.freeList_lt
  rw [hsize r hr] at honly
  have hset : L.erase r \ gone.toFinset = L \ (gone ++ [r]).toFinset := by
    ext u
    rw [hother]
    simp
    tauto
  have hagree : ∀ u ∈ L, u ≠ r → Agree s'.mem (s'.release r).mem (s.addr u)
      (s.addr u + valueSize s.mem (s.addr u)) := by
    intro u hu hne
    rw [hrelease]
    exact honly.agree (h.live_apart u hu r hr hne)
  have hcount : ∀ u ∈ L, u ≠ r → u ∉ gone → (s'.release r).count u = s'.count u := by
    intro u hu hne hun
    have hau : s'.addr u = s.addr u := by rw [hf.addr_of_not_mem hun, haddr₁]
    have hau' : (s'.release r).addr u = s.addr u := by
      rw [← hau]
      exact htable u hne
    have h24u := h24 u hu
    rw [State.count, State.count, hau, hau']
    exact refCount_congr ((hagree u hu hne).mono (by omega) (by omega))
  have hcount₁ : ∀ u ∈ L, u ≠ r → s₁.count u = s.count u := fun u hu hne => by
    rw [hs₁, h.count_with_count hr hu (by decide), if_neg hne]
  have hkept : ∀ u ∈ L, u ≠ r → u ∉ gone → Kept s.mem (s'.release r).mem (s.addr u) := by
    intro u hu hne hun
    have h₂ := hf.kept u (hmem.mpr ⟨hne, hu⟩) hun
    rw [haddr₁] at h₂
    have h₃ : Kept s'.mem (s'.release r).mem (s.addr u) :=
      .of_agree (hsize u hu ▸ hagree u hu hne) (hsize u hu ▸ h24 u hu)
    exact ((hkept₁ u hu).trans h₂ (h24 u hu)).trans h₃ (h24 u hu)
  obtain ⟨hext, hunref⟩ := hx.last hr h1
  have hdead : Garbage L refs s.count ext r :=
    .intro hr (by omega) hext fun u hu hmem' => absurd hmem' (hunref u hu)
  constructor
  · refine List.nodup_append.mpr ⟨hf.nodup, List.nodup_singleton r, ?_⟩
    rintro u hu w hw rfl
    exact hr₁ (List.mem_singleton.mp hw ▸ hu)
  · intro u hu
    rcases List.mem_append.mp hu with hu | hu
    · exact (hmem.mp (hf.subset u hu)).2
    · exact List.mem_singleton.mp hu ▸ hr
  · rw [← hset, hrelease]
    have hlist : (gone ++ [r]).reverse.map s.addr ++ fl =
        s.addr r :: (gone.reverse.map s₁.addr ++ fl) := by
      simp [haddr₁]
    rw [hlist]
    exact hheap
  · rw [← hset]
    refine hf.exact_.congr (fun _ _ => rfl) (fun u hu => ?_) fun _ _ => rfl
    obtain ⟨hne, huL, hun⟩ := hother.mp hu
    exact hcount u huL hne hun
  · intro u
    by_cases hne : u = r
    · subst hne
      rw [if_pos (by simp)]
      exact lookup_set_self h0 (by
        have hlen : s'.refTable.length = s.refTable.length := hf.length.trans (by rw [hs₁])
        omega) 0
    · have hu : (s'.release r).addr u = s'.addr u := htable u hne
      rw [hu, hf.addr, haddr₁]
      simp [hne]
  · have hlen : s'.refTable.length = s.refTable.length := hf.length.trans (by rw [hs₁])
    exact (List.length_set ..).trans hlen
  · intro x hx
    have hxr := hx r hr
    have hlast : (s'.release r).mem x = s'.mem x := by
      rw [hrelease]
      exact honly x hxr
    have hcountx : s₁.mem x = s.mem x := by
      rw [hs₁]
      exact (h.writesTo_count hr 0).only x hxr
    rw [hlast, hf.frame x, hcountx]
    intro u hu
    obtain ⟨-, hu⟩ := hmem.mp hu
    rw [haddr₁, hsize₁ u hu]
    exact hx u hu
  · intro u hu
    by_cases hne : u = r
    · subst hne
      rw [hrelease]
      exact hsize'.trans (hsize u hu)
    · have h24u := h24 u hu
      rw [valueSize_congr ((hagree u hu hne).mono (by omega) (by omega)), hsize u hu]
  · intro u hu hun
    simp only [List.mem_append, List.mem_singleton, not_or] at hun
    exact hkept u hu hun.2 hun.1
  · intro u hu hun
    simp only [List.mem_append, List.mem_singleton, not_or] at hun
    rw [hcount u hu hun.2 hun.1, ← hcount₁ u hu hun.2]
    exact hf.count_le u (hmem.mpr ⟨hun.2, hu⟩) hun.1
  · intro u hu hun hpos
    simp only [List.mem_append, List.mem_singleton, not_or] at hun
    rw [hcount u hu hun.2 hun.1]
    rw [← hcount₁ u hu hun.2] at hpos
    exact hf.count_pos u (hmem.mpr ⟨hun.2, hu⟩) hun.1 hpos
  · intro u hu
    rcases List.mem_append.mp hu with hu | hu
    · refine (hf.garbage u hu).of_subset (Finset.erase_subset r L) (fun w hw hw' => ?_)
        (fun w hw => ?_) fun _ hw => hw
      · have hwr : w = r := by
          by_contra hne
          exact hw' (hmem.mpr ⟨hne, hw⟩)
        exact hwr ▸ hdead
      · obtain ⟨hne, hw⟩ := hmem.mp hw
        rw [hcount₁ w hw hne]
    · exact List.mem_singleton.mp hu ▸ hdead
  · rw [State.release, hf.rest, hs₁]

/-- Enough fuel to release what `L` refers to, whose values have at most `width` fields. -/
def Fuel (E : Stop → Prop) (L : Finset Int) (s : State) (n : Nat) : Prop :=
  E .outOfFuel ∨ ∃ width, (∀ u ∈ L, (s.fields u).length ≤ width) ∧ L.card + width + 2 ≤ n

def FieldsOf (L : Finset Int) (refs : Int → List Int) (ext : Int → Nat) (s : State) : Prop :=
  ∀ u, Garbage L refs s.count ext u → refs u = s.fields u

theorem Freed.fields_eq (hf : Freed L refs fl ext s gone s') (h : Heap L refs fl s) (hu : u ∈ L)
    (hun : u ∉ gone) : s'.fields u = s.fields u := by
  rw [State.fields, hf.addr_of_not_mem hun, (hf.kept u hu hun).fields_eq (h.live u hu).2]
  rfl

theorem Freed.fieldsOf {l : List Int} (hf : Freed L refs fl (plus ext l) s gone s')
    (h : Heap L refs fl s) (hext : ∀ u, Garbage L refs s.count ext u → refs u = s.fields u) :
    FieldsOf (L \ gone.toFinset) refs ext s' := by
  intro u hu
  have hmem : u ∈ L ∧ u ∉ gone := by simpa using hu.mem
  rw [hf.fields_eq h hmem.1 hmem.2]
  refine hext u (hu.of_subset Finset.sdiff_subset (fun w hw hw' => ?_) (fun w hw => ?_)
    fun _ hw => hw)
  · have hwgone : w ∈ gone := by
      by_contra hwgone
      exact hw' (by simp [hw, hwgone])
    exact (hf.garbage w hwgone).of_subset (Finset.Subset.refl L)
      (fun x hx hx' => absurd hx hx') (fun _ _ => le_rfl) fun x hx => by
        rw [plus_apply] at hx
        omega
  · have hw' : w ∈ L ∧ w ∉ gone := by simpa using hw
    exact hf.count_le w hw'.1 hw'.2

theorem decref_special (h : IsSpecial r) : decref (n + 1) r s = .ok ((), s) := by
  rw [decref, if_pos (show r = nullRef ∨ r = tombstoneRef from h)]
  rfl

theorem Freed.decrement (h : Heap L refs fl s) (hr : r ∈ L)
    (hx : Exact L refs s.count (plus ext [r])) (h1 : s.count r ≠ 1) :
    Freed L refs fl ext s []
      { s with mem := Subpython.storeCount s.mem (s.addr r) (s.count r - 1) } := by
  have hpos := hx.count_pos hr (List.mem_singleton_self r)
  have hlt := s.count_lt r
  have hcount : ∀ u ∈ L, State.count { s with
      mem := Subpython.storeCount s.mem (s.addr r) (s.count r - 1) } u =
        if u = r then s.count r - 1 else s.count u :=
    fun u hu => h.count_with_count hr hu (by omega)
  constructor
  · exact List.nodup_nil
  · simp
  · simpa using h.with_count hr (s.count r - 1)
  · simpa using hx.decrement hcount
  · intro u
    rfl
  · rfl
  · intro x hx'
    exact (h.writesTo_count hr _).only x (hx' r hr)
  · intro u hu
    exact (h.kept_count hr hu _).valueSize_eq (h.live u hu).1.2.2
  · intro u hu _
    exact h.kept_count hr hu _
  · intro u hu _
    rw [hcount u hu]
    split_ifs with hne
    · subst hne
      omega
    · exact le_rfl
  · intro u hu _ hu0
    rw [hcount u hu]
    split_ifs with hne
    · omega
    · exact hu0
  · simp
  · rfl

theorem decref_freed (h : Heap L refs fl s) (hx : Exact L refs s.count (plus ext [r]))
    (hr : IsSpecial r ∨ r ∈ L) (hrefs : FieldsOf L refs ext s) (hfuel : Fuel E L s n) :
    wp (decref n r) E (fun _ s' => ∃ gone, Freed L refs fl ext s gone s') s := by
  induction n generalizing L fl ext s r with
  | zero =>
    rcases hfuel with hE | ⟨width, -, hlt⟩
    · exact hE
    · omega
  | succ n ih =>
    by_cases hspecial : IsSpecial r
    · refine wp_of_ok (decref_special hspecial) ⟨[], .nil h (hx.congr (fun _ _ => rfl)
        (fun _ _ => rfl) fun u hu => ?_)⟩
      have hne : u ≠ r := by
        rintro rfl
        have h0 := (h.table u hu).1
        rcases hspecial with rfl | rfl
        · exact absurd h0 (by decide)
        · exact absurd h0 (by decide)
      rw [plus_apply, List.count_eq_zero_of_not_mem (by simpa using hne), Nat.add_zero]
    have hr := hr.resolve_left hspecial
    have hpos : 0 < refCount s.mem (s.addr r) := hx.count_pos hr (List.mem_singleton_self r)
    have hlt := s.count_lt r
    have hone : s.count r = refCount s.mem (s.addr r) := rfl
    rw [decref, if_neg (show ¬(r = nullRef ∨ r = tombstoneRef) from hspecial),
      wp_bind_of_ok (deref_eq h hr), wp_bind, modifyMem, wp_modify, if_pos hpos, wp_bind, wp_reads,
      ← hone]
    dsimp only
    rw [refCount_storeCount _ _ (by omega), wp_ite]
    refine ⟨fun h0 => ?_, fun h0 => ⟨[], .decrement h hr hx (by omega)⟩⟩
    rw [h0]
    have h1 : s.count r = 1 := by omega
    generalize hs₁ : ({ s with mem := storeCount s.mem (s.addr r) 0 } : State) = s₁
    have haddr₁ : ∀ u, s₁.addr u = s.addr u := fun u => by rw [← hs₁]; rfl
    have hkept₁ : ∀ u ∈ L, Kept s.mem s₁.mem (s.addr u) := fun u hu => hs₁ ▸ h.kept_count hr hu 0
    have hfields₁ : ∀ u ∈ L, s₁.fields u = s.fields u := fun u hu => by
      rw [State.fields, haddr₁]
      exact (hkept₁ u hu).fields_eq (h.live u hu).2
    have hcount₁ : ∀ u ∈ L, s₁.count u = if u = r then s.count r - 1 else s.count u :=
      fun u hu => by rw [← hs₁, h.count_with_count hr hu (by decide), h0]
    obtain ⟨hext, hunref⟩ := hx.last hr h1
    have hdead : Garbage L refs s.count ext r :=
      .intro hr (by omega) hext fun u hu hmem => absurd hmem (hunref u hu)
    have hrefs₁ : fields s₁.mem (s.addr r) = refs r := by
      rw [hrefs r hdead]
      exact (hkept₁ r hr).fields_eq (h.live r hr).2
    have hmem : ∀ {u}, u ∈ L.erase r ↔ u ≠ r ∧ u ∈ L := Finset.mem_erase
    have hclosed : ∀ x ∈ refs r, IsSpecial x ∨ x ∈ L.erase r := fun x hx' =>
      (h.closed r hr x hx').imp_right fun hxL => hmem.mpr ⟨fun hxr => hunref r hr (hxr ▸ hx'), hxL⟩
    have hheap₀ : Heap L refs fl s₁ := hs₁ ▸ h.with_count hr 0
    have hheap₁ : Heap (L.erase r) refs fl s₁ :=
      hheap₀.subset (Finset.erase_subset r L) fun u hu x hx' => by
        have huL := (hmem.mp hu).2
        exact (h.closed u huL x hx').imp_right fun hxL =>
          hmem.mpr ⟨fun hxr => hunref u huL (hxr ▸ hx'), hxL⟩
    have hx₁ : Exact (L.erase r) refs s₁.count (plus ext (refs r)) :=
      (hx.decrement hcount₁).remove hr
    -- the fields that are left to release count as references from outside
    let J : List Int → State → Prop := fun l s' => (∀ x ∈ l, x ∈ refs r) ∧
      ∃ gone, Freed (L.erase r) refs fl (plus ext l) s₁ gone s'
    have hblock : ∀ l s', J l s' → Agree s₁.mem s'.mem (s.addr r)
        (s.addr r + valueSize s.mem (s.addr r)) := by
      rintro l s' ⟨-, gone, hf⟩ x hlo hhi
      refine hf.frame x fun u hu => ?_
      obtain ⟨hne, hu⟩ := hmem.mp hu
      rw [haddr₁, (hkept₁ u hu).valueSize_eq (h.live u hu).1.2.2]
      rcases h.live_apart r hr u hu (Ne.symm hne) with hlt | hlt <;> omega
    have hJ : ∀ l s', J l s' →
        Agree s₁.mem s'.mem (s.addr r + 24) (s.addr r + extent s₁.mem (s.addr r)) :=
      fun l s' hl => (hblock l s' hl).mono (by omega) (by
        have hroom := (h.live r hr).2
        rw [(hkept₁ r hr).extent_eq hroom]
        omega)
    have hstep : ∀ x l s', J (x :: l) s' → wp (decref n x) E (fun _ => J l) s' := by
      rintro x l s' ⟨hl, gone, hf⟩
      have hperm : plus ext (x :: l) = plus (plus ext l) [x] := by
        rw [plus_plus]
        exact plus_perm (List.perm_append_comm : ([x] ++ l).Perm (l ++ [x])) ext
      have hx' : IsSpecial x ∨ x ∈ L.erase r \ gone.toFinset := by
        refine (hclosed x (hl x (by simp))).imp_right fun hxL => ?_
        have hgone := hf.not_mem (u := x) (by rw [plus_apply, List.count_cons_self]; omega)
        simpa [hgone] using hxL
      refine (ih hf.heap (hperm ▸ hf.exact_) hx' (Freed.fieldsOf (l := [x]) (hperm ▸ hf) hheap₁ ?_)
        ?_).post fun _ s'' ⟨gone', hf'⟩ => ⟨fun y hy => hl y (by simp [hy]), gone ++ gone', ?_⟩
      · intro u hu
        rw [hfields₁ u (hmem.mp hu.mem).2]
        refine hrefs u (hu.of_subset (Finset.erase_subset r L) (fun w hw hw' => ?_) (fun w hw => ?_)
          fun w hw => by rw [plus_apply] at hw; omega)
        · have hwr : w = r := by
            by_contra hne
            exact hw' (hmem.mpr ⟨hne, hw⟩)
          exact hwr ▸ hdead
        · obtain ⟨hne, hw⟩ := hmem.mp hw
          rw [hcount₁ w hw, if_neg hne]
      · rcases hfuel with hE | ⟨width, hwidth, hle⟩
        · exact .inl hE
        · refine .inr ⟨width, fun u hu => ?_, ?_⟩
          · have hu' : (u ≠ r ∧ u ∈ L) ∧ u ∉ gone := by simpa using hu
            rw [hf.fields_eq hheap₁ (hmem.mpr hu'.1) hu'.2, hfields₁ u hu'.1.2]
            exact hwidth u hu'.1.2
          · have hcard : (L.erase r \ gone.toFinset).card ≤ (L.erase r).card :=
              Finset.card_le_card Finset.sdiff_subset
            rw [Finset.card_erase_of_mem hr] at hcard
            have hpos := Finset.card_pos.mpr ⟨r, hr⟩
            omega
      · refine hf.trans hf' (fun u hu => (hheap₁.live u hu).1.2.2) fun u hu => ?_
        rw [plus_apply] at hu ⊢
        rw [List.count_cons] at hu
        omega
    have hfuel₁ : E .outOfFuel ∨ (fields s₁.mem (s.addr r)).length < n := by
      refine hfuel.imp_right fun ⟨width, hwidth, hle⟩ => ?_
      have hlen := hwidth r hr
      have hpos := Finset.card_pos.mpr ⟨r, hr⟩
      rw [hrefs₁, hrefs r hdead]
      omega
    have hwalk := recurse_spec hJ hstep (hrefs₁ ▸ ⟨fun _ hx' => hx', [], .nil hheap₁ hx₁⟩) hfuel₁
    refine hwalk.bind fun _ s' hs' => ?_
    have hsize : valueSize s'.mem (s.addr r) = valueSize s.mem (s.addr r) := by
      have h24 := (h.live r hr).1.2.2
      rw [valueSize_congr ((hblock _ _ hs').mono (by omega) (by omega)),
        (hkept₁ r hr).valueSize_eq h24]
    obtain ⟨-, gone, hf⟩ := hs'
    have hv : s'.addr r = s.addr r := by
      rw [hf.addr_of_not_mem fun hr' => (hmem.mp (hf.subset r hr')).1 rfl, haddr₁]
    have hfree := mmFree_eq (s := { s' with refTable := s'.refTable.set r.toNat 0 })
      (v := s.addr r) (hsize ▸ (h.live r hr).1.2.2)
    rw [wp_bind, wp_modify]
    refine wp_of_ok hfree ⟨gone ++ [r], ?_⟩
    have hfinish := Freed.finish h hr hx h1 hs₁.symm hf
    rwa [State.release, hv] at hfinish

end CS24.Subpython
