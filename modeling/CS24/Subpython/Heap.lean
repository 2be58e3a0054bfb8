import CS24.Subpython.Refs
import CS24.Machine.RefCount

/-!
# Well-formed heaps

The live values of a heap, given by their references, and the free list lie in disjoint
blocks of the pool. What the interpreter reads of a value are bytes of its block, so a
write to one block leaves the others as they are. The fields that `recurse` visits are
taken from a parameter, which may differ from memory while a field is about to change.
-/

namespace CS24.Subpython
open Machine Mem RefCount

variable {m m' : Mem} {v n i lo hi : Nat} {s s' : State} {L : Finset Int}
  {refs : Int → List Int} {fl : List Nat} {r u : Int}

/-- The references that `recurse` visits, in its order. -/
def fields (m : Mem) (v : Nat) : List Int :=
  match typeOf m v with
  | some .list => [listValues m v]
  | some .dict => [dictKeys m v, dictValues m v]
  | some .refArray => (List.range (capacity m v)).map (slot m v)
  | _ => []

def extent (m : Mem) (v : Nat) : Nat :=
  match typeOf m v with
  | some .list => 40
  | some .dict => 48
  | some .refArray => 32 + 4 * capacity m v
  | _ => 24

theorem loadRef_congr (h : Agree m m' v (v + 4)) : loadRef m' v = loadRef m v :=
  congrArg (fun n : Nat => (n : Int).bmod (2 ^ 32)) (load32_congr h)

theorem loadRef_storeRef (m : Mem) (v : Nat) (h₁ : -2 ^ 31 ≤ r) (h₂ : r < 2 ^ 31) :
    loadRef (storeRef m v r) v = r := by
  have hlt : (r % 2 ^ 32).toNat < 2 ^ 32 := by omega
  have hload : load32 (storeRef m v r) v = (r % 2 ^ 32).toNat := load32_store32_same hlt
  have hmod : (((r % 2 ^ 32).toNat : Nat) : Int) = r % (2 ^ 32 : Nat) :=
    Int.toNat_of_nonneg (Int.emod_nonneg _ (by decide))
  unfold loadRef
  rw [hload, hmod, Int.emod_bmod]
  exact Int.bmod_eq_of_le (by omega) (by omega)

theorem typeOf_congr (h : Agree m m' v (v + 4)) : typeOf m' v = typeOf m v := by
  rw [typeOf, load32_congr h, typeOf]

theorem refCount_congr (h : Agree m m' (v + 8) (v + 16)) : refCount m' v = refCount m v :=
  load64_congr h

theorem valueSize_congr (h : Agree m m' (v + 16) (v + 24)) : valueSize m' v = valueSize m v :=
  load64_congr h

theorem capacity_congr (h : Agree m m' (v + 24) (v + 32)) : capacity m' v = capacity m v :=
  load64_congr h

theorem slot_congr (h : Agree m m' (slotAddress v i) (slotAddress v i + 4)) :
    slot m' v i = slot m v i :=
  loadRef_congr h

structure Kept (m m' : Mem) (v : Nat) : Prop where
  type : Agree m m' v (v + 8)
  rest : Agree m m' (v + 16) (v + valueSize m v)

theorem Kept.refl : Kept m m v := ⟨.refl, .refl⟩

theorem Kept.typeOf_eq (h : Kept m m' v) : typeOf m' v = typeOf m v :=
  typeOf_congr (h.type.mono le_rfl (by omega))

theorem Kept.valueSize_eq (h : Kept m m' v) (hs : 24 ≤ valueSize m v) :
    valueSize m' v = valueSize m v :=
  valueSize_congr (h.rest.mono le_rfl (by omega))

theorem Kept.trans {m'' : Mem} (h : Kept m m' v) (h' : Kept m' m'' v) (hs : 24 ≤ valueSize m v) :
    Kept m m'' v :=
  ⟨h.type.trans h'.type, h.rest.trans (h.valueSize_eq hs ▸ h'.rest)⟩

theorem Kept.of_agree (h : Agree m m' v (v + valueSize m v)) (hs : 24 ≤ valueSize m v) :
    Kept m m' v :=
  ⟨h.mono le_rfl (by omega), h.mono (by omega) le_rfl⟩

theorem extent_congr (ht : Agree m m' v (v + 4)) (h : Agree m m' (v + 24) (v + extent m v)) :
    extent m' v = extent m v := by
  unfold extent at h ⊢
  rw [typeOf_congr ht]
  split at h
  · rfl
  · rfl
  · rw [capacity_congr (h.mono le_rfl (by omega))]
  · rfl

theorem fields_congr (ht : Agree m m' v (v + 4)) (h : Agree m m' (v + 24) (v + extent m v)) :
    fields m' v = fields m v := by
  unfold extent at h
  unfold fields
  rw [typeOf_congr ht]
  split at h
  · exact congrArg (fun x => [x]) (loadRef_congr (h.mono (by omega) (by omega)))
  · have hk : dictKeys m' v = dictKeys m v := loadRef_congr (h.mono (by omega) (by omega))
    have hv : dictValues m' v = dictValues m v := loadRef_congr (h.mono (by omega) (by omega))
    rw [hk, hv]
  · rw [capacity_congr (h.mono le_rfl (by omega))]
    refine List.map_congr_left fun i hi => slot_congr (h.mono ?_ ?_)
    · unfold slotAddress
      omega
    · have := List.mem_range.mp hi
      unfold slotAddress
      omega
  · rfl

theorem Kept.fields_eq (h : Kept m m' v) (he : extent m v ≤ valueSize m v) :
    fields m' v = fields m v :=
  fields_congr (h.type.mono le_rfl (by omega)) (h.rest.mono (by omega) (by omega))

theorem Kept.extent_eq (h : Kept m m' v) (he : extent m v ≤ valueSize m v) :
    extent m' v = extent m v :=
  extent_congr (h.type.mono le_rfl (by omega)) (h.rest.mono (by omega) (by omega))

/-- The free values from `a` on, in the order of their links. -/
def Chain (m : Mem) : Nat → List Nat → Prop
  | a, [] => a = 0
  | a, b :: l => a = b ∧ b ≠ 0 ∧ typeOf m b = some .free ∧ Chain m (nextFree m b) l

theorem Chain.congr (h : Chain m n fl) (hm : ∀ b ∈ fl, Agree m m' b (b + 16)) : Chain m' n fl := by
  induction fl generalizing n with
  | nil => exact h
  | cons b fl ih =>
    obtain ⟨rfl, h0, hfree, hrest⟩ := h
    have hb := hm n (by simp)
    have hnext : nextFree m' n = nextFree m n := load64_congr (hb.mono (by omega) (by omega))
    refine ⟨rfl, h0, (typeOf_congr (hb.mono le_rfl (by omega))).trans hfree, ?_⟩
    rw [hnext]
    exact ih hrest fun c hc => hm c (by simp [hc])

/-- The address of the value of a reference. -/
def State.addr (s : State) (r : Int) : Nat := lookup s.refTable r

def State.count (s : State) (r : Int) : Nat := refCount s.mem (s.addr r)

def State.fields (s : State) (r : Int) : List Int := Subpython.fields s.mem (s.addr r)

def InPool (s : State) (b : Nat) : Prop :=
  s.memoryPool ≤ b ∧ b + valueSize s.mem b ≤ s.memoryPool + s.memorySize ∧
    24 ≤ valueSize s.mem b

def Apart (m : Mem) (b c : Nat) : Prop := b + valueSize m b ≤ c ∨ c + valueSize m c ≤ b

/-- A reference that no value belongs to. -/
def IsSpecial (r : Int) : Prop := r = nullRef ∨ r = tombstoneRef

instance (r : Int) : Decidable (IsSpecial r) := inferInstanceAs (Decidable (_ ∨ _))

structure Heap (L : Finset Int) (refs : Int → List Int) (fl : List Nat)
    (s : State) : Prop where
  pool_pos : 0 < s.memoryPool
  pool_end : s.memoryPool + s.memorySize < 2 ^ 64
  table : ∀ r ∈ L, 0 ≤ r ∧ r < s.refTable.length
  live : ∀ r ∈ L, InPool s (s.addr r) ∧ extent s.mem (s.addr r) ≤ valueSize s.mem (s.addr r)
  free : ∀ b ∈ fl, InPool s b
  live_apart : ∀ r ∈ L, ∀ u ∈ L, r ≠ u → Apart s.mem (s.addr r) (s.addr u)
  free_apart : ∀ r ∈ L, ∀ b ∈ fl, Apart s.mem (s.addr r) b
  chain_apart : fl.Pairwise (Apart s.mem)
  chain : Chain s.mem s.freeList fl
  closed : ∀ r ∈ L, ∀ x ∈ refs r, IsSpecial x ∨ x ∈ L

theorem Apart.congr {b c : Nat} (h : Apart m b c) (hb : valueSize m' b = valueSize m b)
    (hc : valueSize m' c = valueSize m c) : Apart m' b c := by
  rwa [Apart, hb, hc]

theorem Apart.symm {b c : Nat} (h : Apart m b c) : Apart m c b := Or.symm h

theorem Apart.shrink {b c : Nat} (h : Apart m b c) (hb : valueSize m' b ≤ valueSize m b)
    (hc : valueSize m' c ≤ valueSize m c) : Apart m' b c := by
  unfold Apart at h ⊢
  omega

theorem Heap.reshape (h : Heap L refs fl s) (hpool : s'.memoryPool = s.memoryPool)
    (hend : s'.memorySize = s.memorySize) (hlen : s.refTable.length ≤ s'.refTable.length)
    (haddr : ∀ u ∈ L, s'.addr u = s.addr u)
    (hsize : ∀ u ∈ L, valueSize s'.mem (s.addr u) = valueSize s.mem (s.addr u))
    (hext : ∀ u ∈ L, extent s'.mem (s.addr u) ≤ valueSize s.mem (s.addr u))
    (hfree : ∀ b ∈ fl, 24 ≤ valueSize s'.mem b ∧ valueSize s'.mem b ≤ valueSize s.mem b)
    (hchain : Chain s'.mem s'.freeList fl) : Heap L refs fl s' := by
  constructor
  · exact hpool ▸ h.pool_pos
  · rw [hpool, hend]
    exact h.pool_end
  · intro u hu
    have htable := h.table u hu
    omega
  · intro u hu
    have hin := (h.live u hu).1
    unfold InPool at hin ⊢
    rw [haddr u hu, hsize u hu, hpool, hend]
    exact ⟨hin, hext u hu⟩
  · intro b hb
    have hin := h.free b hb
    have hshrink := hfree b hb
    unfold InPool at hin ⊢
    rw [hpool, hend]
    omega
  · intro u hu w hw hne
    rw [haddr u hu, haddr w hw]
    exact (h.live_apart u hu w hw hne).congr (hsize u hu) (hsize w hw)
  · intro u hu b hb
    rw [haddr u hu]
    exact (h.free_apart u hu b hb).shrink (hsize u hu).le (hfree b hb).2
  · exact h.chain_apart.imp_of_mem fun hb hc hbc => hbc.shrink (hfree _ hb).2 (hfree _ hc).2
  · exact hchain
  · exact h.closed

theorem Heap.transfer (h : Heap L refs fl s) (hpool : s'.memoryPool = s.memoryPool)
    (hend : s'.memorySize = s.memorySize) (hlen : s.refTable.length ≤ s'.refTable.length)
    (haddr : ∀ u ∈ L, s'.addr u = s.addr u)
    (hsize : ∀ u ∈ L, valueSize s'.mem (s.addr u) = valueSize s.mem (s.addr u))
    (hext : ∀ u ∈ L, extent s'.mem (s.addr u) ≤ valueSize s.mem (s.addr u))
    (hhead : s'.freeList = s.freeList) (hfree : ∀ b ∈ fl, Agree s.mem s'.mem b (b + 24)) :
    Heap L refs fl s' := by
  refine h.reshape hpool hend hlen haddr hsize hext (fun b hb => ?_) ?_
  · have hsame : valueSize s'.mem b = valueSize s.mem b :=
      valueSize_congr ((hfree b hb).mono (by omega) le_rfl)
    rw [hsame]
    exact ⟨(h.free b hb).2.2, le_rfl⟩
  · rw [hhead]
    exact h.chain.congr fun b hb => (hfree b hb).mono le_rfl (by omega)

theorem Heap.with_refs (h : Heap L refs fl s) {refs' : Int → List Int}
    (hclosed : ∀ u ∈ L, ∀ x ∈ refs' u, IsSpecial x ∨ x ∈ L) : Heap L refs' fl s :=
  ⟨h.pool_pos, h.pool_end, h.table, h.live, h.free, h.live_apart, h.free_apart, h.chain_apart,
    h.chain, hclosed⟩

theorem Heap.subset (h : Heap L refs fl s) {L' : Finset Int} (hL : L' ⊆ L)
    (hclosed : ∀ u ∈ L', ∀ x ∈ refs u, IsSpecial x ∨ x ∈ L') : Heap L' refs fl s :=
  ⟨h.pool_pos, h.pool_end, fun r hr => h.table r (hL hr), fun r hr => h.live r (hL hr), h.free,
    fun r hr u hu => h.live_apart r (hL hr) u (hL hu), fun r hr => h.free_apart r (hL hr),
    h.chain_apart, h.chain, hclosed⟩

structure WritesTo (s : State) (r : Int) (m' : Mem) : Prop where
  only : ChangesOnly s.mem m' (s.addr r) (valueSize s.mem (s.addr r))
  size : valueSize m' (s.addr r) = valueSize s.mem (s.addr r)

theorem Heap.agree_live (h : Heap L refs fl s) (hr : r ∈ L) (hw : WritesTo s r m') (hu : u ∈ L)
    (hne : u ≠ r) : Agree s.mem m' (s.addr u) (s.addr u + valueSize s.mem (s.addr u)) :=
  hw.only.agree (h.live_apart u hu r hr hne)

theorem Heap.write (h : Heap L refs fl s) (hr : r ∈ L) (hw : WritesTo s r m')
    (he : extent m' (s.addr r) ≤ valueSize s.mem (s.addr r)) :
    Heap L refs fl { s with mem := m' } := by
  refine h.transfer rfl rfl le_rfl (fun _ _ => rfl) (fun u hu => ?_) (fun u hu => ?_) rfl
    fun b hb => ?_
  · by_cases hne : u = r
    · rw [hne, hw.size]
    · have hin := (h.live u hu).1.2.2
      exact valueSize_congr ((h.agree_live hr hw hu hne).mono (by omega) (by omega))
  · by_cases hne : u = r
    · rwa [hne]
    · obtain ⟨⟨-, -, hin⟩, hext⟩ := h.live u hu
      have hagree := h.agree_live hr hw hu hne
      have hext' : extent m' (s.addr u) = extent s.mem (s.addr u) :=
        extent_congr (hagree.mono le_rfl (by omega)) (hagree.mono (by omega) (by omega))
      exact hext'.symm ▸ hext
  · have hin := (h.free b hb).2.2
    exact (hw.only.agree (h.free_apart r hr b hb).symm).mono le_rfl (by omega)

theorem typeOf_storeType (m : Mem) (v : Nat) (t : ValueType) :
    typeOf (storeType m v t) v = some t := by
  have hload : load32 (storeType m v t) v = t.code := load32_store32_same t.code_lt
  rw [typeOf, hload, ValueType.ofCode_code]

theorem nextFree_storeNext (m : Mem) (v : Nat) {a : Nat} (ha : a < 2 ^ 64) :
    nextFree (storeNext m v a) v = a :=
  load64_store64_same ha

theorem valueSize_storeSize (m : Mem) (v : Nat) {a : Nat} (ha : a < 2 ^ 64) :
    valueSize (storeSize m v a) v = a := by
  have hload : valueSize (storeSize m v a) v = a % 2 ^ 64 :=
    load64_store64_same (Nat.mod_lt _ (by decide))
  rw [hload, Nat.mod_eq_of_lt ha]

theorem refCount_storeCount (m : Mem) (v : Nat) {a : Nat} (ha : a < 2 ^ 64) :
    refCount (storeCount m v a) v = a := by
  have hload : refCount (storeCount m v a) v = a % 2 ^ 64 :=
    load64_store64_same (Nat.mod_lt _ (by decide))
  rw [hload, Nat.mod_eq_of_lt ha]

theorem dataSize_eq (h : 24 ≤ valueSize m v) : dataSize m v = valueSize m v - 24 := by
  have hlt : valueSize m v < 2 ^ 64 := load64_lt m _
  unfold dataSize headerSize
  omega

theorem lookup_set_ne {t : List Nat} (hr : 0 ≤ r) (hu : u ≠ r) (a : Nat) :
    lookup (t.set r.toNat a) u = lookup t u := by
  unfold lookup
  split_ifs with h0
  · have hne : r.toNat ≠ u.toNat := by omega
    rw [List.getD_eq_getElem?_getD, List.getElem?_set_ne hne, ← List.getD_eq_getElem?_getD]
  · rfl

theorem lookup_set_self {t : List Nat} (hr : 0 ≤ r) (hlt : r < t.length) (a : Nat) :
    lookup (t.set r.toNat a) r = a := by
  unfold lookup
  rw [if_pos hr, List.getD_eq_getElem?_getD, List.getElem?_set_self (by omega)]
  rfl

theorem Heap.freeList_lt (h : Heap L refs fl s) : s.freeList < 2 ^ 64 := by
  have hend := h.pool_end
  have hchain := h.chain
  cases fl with
  | nil =>
    rw [show s.freeList = 0 from hchain]
    decide
  | cons b fl =>
    obtain ⟨hb, -⟩ := hchain
    obtain ⟨-, hle, -⟩ := h.free b (by simp)
    omega

/-- The memory that `mm_free` leaves. -/
def freed (m : Mem) (head v : Nat) : Mem :=
  fill (storeNext (storeType m v .free) v head) (v + 24) 0xCC (valueSize m v - 24)

theorem changesOnly_storeType (m : Mem) (v : Nat) (t : ValueType) :
    ChangesOnly m (storeType m v t) v 4 :=
  changesOnly_store32 m v _

theorem changesOnly_storeNext (m : Mem) (v a : Nat) : ChangesOnly m (storeNext m v a) (v + 8) 8 :=
  changesOnly_store64 m _ _

theorem changesOnly_storeSize (m : Mem) (v a : Nat) : ChangesOnly m (storeSize m v a) (v + 16) 8 :=
  changesOnly_store64 m _ _

theorem changesOnly_storeCount (m : Mem) (v a : Nat) :
    ChangesOnly m (storeCount m v a) (v + 8) 8 :=
  changesOnly_store64 m _ _

theorem changesOnly_storeRef (m : Mem) (a : Nat) (x : Int) : ChangesOnly m (storeRef m a x) a 4 :=
  changesOnly_store32 m _ _

theorem freed_spec (hv : 24 ≤ valueSize m v) {head : Nat} (hhead : head < 2 ^ 64) :
    ChangesOnly m (freed m head v) v (valueSize m v) ∧ typeOf (freed m head v) v = some .free ∧
      nextFree (freed m head v) v = head ∧ valueSize (freed m head v) v = valueSize m v := by
  have h₁ := changesOnly_storeType m v .free
  have h₂ := changesOnly_storeNext (storeType m v .free) v head
  have h₃ := changesOnly_fill (storeNext (storeType m v .free) v head) (v + 24) 0xCC
    (valueSize m v - 24)
  refine ⟨?_, ?_, ?_, ?_⟩
  · exact ((h₁.mono le_rfl (by omega)).trans (h₂.mono (by omega) (by omega))).trans
      (h₃.mono (by omega) (by omega))
  · rw [freed, typeOf_congr (h₃.agree (.inl (by omega))), typeOf_congr (h₂.agree (.inl (by omega))),
      typeOf_storeType]
  · have hkeep : nextFree (freed m head v) v =
        nextFree (storeNext (storeType m v .free) v head) v :=
      load64_congr (h₃.agree (.inl (by omega)))
    rw [hkeep, nextFree_storeNext _ _ hhead]
  · rw [freed, valueSize_congr (h₃.agree (.inl (by omega))),
      valueSize_congr (h₂.agree (.inr (by omega))), valueSize_congr (h₁.agree (.inr (by omega)))]

theorem mmFree_eq (hv : 24 ≤ valueSize s.mem v) :
    mmFree v s = .ok ((), { s with mem := freed s.mem s.freeList v, freeList := v }) := by
  have h₁ := changesOnly_storeType s.mem v .free
  have h₂ := changesOnly_storeNext (storeType s.mem v .free) v s.freeList
  have hsize : valueSize (storeNext (storeType s.mem v .free) v s.freeList) v =
      valueSize s.mem v := by
    rw [valueSize_congr (h₂.agree (.inr (by omega))), valueSize_congr (h₁.agree (.inr (by omega)))]
  have hdata := dataSize_eq (hsize.symm ▸ hv)
  rw [hsize] at hdata
  rw [freed, ← hdata]
  rfl

theorem Heap.mmFree (h : Heap L refs fl s) (hin : InPool s v)
    (hlive : ∀ u ∈ L, Apart s.mem v (s.addr u)) (hfree : ∀ b ∈ fl, Apart s.mem v b) :
    Heap L refs (v :: fl) { s with mem := freed s.mem s.freeList v, freeList := v } := by
  obtain ⟨honly, htype, hnext, hsize⟩ := freed_spec hin.2.2 h.freeList_lt
  have hpos := h.pool_pos
  have hkeep : Heap L refs fl { s with mem := freed s.mem s.freeList v } := h.transfer
    rfl rfl le_rfl
    (fun _ _ => rfl)
    (fun u hu => valueSize_congr ((honly.agree (hlive u hu).symm).mono (by omega) (by
      have := (h.live u hu).1.2.2
      omega)))
    (fun u hu => by
      obtain ⟨⟨-, -, hu24⟩, hext⟩ := h.live u hu
      have hagree := honly.agree (hlive u hu).symm
      rw [extent_congr (hagree.mono le_rfl (by omega)) (hagree.mono (by omega) (by omega))]
      exact hext)
    rfl
    (fun b hb => (honly.agree (hfree b hb).symm).mono le_rfl (by
      have := (h.free b hb).2.2
      omega))
  have hapart : ∀ b ∈ fl, Apart (freed s.mem s.freeList v) v b := fun b hb =>
    (hfree b hb).congr hsize (valueSize_congr ((honly.agree (hfree b hb).symm).mono (by omega) (by
      have := (h.free b hb).2.2
      omega)))
  have hinv : InPool { s with mem := freed s.mem s.freeList v } v := by
    unfold InPool at hin ⊢
    rwa [hsize]
  refine ⟨hkeep.pool_pos, hkeep.pool_end, hkeep.table, hkeep.live, ?_, hkeep.live_apart, ?_, ?_,
    ⟨rfl, by have := hin.1; omega, htype, ?_⟩, hkeep.closed⟩
  · exact List.forall_mem_cons.mpr ⟨hinv, hkeep.free⟩
  · intro u hu
    refine List.forall_mem_cons.mpr ⟨?_, hkeep.free_apart u hu⟩
    exact ((hlive u hu).congr hsize (valueSize_congr ((honly.agree (hlive u hu).symm).mono
      (by omega) (by have := (h.live u hu).1.2.2; omega)))).symm
  · exact List.pairwise_cons.mpr ⟨hapart, hkeep.chain_apart⟩
  · change Chain _ (nextFree (freed s.mem s.freeList v) v) fl
    rw [hnext]
    exact hkeep.chain

end CS24.Subpython
