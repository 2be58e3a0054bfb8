import CS24.Machine.Fuel
import CS24.Machine.Preorder
import CS24.Subpython.Release

/-!
# Copying a value

What `operate_global` needs of memory: a value keeps its fields when its bytes, apart from
the reference count, are found at another address, and `mm_malloc` takes a block from the
front of the only free one.
-/

namespace CS24.Subpython
open Machine Mem

variable {m m' m'' : Mem} {v v' b i n size rem : Nat} {s : State}

/-- The bytes of the value at `v`, apart from its reference count, are at `v'` in `m'`. -/
structure CopyOf (m m' : Mem) (v v' : Nat) : Prop where
  type : ∀ x < 8, m' (v' + x) = m (v + x)
  rest : ∀ x, 16 ≤ x → x < valueSize m v → m' (v' + x) = m (v + x)

namespace CopyOf

theorem load32_eq (h : CopyOf m m' v v') (hlo : 24 ≤ i) (hhi : i + 4 ≤ valueSize m v) :
    load32 m' (v' + i) = load32 m (v + i) := by
  unfold load32
  apply load_shift
  intro x hx
  rw [Nat.add_assoc, Nat.add_assoc]
  exact h.rest (i + x) (by omega) (by omega)

theorem load64_eq (h : CopyOf m m' v v') (hlo : 16 ≤ i) (hhi : i + 8 ≤ valueSize m v) :
    load64 m' (v' + i) = load64 m (v + i) := by
  unfold load64
  apply load_shift
  intro x hx
  rw [Nat.add_assoc, Nat.add_assoc]
  exact h.rest (i + x) (by omega) (by omega)

theorem typeOf_eq (h : CopyOf m m' v v') : typeOf m' v' = typeOf m v := by
  have hload : load32 m' v' = load32 m v := by
    unfold load32
    apply load_shift
    intro x hx
    exact h.type x (by omega)
  rw [typeOf, hload, typeOf]

theorem valueSize_eq (h : CopyOf m m' v v') (hs : 24 ≤ valueSize m v) :
    valueSize m' v' = valueSize m v := h.load64_eq le_rfl hs

theorem loadRef_eq (h : CopyOf m m' v v') (hlo : 24 ≤ i) (hhi : i + 4 ≤ valueSize m v) :
    loadRef m' (v' + i) = loadRef m (v + i) :=
  congrArg (fun n : Nat => (n : Int).bmod (2 ^ 32)) (h.load32_eq hlo hhi)

theorem extent_eq (h : CopyOf m m' v v') (he : extent m v ≤ valueSize m v) :
    extent m' v' = extent m v := by
  unfold extent at he ⊢
  rw [h.typeOf_eq]
  split at he
  · rfl
  · rfl
  · have hcap : capacity m' v' = capacity m v := h.load64_eq (by omega) (by omega)
    rw [hcap]
  · rfl

theorem fields_eq (h : CopyOf m m' v v') (he : extent m v ≤ valueSize m v) :
    fields m' v' = fields m v := by
  unfold extent at he
  unfold fields
  rw [h.typeOf_eq]
  split at he
  · have hvalues : listValues m' v' = listValues m v := h.loadRef_eq (by omega) (by omega)
    rw [hvalues]
  · have hkeys : dictKeys m' v' = dictKeys m v := h.loadRef_eq (by omega) (by omega)
    have hvalues : dictValues m' v' = dictValues m v := h.loadRef_eq (by omega) (by omega)
    rw [hkeys, hvalues]
  · have hcap : capacity m' v' = capacity m v := h.load64_eq (by omega) (by omega)
    rw [hcap]
    apply List.map_congr_left
    intro i hi
    have hlt := List.mem_range.mp hi
    unfold slot slotAddress
    rw [Nat.add_assoc, Nat.add_assoc]
    exact h.loadRef_eq (by omega) (by omega)
  · rfl

theorem of_agree (h : CopyOf m' m'' v v') (hm : Agree m m' v (v + valueSize m v))
    (hs : 24 ≤ valueSize m v) : CopyOf m m'' v v' where
  type x hx := by
    rw [h.type x hx]
    exact hm (v + x) (by omega) (by omega)
  rest x hlo hhi := by
    have hsize : valueSize m' v = valueSize m v :=
      valueSize_congr (hm.mono (by omega) (by omega))
    rw [h.rest x hlo (by omega)]
    exact hm (v + x) (by omega) (by omega)

theorem trans_kept (h : CopyOf m m' v v') (hs : 24 ≤ valueSize m v) (hk : Kept m' m'' v') :
    CopyOf m m'' v v' where
  type x hx := by
    rw [hk.type (v' + x) (by omega) (by omega)]
    exact h.type x hx
  rest x hlo hhi := by
    have hsize := h.valueSize_eq hs
    rw [hk.rest (v' + x) (by omega) (by omega)]
    exact h.rest x hlo hhi

theorem copy (m : Mem) {v v' : Nat} (hs : 24 ≤ valueSize m v) (c : Nat) :
    CopyOf m (storeCount (Mem.copy m v' v (valueSize m v)) v' c) v v' := by
  have hcount := changesOnly_storeCount (Mem.copy m v' v (valueSize m v)) v' c
  constructor
  · intro x hx
    rw [hcount (v' + x) (by omega), copy_inside (by omega)]
  · intro x hlo hhi
    rw [hcount (v' + x) (by omega), copy_inside hhi]

end CopyOf

/-- The free list has one block, of size `rem` at `b`. -/
structure OneFree (s : State) (b rem : Nat) : Prop where
  head : s.freeList = b
  pos : b ≠ 0
  type : typeOf s.mem b = some .free
  next : nextFree s.mem b = 0
  size : valueSize s.mem b = rem

theorem OneFree.congr {s' : State} (h : OneFree s b rem) (hhead : s'.freeList = s.freeList)
    (hm : Agree s.mem s'.mem b (b + 24)) : OneFree s' b rem where
  head := hhead.trans h.head
  pos := h.pos
  type := (typeOf_congr (hm.mono le_rfl (by omega))).trans h.type
  next := (load64_congr (hm.mono (by omega) (by omega))).trans h.next
  size := (valueSize_congr (hm.mono (by omega) (by omega))).trans h.size

section
variable {link : Link} {best : Option Link} {smallest : Nat}

theorem bestFitFrom_end (h : link.follow s = 0) :
    bestFitFrom size (n + 1) link best smallest s = .ok ((best, smallest), s) := by
  change (if link.follow s = 0 then _ else _ : M _) s = _
  rw [if_pos h]
  rfl

theorem bestFitFrom_take (h : link.follow s ≠ 0) (hfit : size ≤ valueSize s.mem (link.follow s))
    (hless : valueSize s.mem (link.follow s) < smallest) :
    bestFitFrom size (n + 1) link best smallest s =
      bestFitFrom size n (.next (link.follow s)) (some link)
        (valueSize s.mem (link.follow s)) s := by
  change (if link.follow s = 0 then _ else (if _ then _ else _) : M _) s = _
  rw [if_neg h, if_pos ⟨hfit, hless⟩]
  rfl

theorem bestFitFrom_pass (h : link.follow s ≠ 0)
    (hno : ¬(size ≤ valueSize s.mem (link.follow s) ∧
      valueSize s.mem (link.follow s) < smallest)) :
    bestFitFrom size (n + 1) link best smallest s =
      bestFitFrom size n (.next (link.follow s)) best smallest s := by
  change (if link.follow s = 0 then _ else (if _ then _ else _) : M _) s = _
  rw [if_neg h]
  exact congrFun (if_neg hno) s

theorem bestFitFrom_skip (h : link.follow s ≠ 0)
    (hfit : valueSize s.mem (link.follow s) < size) :
    bestFitFrom size (n + 1) link best smallest s =
      bestFitFrom size n (.next (link.follow s)) best smallest s :=
  bestFitFrom_pass h (by omega)

end

theorem bestFitFrom_one (h : OneFree s b rem) (hfit : size ≤ rem) (hrem : rem < 2 ^ 64 - 1) :
    bestFitFrom size (n + 2) .head none (2 ^ 64 - 1) s = .ok ((some .head, rem), s) := by
  have hfollow : Link.head.follow s = b := h.head
  have hne : Link.head.follow s ≠ 0 := hfollow ▸ h.pos
  have hnext : (Link.next b).follow s = 0 := h.next
  rw [bestFitFrom_take hne (by rw [hfollow, h.size]; exact hfit)
    (by rw [hfollow, h.size]; exact hrem), hfollow, h.size, bestFitFrom_end hnext]

theorem bestFitFrom_small (h : OneFree s b rem) (hfit : rem < size) :
    bestFitFrom size (n + 2) .head none (2 ^ 64 - 1) s = .ok ((none, 2 ^ 64 - 1), s) := by
  have hfollow : Link.head.follow s = b := h.head
  have hne : Link.head.follow s ≠ 0 := hfollow ▸ h.pos
  have hnext : (Link.next b).follow s = 0 := h.next
  rw [bestFitFrom_skip hne (by rw [hfollow, h.size]; exact hfit), hfollow, bestFitFrom_end hnext]

theorem memUsedFrom_end {used : Nat} : memUsedFrom (n + 1) 0 used s = .ok (used, s) := rfl

theorem memUsedFrom_next {a used : Nat} (h : a ≠ 0) : memUsedFrom (n + 1) a used s =
    memUsedFrom n (nextFree s.mem a) ((used + (2 ^ 64 - valueSize s.mem a)) % 2 ^ 64) s := by
  change (if a = 0 then _ else _ : M _) s = _
  rw [if_neg h]
  rfl

theorem memUsedFrom_chain {a used : Nat} {fl : List Nat} (h : Chain s.mem a fl)
    (hn : fl.length < n) (hle : (fl.map (valueSize s.mem)).sum ≤ used) (hlt : used < 2 ^ 64) :
    memUsedFrom n a used s = .ok (used - (fl.map (valueSize s.mem)).sum, s) := by
  induction fl generalizing n a used with
  | nil =>
    obtain ⟨n, rfl⟩ : ∃ k, n = k + 1 := ⟨n - 1, by rw [List.length_nil] at hn; omega⟩
    have ha : a = 0 := h
    rw [ha, memUsedFrom_end]
    rfl
  | cons b fl ih =>
    obtain ⟨rfl, h0, -, hrest⟩ := h
    rw [List.length_cons] at hn
    rw [List.map_cons, List.sum_cons] at hle ⊢
    obtain ⟨n, rfl⟩ : ∃ k, n = k + 1 := ⟨n - 1, by omega⟩
    have hused : (used + (2 ^ 64 - valueSize s.mem a)) % 2 ^ 64 = used - valueSize s.mem a := by
      omega
    rw [memUsedFrom_next h0, hused, ih hrest (by omega) (by omega) (by omega), Nat.sub_sub]

theorem memUsed_empty (h : s.freeList = 0) : memUsed (n + 2) s = .ok (s.memorySize, s) := by
  change memUsedFrom (n + 2) s.freeList s.memorySize s = _
  rw [h, memUsedFrom_end]

theorem memUsed_one (h : OneFree s b rem) (hle : rem ≤ s.memorySize)
    (hlt : s.memorySize < 2 ^ 64) : memUsed (n + 2) s = .ok (s.memorySize - rem, s) := by
  change memUsedFrom (n + 2) s.freeList s.memorySize s = _
  rw [h.head, memUsedFrom_next h.pos, h.next, h.size, memUsedFrom_end]
  have hused : (s.memorySize + (2 ^ 64 - rem)) % 2 ^ 64 = s.memorySize - rem := by omega
  rw [hused]

def State.split (s : State) (b size rem : Nat) : State :=
  { s with
    mem := storeSize (storeNext (storeType (storeSize s.mem b size) (b + size) .free)
      (b + size) (nextFree (storeType (storeSize s.mem b size) (b + size) .free) b))
      (b + size) (rem - size)
    freeList := b + size }

def State.take (s : State) (b size rem : Nat) : State :=
  if 24 < rem - size then s.split b size rem else { s with freeList := nextFree s.mem b }

theorem mmMalloc_one (h : OneFree s b rem) (hfit : size ≤ rem) (hrem : rem < 2 ^ 64 - 1) :
    mmMalloc (n + 2) size s = .ok (b, s.take b size rem) := by
  have hfollow : Link.head.follow s = b := h.head
  have hread : (reads fun s => Link.head.follow s : M Nat) s = .ok (b, s) := by
    rw [← hfollow]
    rfl
  rw [mmMalloc, bind_of_ok (bestFitFrom_one h hfit hrem)]
  dsimp only
  rw [bind_of_ok hread, State.take]
  by_cases hsplit : 24 < rem - size
  · rw [if_pos hsplit]
    exact congrFun (if_pos hsplit) s
  · rw [if_neg hsplit]
    exact congrFun (if_neg hsplit) s

theorem State.take_rest : s.take b size rem =
    { s with mem := (s.take b size rem).mem, freeList := (s.take b size rem).freeList } := by
  unfold State.take
  split_ifs
  · rfl
  · rfl

theorem State.take_changes (hsize : 24 ≤ size) (hfit : size ≤ rem) :
    ChangesOnly s.mem (s.take b size rem).mem b rem := by
  unfold State.take
  split_ifs with hsplit
  · have h₁ := changesOnly_storeSize s.mem b size
    have h₂ := changesOnly_storeType (storeSize s.mem b size) (b + size) .free
    have h₃ := changesOnly_storeNext (storeType (storeSize s.mem b size) (b + size) .free)
      (b + size) (nextFree (storeType (storeSize s.mem b size) (b + size) .free) b)
    have h₄ := changesOnly_storeSize (storeNext
      (storeType (storeSize s.mem b size) (b + size) .free) (b + size)
      (nextFree (storeType (storeSize s.mem b size) (b + size) .free) b)) (b + size) (rem - size)
    exact (((h₁.mono (by omega) (by omega)).trans (h₂.mono (by omega) (by omega))).trans
      (h₃.mono (by omega) (by omega))).trans (h₄.mono (by omega) (by omega))
  · intro x _
    rfl

theorem State.split_spec (hsize : 24 ≤ size) (hlt : rem < 2 ^ 64) (hfit : size ≤ rem) :
    (typeOf (s.split b size rem).mem b = typeOf s.mem b ∧
      nextFree (s.split b size rem).mem b = nextFree s.mem b ∧
      valueSize (s.split b size rem).mem b = size) ∧
    typeOf (s.split b size rem).mem (b + size) = some .free ∧
      nextFree (s.split b size rem).mem (b + size) = nextFree s.mem b ∧
      valueSize (s.split b size rem).mem (b + size) = rem - size := by
  have h₁ := changesOnly_storeSize s.mem b size
  have h₂ := changesOnly_storeType (storeSize s.mem b size) (b + size) .free
  have hnext : nextFree (storeType (storeSize s.mem b size) (b + size) .free) b =
      nextFree s.mem b := by
    have h₁' : nextFree (storeSize s.mem b size) b = nextFree s.mem b :=
      load64_congr (h₁.agree (.inl (by omega)))
    have h₂' : nextFree (storeType (storeSize s.mem b size) (b + size) .free) b =
        nextFree (storeSize s.mem b size) b := load64_congr (h₂.agree (.inl (by omega)))
    rw [h₂', h₁']
  have hnext_lt : nextFree s.mem b < 2 ^ 64 := load64_lt s.mem _
  rw [State.split, hnext]
  have h₃ := changesOnly_storeNext (storeType (storeSize s.mem b size) (b + size) .free)
    (b + size) (nextFree s.mem b)
  have h₄ := changesOnly_storeSize (storeNext (storeType (storeSize s.mem b size) (b + size) .free)
    (b + size) (nextFree s.mem b)) (b + size) (rem - size)
  have h₂₄ := ((h₂.mono (b := b + size) (k := 24) le_rfl (by omega)).trans
    (h₃.mono (by omega) (by omega))).trans (h₄.mono (by omega) (by omega))
  refine ⟨⟨?_, ?_, ?_⟩, ?_, ?_, ?_⟩
  · dsimp only
    rw [typeOf_congr (h₂₄.agree (.inl (by omega))), typeOf_congr (h₁.agree (.inl (by omega)))]
  · have h₂₄' : Agree _ _ (b + 8) (b + 8 + 8) := h₂₄.agree (.inl (by omega))
    have h₁' : Agree _ _ (b + 8) (b + 8 + 8) := h₁.agree (.inl (by omega))
    exact (load64_congr h₂₄').trans (load64_congr h₁')
  · dsimp only
    rw [valueSize_congr (h₂₄.agree (.inl (by omega))), valueSize_storeSize _ _ (by omega)]
  · dsimp only
    rw [typeOf_congr (h₄.agree (.inl (by omega))), typeOf_congr (h₃.agree (.inl (by omega))),
      typeOf_storeType]
  · have hagree : Agree _ _ (b + size + 8) (b + size + 8 + 8) := h₄.agree (.inl (by omega))
    exact (load64_congr hagree).trans (nextFree_storeNext _ _ hnext_lt)
  · exact valueSize_storeSize _ _ (by omega)

theorem State.take_free (h : OneFree s b rem) (hsize : 24 ≤ size) (hsplit : 24 < rem - size)
    (hrem : rem < 2 ^ 64) : OneFree (s.take b size rem) (b + size) (rem - size) := by
  rw [State.take, if_pos hsplit]
  have hpos := h.pos
  obtain ⟨-, htype, hnext, hleft⟩ := State.split_spec (s := s) (b := b) hsize hrem (by omega)
  exact ⟨rfl, by omega, htype, hnext.trans h.next, hleft⟩

theorem State.take_full (h : OneFree s b rem) (hsplit : ¬24 < rem - size) :
    (s.take b size rem).freeList = 0 := by
  rw [State.take, if_neg hsplit]
  exact h.next

def State.place (s : State) (r : Int) (b size rem : Nat) : State :=
  let taken := s.take b size rem
  { taken with
    mem := storeCount (Mem.copy taken.mem b (s.addr r) (valueSize taken.mem (s.addr r))) b 1
    refTable := taken.refTable.set r.toNat b }

section
variable {r u : Int}

theorem State.refTable_take : (s.take b size rem).refTable = s.refTable := by
  rw [State.take_rest]

theorem State.addr_place_self (h0 : 0 ≤ r) (hlt : r < s.refTable.length) :
    (s.place r b size rem).addr r = b := by
  apply lookup_set_self h0
  rw [State.refTable_take]
  exact hlt

theorem State.addr_place_ne (h0 : 0 ≤ r) (hne : u ≠ r) :
    (s.place r b size rem).addr u = s.addr u := by
  have hset : (s.place r b size rem).addr u = lookup (s.take b size rem).refTable u :=
    lookup_set_ne h0 hne b
  rw [hset, State.refTable_take]
  rfl

theorem State.place_changes
    (hsize : valueSize (s.take b size rem).mem (s.addr r) = size) (h24 : 24 ≤ size) :
    ChangesOnly (s.take b size rem).mem (s.place r b size rem).mem b size := by
  have hcopy := changesOnly_copy (s.take b size rem).mem b (s.addr r)
    (valueSize (s.take b size rem).mem (s.addr r))
  have hcount := changesOnly_storeCount (Mem.copy (s.take b size rem).mem b (s.addr r)
    (valueSize (s.take b size rem).mem (s.addr r))) b 1
  exact (hcopy.mono le_rfl (by omega)).trans (hcount.mono (by omega) (by omega))

theorem State.place_copy
    (h24 : 24 ≤ valueSize (s.take b size rem).mem (s.addr r)) :
    CopyOf (s.take b size rem).mem (s.place r b size rem).mem (s.addr r) b :=
  CopyOf.copy _ h24 1

theorem State.refCount_place : refCount (s.place r b size rem).mem b = 1 :=
  refCount_storeCount _ _ (by decide)

end

theorem mmMalloc_null (h : bestFitFrom size (n + 2) .head none (2 ^ 64 - 1) s =
      .ok ((none, 2 ^ 64 - 1), s)) {used : Nat} (hused : memUsed (n + 2) s = .ok (used, s)) :
    ∃ s', mmMalloc (n + 2) size s = .ok (0, s') := by
  rw [mmMalloc, bind_of_ok h]
  dsimp only
  rw [bind_of_ok hused]
  exact ⟨_, rfl⟩

end CS24.Subpython
