import CS24.Proxy.Integrity

/-!
# What an eviction leaves

Nothing is assumed of the state here, so a call may stop at a bad pointer. If it returns,
the pointer to the end of the queue is the old one, the bin of the node there is empty, and
no other chain lost a node.
-/

namespace CS24.Proxy
open Machine Linked

variable {s s' s'' : State} {queue l : List Nat} {chains : Nat → List Nat} {n p q b k v : Nat}
  {x : Node} {f : Node → Node} {E : Stop → Prop}

theorem wp_deref {Q : Node → State → Prop} (hE : E .badPointer)
    (h : ∀ x, s.nodes p = some x → Q x s) : wp (deref p) E Q s := by
  cases hp : s.nodes p with
  | none =>
    rw [wp, deref_none hp]
    exact hE
  | some x => exact wp_of_ok (deref_eq hp) (h x hp)

theorem wp_assign {Q : Unit → State → Prop} (hE : E .badPointer)
    (h : ∀ x, s.nodes p = some x → Q () (s.set p (f x))) : wp (assign p f) E Q s := by
  rw [assign, wp_bind]
  refine wp_deref hE fun x hx => ?_
  rw [wp_modify]
  exact h x hx

def State.entry (s : State) (p : Nat) : Option (Nat × Nat × Nat) :=
  (s.nodes p).map fun n => (n.key, n.value, n.hashTableNext)

theorem State.map_key (s : State) (p : Nat) :
    (s.nodes p).map Node.key = (s.entry p).map Prod.fst := by
  rw [State.entry, Option.map_map]
  rfl

structure Requeued (s s' : State) : Prop where
  entry : ∀ p, s'.entry p = s.entry p
  strings : s'.strings = s.strings
  buffers : s'.buffers = s.buffers
  arr : s'.arr = s.arr
  size : s'.size = s.size

theorem Requeued.trans (h : Requeued s s') (h' : Requeued s' s'') : Requeued s s'' :=
  ⟨fun p => (h'.entry p).trans (h.entry p), h'.strings.trans h.strings,
    h'.buffers.trans h.buffers, h'.arr.trans h.arr, h'.size.trans h.size⟩

theorem Requeued.with_queue (h : Requeued s s') (front back queueSize : Nat) :
    Requeued s { s' with front := front, back := back, queueSize := queueSize } :=
  ⟨h.entry, h.strings, h.buffers, h.arr, h.size⟩

theorem Requeued.refl : Requeued s s := ⟨fun _ => rfl, rfl, rfl, rfl, rfl⟩

theorem Requeued.set (hp : s.nodes p = some x) {y : Node}
    (hy : (y.key, y.value, y.hashTableNext) = (x.key, x.value, x.hashTableNext)) :
    Requeued s (s.set p y) := by
  refine ⟨fun q => ?_, rfl, rfl, rfl, rfl⟩
  by_cases hq : q = p
  · rw [hq, State.entry, nodes_set_self, State.entry, hp, Option.map_some, hy]
    rfl
  · rw [State.entry, nodes_set_ne hq]
    rfl

theorem dequeue_effect : wp dequeue (fun _ => True)
    (fun _ s' => Requeued s s' ∧ s'.back = s.back) s := by
  have hrefl : ∀ front queueSize, Requeued s { s with front := front, queueSize := queueSize } :=
    fun _ _ => Requeued.refl.with_queue _ _ _
  rw [dequeue, wp_bind, wp_reads, wp_ite]
  refine ⟨fun _ => wp_pure _ |>.mpr ⟨hrefl s.front s.queueSize, rfl⟩, fun _ => ?_⟩
  rw [wp_ite]
  constructor
  · intro _
    rw [wp_bind, wp_modify, wp_pure]
    exact ⟨hrefl 0 s.queueSize, rfl⟩
  intro _
  rw [wp_bind]
  refine wp_deref trivial fun x hx => ?_
  rw [wp_bind, wp_ite]
  constructor
  · intro _
    refine wp_assign trivial fun y hy => ?_
    have hset : Requeued s (s.set x.prev { y with next := 0 }) := .set hy rfl
    rw [wp_bind, wp_modify, wp_pure]
    exact ⟨hset.with_queue _ _ _, rfl⟩
  · intro _
    rw [wp_pure, wp_bind, wp_modify, wp_pure]
    exact ⟨hrefl _ _, rfl⟩

theorem enqueue_effect : wp (enqueue p) (fun _ => True)
    (fun _ s' => Requeued s s' ∧ (s.back ≠ 0 → s'.back = s.back)) s := by
  rw [enqueue, wp_bind, wp_reads, wp_bind]
  refine wp_assign trivial fun x hx => ?_
  have hset : Requeued s (s.set p { x with next := s.front }) := .set hx rfl
  rw [wp_bind, wp_ite]
  constructor
  · intro hback
    rw [wp_modify, wp_modify]
    exact ⟨hset.with_queue _ _ _, fun hne => absurd hback hne⟩
  · intro _
    rw [wp_bind]
    refine wp_assign trivial fun y hy => ?_
    have hset' := hset.trans (.set hy (y := { y with prev := p }) rfl)
    rw [wp_modify, wp_modify]
    exact ⟨hset'.with_queue _ _ _, fun _ => rfl⟩

theorem assign_effect (hf : ∀ x, (f x).key = x.key ∧ (f x).value = x.value ∧
    (f x).hashTableNext = x.hashTableNext) :
    wp (assign p f) (fun _ => True) (fun _ s' => Requeued s s') s := by
  refine wp_assign trivial fun x hx => .set hx ?_
  obtain ⟨hk, hv, hh⟩ := hf x
  rw [hk, hv, hh]

theorem queueUpdate_effect :
    wp (queueUpdate p) (fun _ => True) (fun _ s' => Requeued s s') s := by
  have hlinks : ∀ (s₁ : State), Requeued s s₁ → ∀ (q : Nat) (f : Node → Node),
      (∀ x, (f x).key = x.key ∧ (f x).value = x.value ∧ (f x).hashTableNext = x.hashTableNext) →
      wp (assign q f) (fun _ => True) (fun _ s₂ => Requeued s s₂) s₁ :=
    fun s₁ hs₁ q f hf => (assign_effect hf).post fun _ _ h => hs₁.trans h
  rw [queueUpdate, wp_bind, wp_reads, wp_ite]
  refine ⟨fun _ => .refl, fun _ => ?_⟩
  rw [wp_bind]
  refine wp_deref trivial fun x _ => ?_
  refine (hlinks s .refl x.prev (fun m => { m with next := x.next })
    fun _ => ⟨rfl, rfl, rfl⟩).bind fun _ s₁ hs₁ => ?_
  have hnext : wp (if x.next ≠ 0 then assign x.next fun m => { m with prev := x.prev } else pure ())
      (fun _ => True) (fun _ s₂ => Requeued s s₂) s₁ := by
    rw [wp_ite]
    exact ⟨fun _ => hlinks s₁ hs₁ x.next (fun m => { m with prev := x.prev })
      fun _ => ⟨rfl, rfl, rfl⟩, fun _ => hs₁⟩
  refine hnext.bind fun _ s₂ hs₂ => ?_
  have hback : wp (if p = s.back then do
      modify fun s => { s with back := x.prev }
      assign x.prev fun m => { m with next := 0 }
    else pure ()) (fun _ => True) (fun _ s₃ => Requeued s s₃) s₂ := by
    rw [wp_ite]
    refine ⟨fun _ => ?_, fun _ => hs₂⟩
    rw [wp_bind, wp_modify]
    exact hlinks _ (hs₂.with_queue _ _ _) x.prev (fun m => { m with next := 0 })
      fun _ => ⟨rfl, rfl, rfl⟩
  refine hback.bind fun _ s₃ hs₃ => ?_
  refine (hlinks s₃ hs₃ p (fun m => { m with next := s.front, prev := 0 })
    fun _ => ⟨rfl, rfl, rfl⟩).bind fun _ s₄ hs₄ => ?_
  refine (hlinks s₄ hs₄ s.front (fun m => { m with prev := p })
    fun _ => ⟨rfl, rfl, rfl⟩).bind fun _ s₅ hs₅ => ?_
  rw [wp_modify]
  exact hs₅.with_queue _ _ _

/-- From `s` to `s'` nodes were freed that were first in their bins, which are empty now. -/
structure Evicted (s s' : State) : Prop where
  back : s'.back = s.back
  strings : s'.strings = s.strings
  buffers : s'.buffers = s.buffers
  arr : ∀ b, s'.arr b = s.arr b ∨ s'.arr b = 0 ∧ (s.arr b ≠ 0 → s'.nodes (s.arr b) = none)
  entry : ∀ p, s'.entry p = s.entry p ∨ s'.nodes p = none ∧ p ≠ 0 ∧ ∃ b, s.arr b = p ∧ s'.arr b = 0

theorem Evicted.trans (h : Evicted s s') (h' : Evicted s' s'') : Evicted s s'' := by
  have hnone : ∀ p, s'.nodes p = none → s''.nodes p = none := by
    intro p hp
    rcases h'.entry p with he | ⟨he, -⟩
    · rw [State.entry, State.entry, hp] at he
      exact Option.map_eq_none_iff.mp he
    · exact he
  have hempty : ∀ b, s'.arr b = 0 → s''.arr b = 0 := fun b hb => by
    rcases h'.arr b with he | ⟨he, -⟩
    · rw [he, hb]
    · exact he
  refine ⟨h'.back.trans h.back, h'.strings.trans h.strings, h'.buffers.trans h.buffers, fun b => ?_,
    fun p => ?_⟩
  · rcases h.arr b with hb | ⟨hb, hfree⟩
    · rw [← hb]
      exact h'.arr b
    · exact .inr ⟨hempty b hb, fun hne => hnone _ (hfree hne)⟩
  · rcases h'.entry p with hp | ⟨hp, h0, b, hb, hb'⟩
    · rw [hp]
      rcases h.entry p with hp' | ⟨hp', h0, b, hb, hb'⟩
      · exact .inl hp'
      · exact .inr ⟨hnone p hp', h0, b, hb, hempty b hb'⟩
    · rcases h.arr b with he | ⟨he, -⟩
      · exact .inr ⟨hp, h0, b, he ▸ hb, hb'⟩
      · exact absurd (hb.symm.trans he) h0

theorem free_effect (h : Requeued s s') (hback : s'.back = s.back) :
    wp (do
      freeNode ((← reads State.arr) b)
      modify fun s => { s with arr := Function.update s.arr b 0 }
      pure v : M Nat) (fun _ => True) (fun _ s'' => Evicted s s'' ∧ s''.arr b = 0) s' := by
  have harr : ∀ m : Nat → Option Node, ∀ c, Function.update s'.arr b 0 c = s.arr c ∨
      Function.update s'.arr b 0 c = 0 ∧ c = b := by
    intro m c
    by_cases hc : c = b
    · exact .inr ⟨by rw [hc, Function.update_self], hc⟩
    · exact .inl (by rw [Function.update_of_ne hc, h.arr])
  rw [wp_bind, wp_reads, wp_bind, freeNode, wp_ite]
  constructor
  · intro h0
    rw [wp_pure, wp_bind, wp_modify, wp_pure]
    refine ⟨⟨hback, h.strings, h.buffers, fun c => ?_, fun p => .inl (h.entry p)⟩,
      Function.update_self ..⟩
    rcases harr s'.nodes c with hc | ⟨hc, rfl⟩
    · exact .inl hc
    · exact .inl (hc.trans (h.arr ▸ h0).symm)
  · intro h0
    rw [wp_bind]
    refine wp_deref trivial fun x hx => ?_
    rw [wp_modify, wp_bind, wp_modify, wp_pure]
    refine ⟨⟨hback, h.strings, h.buffers, fun c => ?_, fun p => ?_⟩, Function.update_self ..⟩
    · rcases harr s'.nodes c with hc | ⟨hc, rfl⟩
      · exact .inl hc
      · refine .inr ⟨hc, fun _ => ?_⟩
        rw [← h.arr]
        exact Function.update_self ..
    · by_cases hp : p = s'.arr b
      · refine .inr ⟨hp ▸ Function.update_self .., hp ▸ h0, b, ?_, Function.update_self ..⟩
        rw [hp, h.arr]
      · refine .inl (Eq.trans ?_ (h.entry p))
        exact congrArg _ (Function.update_of_ne hp ..)

theorem cacheRemove_effect : wp cacheRemove (fun _ => True) (fun _ s' => Evicted s s' ∧
    ∃ x, s.nodes s.back = some x ∧ s'.arr (hash (s.strings x.key)) = 0) s := by
  rw [cacheRemove, wp_bind, wp_reads, wp_bind]
  refine wp_deref trivial fun x hx => ?_
  rw [wp_bind, wp_reads]
  refine dequeue_effect.bind fun _ s₁ ⟨hs₁, hback⟩ => ?_
  exact (free_effect hs₁ hback).post fun _ s' ⟨hevict, hempty⟩ => ⟨hevict, x, hx, hempty⟩

theorem evict_effect (hover : maxCacheSize ≤ (s.size + n) % 2 ^ 64) (m : Nat) :
    wp (evict n m) (fun _ => True) (fun _ s' => Evicted s s' ∧
      ∃ x, s.nodes s.back = some x ∧ s'.arr (hash (s.strings x.key)) = 0) s := by
  induction m generalizing s with
  | zero => trivial
  | succ m ih =>
    rw [evict, wp_bind, wp_reads, if_pos hover]
    refine cacheRemove_effect.bind fun r s₁ h₁ => ?_
    obtain ⟨hevict, x, hx, hempty⟩ := h₁
    rw [wp_bind, wp_modify]
    generalize hs₂ : ({ s₁ with size := (s₁.size + (2 ^ 64 - (s₁.buffers r).length)) % 2 ^ 64 } :
      State) = s₂
    have hevict₂ : Evicted s s₂ := hs₂ ▸
      ⟨hevict.back, hevict.strings, hevict.buffers, hevict.arr, hevict.entry⟩
    have hempty₂ : s₂.arr (hash (s.strings x.key)) = 0 := hs₂ ▸ hempty
    by_cases hover₂ : maxCacheSize ≤ (s₂.size + n) % 2 ^ 64
    · refine (ih hover₂).post fun _ s' h' => ⟨hevict₂.trans h'.1, x, hx, ?_⟩
      rcases h'.1.arr (hash (s.strings x.key)) with he | ⟨he, -⟩
      · rw [he, hempty₂]
      · exact he
    · cases m with
      | zero => trivial
      | succ m =>
        rw [evict, wp_bind, wp_reads, if_neg hover₂]
        exact ⟨hevict₂, x, hx, hempty₂⟩

theorem lastOfChain_effect (r : Nat) :
    wp (lastOfChain n p r) (fun _ => True) (fun _ s' => s' = s) s := by
  induction n generalizing p r with
  | zero => trivial
  | succ n ih =>
    rw [lastOfChain, wp_ite]
    refine ⟨fun _ => rfl, fun _ => ?_⟩
    rw [wp_bind]
    exact wp_deref trivial fun x _ => ih p

theorem chainAppend_effect {head : Nat} : wp (chainAppend n p b head) (fun _ => True)
    (fun _ s' => Relinked s s' ∧ s'.back = s.back ∧ ∀ c, c ≠ b → s'.arr c = s.arr c) s := by
  rw [chainAppend, wp_ite]
  constructor
  · intro _
    rw [wp_modify]
    exact ⟨⟨fun _ => rfl, rfl, rfl, rfl⟩, rfl, fun c hc => Function.update_of_ne hc ..⟩
  · intro _
    refine (lastOfChain_effect 0).bind fun q s₁ hs₁ => ?_
    subst hs₁
    refine wp_assign trivial fun x hx => ⟨⟨fun r => ?_, rfl, rfl, rfl⟩, rfl, fun _ _ => rfl⟩
    by_cases hr : r = q
    · rw [hr, nodes_set_self, hx]
      rfl
    · rw [nodes_set_ne hr]

theorem chainAppend_freed {head : Nat} {Q : Unit → State → Prop} (h0 : head ≠ 0)
    (hfree : s.nodes head = none) : wp (chainAppend n p b head) (fun _ => True) Q s := by
  rw [chainAppend, if_neg h0, wp_bind]
  cases n with
  | zero => trivial
  | succ n =>
    rw [lastOfChain, if_neg h0, wp_bind]
    refine wp_deref trivial fun x hx => ?_
    rw [hfree] at hx
    cases hx

theorem WellFormed.back (h : WellFormed s) (h0 : s.back ≠ 0) :
    ∃ x, s.nodes s.back = some x ∧ s.arr (hash (s.strings x.key)) ≠ 0 := by
  obtain ⟨queue, chains, h⟩ := h
  have hmem : s.back ∈ queue := by
    rw [h.row.back] at h0 ⊢
    cases queue with
    | nil => exact absurd rfl h0
    | cons a l =>
      rw [List.getLastD_cons]
      exact getLastD_mem_cons l a
  obtain ⟨x, hx⟩ := Option.isSome_iff_exists.mp (h.row.isSome hmem)
  have hbin : s.bin s.back = hash (s.strings x.key) := by
    rw [State.bin, State.key, hx]
    rfl
  refine ⟨x, hx, fun harr => ?_⟩
  have hchain := h.chain (hash (s.strings x.key))
  have hin := (h.bin _ s.back).mpr ⟨hmem, hbin⟩
  rw [hchain.zero_iff.mp harr] at hin
  cases hin

theorem Represents.back_ne_zero (h : Represents s queue chains)
    (hlen : (s.buffers v).length < maxObjectSize)
    (hover : maxCacheSize ≤ s.size + (s.buffers v).length) : s.back ≠ 0 := by
  intro hback
  have hnil : queue = [] := by
    cases queue with
    | nil => rfl
    | cons a l =>
      rw [h.row.back, List.getLastD_cons] at hback
      exact absurd hback (h.row.links.mem_ne_zero (getLastD_mem_cons l a))
  have hsize := h.size
  rw [hnil] at hsize
  unfold maxObjectSize maxCacheSize at *
  simp at hsize
  omega

theorem cacheInsert_evicting (h : Represents s queue chains) (hp : s.nodes p = none) (h0 : 0 < p)
    (hlt : p < 2 ^ 64) (hlen : (s.buffers v).length < maxObjectSize)
    (hover : maxCacheSize ≤ s.size + (s.buffers v).length) :
    wp (cacheInsert n p k v) (fun _ => True) (fun _ s' => ¬ WellFormed s') s := by
  have hback0 := h.back_ne_zero hlen hover
  obtain ⟨x, hx, hbin⟩ := WellFormed.back ⟨queue, chains, h⟩ hback0
  have hxp : s.back ≠ p := by
    intro hbp
    rw [hbp, hp] at hx
    cases hx
  have hover₀ :
      maxCacheSize ≤ ((s.set p ⟨0, 0, 0, k, v⟩).size + (s.buffers v).length) % 2 ^ 64 := by
    have hlt := h.size_lt
    change _ ≤ (s.size + _) % _
    unfold maxObjectSize maxCacheSize at *
    omega
  have hx₀ : (s.set p ⟨0, 0, 0, k, v⟩).nodes s.back = some x := (nodes_set_ne hxp).trans hx
  rw [cacheInsert, wp_bind_of_ok (initNode_eq hp h0 hlt), wp_bind, wp_reads, wp_bind, wp_reads,
    wp_bind, wp_reads]
  have hstrings₀ : (s.set p ⟨0, 0, 0, k, v⟩).strings = s.strings := rfl
  have hbuffers₀ : (s.set p ⟨0, 0, 0, k, v⟩).buffers = s.buffers := rfl
  have harr₀ : (s.set p ⟨0, 0, 0, k, v⟩).arr = s.arr := rfl
  have hbk₀ : (s.set p ⟨0, 0, 0, k, v⟩).back = s.back := rfl
  generalize s.set p ⟨0, 0, 0, k, v⟩ = s₀ at *
  rw [hstrings₀, hbuffers₀, harr₀, if_neg (by omega)]
  refine (evict_effect hover₀ n).bind fun _ s₁ h₁ => ?_
  obtain ⟨hevict, y, hy, hempty⟩ := h₁
  rw [hbk₀, hx₀] at hy
  obtain rfl := Option.some.inj hy
  rw [hstrings₀] at hempty
  by_cases hkey : hash (s.strings k) = hash (s.strings x.key)
  · -- the chain was read before its first node was freed
    have hfree : s₁.nodes (s.arr (hash (s.strings k))) = none := by
      rw [hkey, ← harr₀]
      rcases hevict.arr (hash (s.strings x.key)) with he | ⟨-, hfree⟩
      · rw [hempty, harr₀] at he
        exact absurd he.symm hbin
      · exact hfree (harr₀ ▸ hbin)
    rw [wp_bind]
    exact chainAppend_freed (hkey ▸ hbin) hfree
  refine chainAppend_effect.bind fun _ s₂ h₂ => ?_
  obtain ⟨hlinked, hback₂, harr₂⟩ := h₂
  rw [wp_bind, wp_modify]
  refine enqueue_effect.bind fun _ s₃ h₃ => ?_
  obtain ⟨hs₃, henqueue⟩ := h₃
  rw [wp_pure]
  intro hwf
  have hback₁ : s₂.back = s.back := hback₂.trans (hevict.back.trans hbk₀)
  have hback₃ : s₃.back = s.back := (henqueue (hback₁ ▸ hback0)).trans hback₁
  obtain ⟨z, hz, harr⟩ := hwf.back (hback₃ ▸ hback0)
  have hkeyz : z.key = x.key := by
    have hcontent := congrArg (Option.map Prod.fst) (hlinked.content s.back)
    rw [Option.map_map, Option.map_map] at hcontent
    have hmap : (s₃.nodes s.back).map Node.key = (s₁.nodes s.back).map Node.key := by
      rw [s₃.map_key, hs₃.entry]
      exact (State.map_key _ _).symm.trans hcontent
    rw [hback₃] at hz
    rw [hz] at hmap
    rcases hevict.entry s.back with he | ⟨he, -⟩
    · rw [s₁.map_key, he, ← s₀.map_key, hx₀] at hmap
      exact Option.some.inj hmap
    · rw [he] at hmap
      cases hmap
  have hstrings₃ : s₃.strings = s.strings :=
    hs₃.strings.trans (hlinked.strings.trans (hevict.strings.trans hstrings₀))
  rw [hkeyz, hstrings₃, hs₃.arr] at harr
  exact harr ((harr₂ _ (Ne.symm hkey)).trans hempty)

inductive Op where
  /-- `cache_insert(cache, key, value)`, where `malloc` returns `node` -/
  | insert (node key value : Nat)
  | update (node : Nat)

def Op.run (n : Nat) : Op → M Unit
  | .insert node key value => do let _ ← cacheInsert n node key value
  | .update node => queueUpdate node

def InCache (s : State) (p : Nat) : Prop := ∃ b l, Chain s.hashNext (s.arr b) l ∧ p ∈ l

/-- `malloc` returns an address that is not in use; only nodes in the cache are updated. -/
def Op.Allowed (s : State) : Op → Prop
  | .insert node _ _ => 0 < node ∧ node < 2 ^ 64 ∧ s.nodes node = none
  | .update node => InCache s node

/-- The insertion has to make room. -/
def Op.Evicts (s : State) : Op → Prop
  | .insert _ _ value => (s.buffers value).length < maxObjectSize ∧
      maxCacheSize ≤ s.size + (s.buffers value).length
  | .update _ => False

/-- The states of the cache in a run from `init_cache` on in which nothing is evicted. -/
inductive Reached (strings : Nat → List UInt8) (buffers : Nat → Buffer) : State → Prop where
  | init : Reached strings buffers (initCache strings buffers)
  | step {s s' : State} {op : Op} {n : Nat} : Reached strings buffers s → op.Allowed s →
      ¬ op.Evicts s → op.run n s = .ok ((), s') → Reached strings buffers s'

theorem initCache_represents (strings : Nat → List UInt8) (buffers : Nat → Buffer) :
    Represents (initCache strings buffers) [] fun _ => [] where
  address p hp := by cases hp
  row := ⟨trivial, rfl, rfl, List.nodup_nil, rfl⟩
  chain _ := rfl
  bin b p := by simp
  size := rfl
  size_lt := show 0 < maxCacheSize by decide

theorem Op.run_spec (h : WellFormed s) {op : Op} (hop : op.Allowed s) (hroom : ¬ op.Evicts s)
    (E : Stop → Prop) : ∃ enough, ∀ n, E .outOfFuel ∨ enough ≤ n →
      wp (op.run n) E (fun _ s' => WellFormed s') s := by
  obtain ⟨queue, chains, h⟩ := h
  cases op with
  | insert node key value =>
    obtain ⟨h0, hlt, hnode⟩ := hop
    refine ⟨(chains (hash (s.strings key))).length + 1, fun n hn => ?_⟩
    rw [Op.run, wp_bind]
    by_cases hlen : (s.buffers value).length < maxObjectSize
    · have hfits : s.size + (s.buffers value).length < maxCacheSize := by
        by_contra hover
        exact hroom ⟨hlen, by omega⟩
      exact (cacheInsert_spec h hnode h0 hlt rfl hlen hfits (hn.imp_right fun hle => by omega)).post
        fun _ s' hs' => ⟨_, _, hs'.2.2⟩
    · exact (cacheInsert_reject h hnode h0 hlt (by omega)).post fun _ s' hs' => ⟨_, _, hs'.2.2⟩
  | update node =>
    obtain ⟨b, l, hchain, hl⟩ := hop
    rw [hchain.unique (h.chain b)] at hl
    obtain ⟨xs, ys, rfl⟩ := List.append_of_mem ((h.bin b node).mp hl).1
    exact ⟨0, fun n _ => (queueUpdate_represents h).post fun _ s' hs' => ⟨_, _, hs'⟩⟩

theorem Reached.wellFormed {strings : Nat → List UInt8} {buffers : Nat → Buffer}
    (h : Reached strings buffers s) : WellFormed s := by
  induction h with
  | init => exact ⟨_, _, initCache_represents strings buffers⟩
  | step _ hop hroom hrun ih =>
    obtain ⟨_, hspec⟩ := Op.run_spec ih hop hroom fun _ => True
    exact (hspec _ (.inl trivial)).ok hrun

/-- In a run that evicts nothing every state is well-formed, and no call goes wrong; a call
that evicts does not leave a well-formed state. -/
theorem cache_wellFormed {strings : Nat → List UInt8} {buffers : Nat → Buffer}
    (h : Reached strings buffers s) :
    WellFormed s ∧
    (∀ op : Op, op.Allowed s → ¬ op.Evicts s → ∃ enough, ∀ n ≥ enough, ∃ s',
      op.run n s = .ok ((), s') ∧ WellFormed s') ∧
    ∀ (op : Op) n s', op.Allowed s → op.Evicts s → op.run n s = .ok ((), s') → ¬ WellFormed s' := by
  refine ⟨h.wellFormed, fun op hop hroom => ?_, fun op n s' hop hover hrun => ?_⟩
  · obtain ⟨enough, hspec⟩ := Op.run_spec h.wellFormed hop hroom fun _ => False
    refine ⟨enough, fun n hn => ?_⟩
    obtain ⟨⟨⟩, s', hs', hwf⟩ := (hspec n (.inr hn)).returns
    exact ⟨s', hs', hwf⟩
  · cases op with
    | update node => exact hover.elim
    | insert node key value =>
      obtain ⟨queue, chains, hrep⟩ := h.wellFormed
      obtain ⟨h0, hlt, hnode⟩ := hop
      have hspec : wp (Op.run n (.insert node key value)) (fun _ => True)
          (fun _ s' => ¬ WellFormed s') s := by
        rw [Op.run, wp_bind]
        exact cacheInsert_evicting hrep hnode h0 hlt hover.1 hover.2
      exact hspec.ok hrun

def oneByteKeys (p : Nat) : List UInt8 := [UInt8.ofNat p]

def largeBuffers (_ : Nat) : Buffer := ⟨fun _ => 0, 100000, 100000⟩

def State.after (s : State) (op : Op) : State :=
  match op.run 20 s with
  | .ok (_, s') => s'
  | .error _ => s

theorem Reached.after {strings : Nat → List UInt8} {buffers : Nat → Buffer} {op : Op}
    (h : Reached strings buffers s) (hop : op.Allowed s) (hroom : ¬ op.Evicts s)
    (hok : (op.run 20 s).isOk = true) : Reached strings buffers (s.after op) := by
  cases hrun : op.run 20 s with
  | error stop =>
    rw [hrun] at hok
    cases hok
  | ok p => exact .step h hop hroom (by rw [hrun, State.after, hrun])

theorem Reached.inserted {strings : Nat → List UInt8} {buffers : Nat → Buffer}
    (h : Reached strings buffers s) {node key value : Nat}
    (hnode : 0 < node ∧ node < 2 ^ 64 ∧ (s.nodes node).isNone)
    (hroom : ¬ (maxCacheSize ≤ s.size + (s.buffers value).length))
    (hok : ((Op.insert node key value).run 20 s).isOk = true) :
    Reached strings buffers (s.after (.insert node key value)) :=
  h.after ⟨hnode.1, hnode.2.1, Option.isNone_iff_eq_none.mp hnode.2.2⟩
    (fun hevicts => hroom hevicts.2) hok

def threeInserted : State :=
  (((initCache oneByteKeys largeBuffers).after (.insert 16 1 2)).after (.insert 32 257 2)).after
    (.insert 48 3 2)

theorem threeInserted_reached : Reached oneByteKeys largeBuffers threeInserted := by
  refine Reached.inserted (Reached.inserted (Reached.inserted .init ?_ ?_ ?_) ?_ ?_ ?_) ?_ ?_ ?_ <;>
    decide +kernel

theorem threeInserted_inCache : InCache threeInserted 32 :=
  ⟨hash (oneByteKeys 1), [16, 32], ⟨by decide +kernel, by decide, 32, by decide +kernel, rfl,
    by decide, 0, by decide +kernel, rfl⟩, by decide⟩

/-- The node in the middle of the queue is updated, and one more is inserted. -/
theorem cache_wellFormed_updated : ∃ enough, ∀ n ≥ enough, ∃ s',
    (Op.insert 64 4 2).run n (threeInserted.after (.update 32)) = .ok ((), s') ∧
      WellFormed s' := by
  have hreached : Reached oneByteKeys largeBuffers (threeInserted.after (.update 32)) :=
    threeInserted_reached.after threeInserted_inCache id (by decide +kernel)
  refine (cache_wellFormed hreached).2.1 (.insert 64 4 2)
    ⟨by decide, by decide, Option.isNone_iff_eq_none.mp (by decide +kernel)⟩ fun hevicts => ?_
  exact absurd hevicts.2 (by decide +kernel)

def runAll (n : Nat) (ops : List Op) : M Unit := ops.forM (Op.run n)

def elevenInserts : List Op := (List.range 11).map fun i => .insert (i + 1) (i + 1) 0

theorem elevenInserts_run : wp (runAll 20 elevenInserts) (fun _ => False)
    (fun _ s' => s'.back ≠ 0 ∧ (s'.nodes s'.back).isNone)
    (initCache oneByteKeys largeBuffers) := by
  decide +kernel

/-- The last insertion evicts the first node and leaves `queue->back` at it. -/
theorem eviction_leaves_freed_node : ∃ s',
    runAll 20 elevenInserts (initCache oneByteKeys largeBuffers) = .ok ((), s') ∧
      ¬ WellFormed s' := by
  obtain ⟨⟨⟩, s', hs', hback, hfreed⟩ := elevenInserts_run.returns
  refine ⟨s', hs', fun hwf => ?_⟩
  obtain ⟨x, hx, -⟩ := hwf.back hback
  rw [hx] at hfreed
  cases hfreed

end CS24.Proxy
