import CS24.Malloc.Operations

/-!
# Clients of the allocator

A client owns the blocks it was handed, each with the number of bytes it asked
for, and issues calls on them. Between calls every live pointer is the payload
of its own allocated block and no other block is allocated; this is preserved
by every valid call, which always returns.
-/

namespace CS24.Malloc
open Machine Mem

/-- The live pointers of a client, each with its requested byte count. -/
structure Client where
  state : State
  live : List (Nat × Nat)

inductive Call where
  | malloc (size : Nat)
  | calloc (nmemb size : Nat)
  | realloc (ptr size : Nat)
  | free (ptr : Nat)
  | write (ptr offset : Nat) (bytes : List UInt8)

def dropPtr (live : List (Nat × Nat)) (ptr : Nat) : List (Nat × Nat) :=
  live.filter fun e => e.1 != ptr

/-- Positive requests of fewer than `limit` bytes on live pointers, and writes inside
them. `realloc` to size 0 is a call to `free`. -/
def Call.Valid (limit : Nat) (live : List (Nat × Nat)) : Call → Prop
  | .malloc size => 1 ≤ size ∧ size < limit
  | .calloc nmemb size => 1 ≤ nmemb * size ∧ nmemb * size < limit
  | .realloc ptr size => (ptr = 0 ∨ ∃ k, (ptr, k) ∈ live) ∧ size < limit
  | .free ptr => ptr = 0 ∨ ∃ k, (ptr, k) ∈ live
  | .write ptr offset bytes => ∃ k, (ptr, k) ∈ live ∧ offset + bytes.length ≤ k

theorem exists_live_iff {live : List (Nat × Nat)} {ptr : Nat} {P : Nat → Prop} :
    (∃ e ∈ live, e.1 = ptr ∧ P e.2) ↔ ∃ k, (ptr, k) ∈ live ∧ P k := by
  constructor
  · rintro ⟨e, he, rfl, h⟩
    exact ⟨e.2, he, h⟩
  · rintro ⟨k, hk, h⟩
    exact ⟨(ptr, k), hk, rfl, h⟩

instance decidableLive (live : List (Nat × Nat)) (ptr : Nat) :
    Decidable (∃ k, (ptr, k) ∈ live) :=
  decidable_of_iff (∃ e ∈ live, e.1 = ptr)
    (by simpa only [and_true] using exists_live_iff (P := fun _ => True))

instance (limit : Nat) (live : List (Nat × Nat)) (call : Call) :
    Decidable (call.Valid limit live) :=
  match call with
  | .malloc _ => inferInstanceAs (Decidable (_ ∧ _))
  | .calloc _ _ => inferInstanceAs (Decidable (_ ∧ _))
  | .realloc _ _ => inferInstanceAs (Decidable ((_ ∨ _) ∧ _))
  | .free _ => inferInstanceAs (Decidable (_ ∨ _))
  | .write ptr offset bytes =>
    decidable_of_iff (∃ e ∈ live, e.1 = ptr ∧ offset + bytes.length ≤ e.2) exists_live_iff

/-- One call, with the pointer it returns; `none` when the call does not return. -/
def Client.call (R : Region) (c : Client) : Call → Option (Client × Nat)
  | .malloc size => do
    let (s, p) ← malloc R c.state size
    return (⟨s, if p = 0 then c.live else (p, size) :: c.live⟩, p)
  | .calloc nmemb size => do
    let (s, p) ← calloc R c.state nmemb size
    return (⟨s, if p = 0 then c.live else (p, nmemb * size) :: c.live⟩, p)
  | .realloc ptr size => do
    let (s, p) ← realloc R c.state ptr size
    if size = 0 then return (⟨s, dropPtr c.live ptr⟩, p)
    return (⟨s, if p = 0 then c.live else (p, size) :: dropPtr c.live ptr⟩, p)
  | .free ptr => do
    let s ← free R c.state ptr
    return (⟨s, dropPtr c.live ptr⟩, 0)
  | .write ptr offset bytes =>
    some (⟨{ c.state with mem := write c.state.mem (ptr + offset) bytes }, c.live⟩, 0)

/-- A process whose heap is empty and whose `last_node` is null, over any memory. -/
def freshProcess (R : Region) (m : Mem) : State := ⟨m, R.heap, 0⟩

/-- The clients that exist after `mm_init` and any finite sequence of valid calls. -/
inductive Reachable (R : Region) (limit : Nat) : Client → Prop where
  | init (m : Mem) : Reachable R limit ⟨(mmInit R (freshProcess R m)).1, []⟩
  | step {c c' : Client} {call : Call} {r : Nat} : Reachable R limit c →
      call.Valid limit c.live → c.call R call = some (c', r) → Reachable R limit c'

/-- A run of calls, as long as they are valid and return. -/
def Client.run (R : Region) (limit : Nat) : Client → List Call → Option Client
  | c, [] => some c
  | c, call :: calls =>
    if call.Valid limit c.live then
      match c.call R call with
      | some (c, _) => c.run R limit calls
      | none => none
    else none

/-- The first request size whose block size `malloc` computes wrapped around. -/
def wrapLimit : Nat := 2 ^ 64 - 31

/-- The live pointers are the payloads of the allocated blocks. -/
structure Held (R : Region) (c : Client) (bs : List Nat) : Prop where
  heap : Heap R c.state bs
  block : ∀ p n, (p, n) ∈ c.live → ∃ b ∈ bs, p = b + 8 ∧
    checkAllocated c.state.mem b = true ∧ n % 2 ^ 64 + 16 ≤ getSize c.state.mem b
  owner : ∀ b ∈ bs, checkAllocated c.state.mem b = true → ∃ n, (b + 8, n) ∈ c.live
  nodup : (c.live.map Prod.fst).Nodup

structure Owned (R : Region) (c : Client) (bs : List Nat) : Prop where
  heap : Heap R c.state bs
  last : LastNode c.state bs
  block : ∀ p n, (p, n) ∈ c.live → ∃ b ∈ bs, p = b + 8 ∧
    checkAllocated c.state.mem b = true ∧ n + 16 ≤ getSize c.state.mem b ∧ 1 ≤ n
  owner : ∀ b ∈ bs, checkAllocated c.state.mem b = true → ∃ n, (b + 8, n) ∈ c.live
  nodup : (c.live.map Prod.fst).Nodup

def Inv (R : Region) (c : Client) : Prop := ∃ bs, Owned R c bs

variable {R : Region} {s s' : State} {c c' : Client} {bs bs' : List Nat} {live : List (Nat × Nat)}
  {m' : Mem} {b n p k x : Nat}

theorem Reachable.run {limit : Nat} {calls : List Call} (h : Reachable R limit c)
    (hr : c.run R limit calls = some c') : Reachable R limit c' := by
  induction calls generalizing c with
  | nil => exact Option.some.inj hr ▸ h
  | cons call calls ih =>
    rw [Client.run] at hr
    split_ifs at hr with hv
    cases hcall : c.call R call with
    | none => simp [hcall] at hr
    | some d =>
      rw [hcall] at hr
      exact ih (h.step hv hcall) hr

theorem mem_dropPtr {ptr : Nat} : (p, n) ∈ dropPtr live ptr ↔ (p, n) ∈ live ∧ p ≠ ptr := by
  simp [dropPtr]

theorem Held.ptr_ne_zero (h : Held R c bs) (hp : (p, n) ∈ c.live) : p ≠ 0 := by
  obtain ⟨b, -, rfl, -⟩ := h.block p n hp
  omega

theorem Owned.size (h : Owned R c bs) (hp : (p, n) ∈ c.live) : 1 ≤ n ∧ n < 2 ^ 64 := by
  obtain ⟨b, -, -, -, hsize, h1⟩ := h.block p n hp
  have := getSize_lt c.state.mem b
  omega

theorem Owned.held (h : Owned R c bs) : Held R c bs := by
  refine ⟨h.heap, fun p n hp => ?_, h.owner, h.nodup⟩
  obtain ⟨b, hb, hpb, hal, hsize, -⟩ := h.block p n hp
  have := Nat.mod_le n (2 ^ 64)
  exact ⟨b, hb, hpb, hal, by omega⟩

theorem Held.owned (h : Held R c bs) (hl : LastNode c.state bs)
    (hsize : ∀ p n, (p, n) ∈ c.live → 1 ≤ n ∧ n < 2 ^ 64) : Owned R c bs := by
  refine ⟨h.heap, hl, fun p n hp => ?_, h.owner, h.nodup⟩
  obtain ⟨b, hb, hpb, hal, hroom⟩ := h.block p n hp
  obtain ⟨h1, hlt⟩ := hsize p n hp
  rw [Nat.mod_eq_of_lt hlt] at hroom
  exact ⟨b, hb, hpb, hal, hroom, h1⟩

theorem Owned.ptr_ne_zero (h : Owned R c bs) (hp : (p, n) ∈ c.live) : p ≠ 0 :=
  h.held.ptr_ne_zero hp

theorem Owned.unique (h : Owned R c bs) (hp : (p, n) ∈ c.live) (hk : (p, k) ∈ c.live) : n = k := by
  have heq := List.inj_on_of_nodup_map h.nodup hp hk rfl
  exact congrArg Prod.snd heq

theorem Held.take (h : Held R ⟨s, live⟩ bs) (hheap : Heap R s' bs')
    (hm : Mallocs s s' bs bs' b (n % 2 ^ 64)) : Held R ⟨s', (b + 8, n) :: live⟩ bs' := by
  have hkept : ∀ d ∈ bs, checkAllocated s.mem d = true →
      d ∈ bs' ∧ SameTags s.mem s'.mem d := fun d hd hal =>
    ⟨(hm.kept d hd hal).1, h.heap.seg.sameTags_of_agree hd (hm.kept d hd hal).2⟩
  refine ⟨hheap, ?_, ?_, ?_⟩
  · intro p k hp
    rcases List.mem_cons.mp hp with heq | hp
    · obtain ⟨rfl, rfl⟩ := Prod.mk.inj heq
      exact ⟨b, hm.block, rfl, hm.allocated, hm.size⟩
    · obtain ⟨d, hd, rfl, hal, hsize⟩ := h.block p k hp
      obtain ⟨hd', htag⟩ := hkept d hd hal
      exact ⟨d, hd', rfl, by rwa [htag.checkAllocated], by rwa [htag.getSize]⟩
  · intro d hd hal
    rcases hm.owned d hd hal with rfl | ⟨hd, hal⟩
    · exact ⟨n, by simp⟩
    · obtain ⟨k, hk⟩ := h.owner d hd hal
      exact ⟨k, List.mem_cons_of_mem _ hk⟩
  · rw [List.map_cons, List.nodup_cons]
    refine ⟨fun hmem => ?_, h.nodup⟩
    obtain ⟨⟨p, k⟩, hp, heq⟩ := List.mem_map.mp hmem
    obtain ⟨d, hd, rfl, hal, -⟩ := h.block p k hp
    obtain rfl : d = b := by simpa using heq
    rw [hm.fresh hd] at hal
    exact absurd hal (by simp)

theorem Held.drop (h : Held R ⟨s, live⟩ bs) (hheap : Heap R s' bs')
    (hf : Frees s s' bs bs' b) : Held R ⟨s', dropPtr live (b + 8)⟩ bs' := by
  refine ⟨hheap, ?_, ?_, ?_⟩
  · intro p k hp
    obtain ⟨hp, hne⟩ := mem_dropPtr.mp hp
    obtain ⟨d, hd, rfl, hal, hsize⟩ := h.block p k hp
    obtain ⟨hd', hload⟩ := hf.kept d hd (by omega) hal
    refine ⟨d, hd', rfl, ?_, ?_⟩
    · rwa [checkAllocated, hload]
    · rwa [getSize, hload]
  · intro d hd hal
    obtain ⟨hd, hdb, hal⟩ := hf.owned d hd hal
    obtain ⟨k, hk⟩ := h.owner d hd hal
    exact ⟨k, mem_dropPtr.mpr ⟨hk, by omega⟩⟩
  · exact h.nodup.sublist (List.filter_sublist.map _)

theorem Held.sameTags (h : Held R ⟨s, live⟩ bs) (hp : (p, k) ∈ live)
    (hc : ChangesOnly s.mem m' x n) (h₁ : p ≤ x) (h₂ : x + n ≤ p + k % 2 ^ 64) :
    ∀ d ∈ bs, SameTags s.mem m' d := by
  intro d hd
  obtain ⟨e, he, rfl, -, hsize⟩ := h.block p k hp
  have hroom : k % 2 ^ 64 + 16 ≤ getSize s.mem e := hsize
  obtain ⟨hhead, hfoot⟩ := h.heap.seg.tags_disjoint (x := x) (n := n) hd he h₁ (by omega)
  exact ⟨hc.agree hhead, hc.agree hfoot⟩

theorem Held.congr (h : Held R ⟨s, live⟩ bs) (htags : ∀ d ∈ bs, SameTags s.mem m' d) :
    Held R ⟨{ s with mem := m' }, live⟩ bs := by
  refine ⟨⟨h.heap.seg.congr htags, h.heap.brk⟩, ?_, ?_, h.nodup⟩
  · intro q j hq
    obtain ⟨d, hd, rfl, hal, hsz⟩ := h.block q j hq
    exact ⟨d, hd, rfl, by rwa [(htags d hd).checkAllocated], by rwa [(htags d hd).getSize]⟩
  · intro d hd hal
    rw [(htags d hd).checkAllocated] at hal
    exact h.owner d hd hal

theorem Owned.take (h : Owned R ⟨s, live⟩ bs) (hheap : Heap R s' bs') (hlast : LastNode s' bs')
    (hm : Mallocs s s' bs bs' b n) (hn : 1 ≤ n) : Owned R ⟨s', (b + 8, n) :: live⟩ bs' := by
  have hlt : n < 2 ^ 64 := by
    have := getSize_lt s'.mem b
    have := hm.size
    omega
  rw [← Nat.mod_eq_of_lt hlt] at hm
  refine (h.held.take hheap hm).owned hlast fun p k hp => ?_
  rcases List.mem_cons.mp hp with heq | hp
  · obtain ⟨-, rfl⟩ := Prod.mk.inj heq
    exact ⟨hn, hlt⟩
  · exact h.size hp

theorem Owned.drop (h : Owned R ⟨s, live⟩ bs) (hheap : Heap R s' bs') (hlast : LastNode s' bs')
    (hf : Frees s s' bs bs' b) : Owned R ⟨s', dropPtr live (b + 8)⟩ bs' :=
  (h.held.drop hheap hf).owned hlast fun _ _ hp => h.size (mem_dropPtr.mp hp).1

theorem Owned.payload (h : Owned R ⟨s, live⟩ bs) (hp : (p, k) ∈ live)
    (hc : ChangesOnly s.mem m' x n) (h₁ : p ≤ x) (h₂ : x + n ≤ p + k) :
    Owned R ⟨{ s with mem := m' }, live⟩ bs := by
  rw [← Nat.mod_eq_of_lt (h.size hp).2] at h₂
  have htags := h.held.sameTags hp hc h₁ h₂
  refine (h.held.congr htags).owned ?_ fun _ _ hq => h.size hq
  rcases h.last with h0 | ⟨d, hd, hle, h32⟩
  · exact .inl h0
  · exact .inr ⟨d, hd, hle, by rwa [(htags d hd).getSize]⟩

theorem Held.disjoint {q j : Nat} (h : Held R c bs) (hp : (p, k) ∈ c.live) (hq : (q, j) ∈ c.live)
    (hne : p ≠ q) : p + k % 2 ^ 64 + 8 ≤ q ∨ q + j % 2 ^ 64 + 8 ≤ p := by
  obtain ⟨d, hd, rfl, -, hdk⟩ := h.block p k hp
  obtain ⟨e, he, rfl, -, hej⟩ := h.block q j hq
  rcases h.heap.seg.tiles.sep hd he with rfl | hs | hs
  · exact absurd rfl hne
  · omega
  · omega

theorem Owned.disjoint {q j : Nat} (h : Owned R c bs) (hp : (p, k) ∈ c.live) (hq : (q, j) ∈ c.live)
    (hne : p ≠ q) : p + k + 8 ≤ q ∨ q + j + 8 ≤ p := by
  have hdis := h.held.disjoint hp hq hne
  rwa [Nat.mod_eq_of_lt (h.size hp).2, Nat.mod_eq_of_lt (h.size hq).2] at hdis

theorem Held.new_ne {q j : Nat} (h : Held R ⟨s, (p, n) :: live⟩ bs) (hq : (q, j) ∈ live) :
    p ≠ q := by
  rintro rfl
  have hnd := h.nodup
  simp only [List.map_cons, List.nodup_cons, List.mem_map, not_exists, not_and] at hnd
  exact hnd.1 _ hq rfl

theorem Owned.new_ne {q j : Nat} (h : Owned R ⟨s, (p, n) :: live⟩ bs) (hq : (q, j) ∈ live) :
    p ≠ q := h.held.new_ne hq

theorem malloc_owned (h : Owned R ⟨s, live⟩ bs) (h1 : 1 ≤ n) (hn : n + 31 < 2 ^ 64) :
    malloc R s n = some (s, 0) ∨
      ∃ s' bs' b, malloc R s n = some (s', b + 8) ∧ Owned R ⟨s', (b + 8, n) :: live⟩ bs' ∧
        Mallocs s s' bs bs' b n ∧ (findFit R s (blockSize n) = some b ∨ b = s.memBrk) := by
  rcases malloc_spec h.heap h.last h1 hn with hnull | ⟨s', bs', b, hcall, hheap, hlast, hm, hb⟩
  · exact .inl hnull
  · exact .inr ⟨s', bs', b, hcall, h.take hheap hlast hm h1, hm, hb⟩

theorem free_owned (h : Owned R ⟨s, live⟩ bs) (hp : (p, n) ∈ live) :
    ∃ s' bs' b, p = b + 8 ∧ b ∈ bs ∧ free R s p = some s' ∧ Owned R ⟨s', dropPtr live p⟩ bs' ∧
      Frees s s' bs bs' b := by
  obtain ⟨b, hb, rfl, hal, hsize, h1⟩ := h.block p n hp
  have hmod := (h.heap.seg.good b hb).aligned
  have h32 : 32 ≤ getSize s.mem b := by
    have hroom : n + 16 ≤ getSize s.mem b := hsize
    have hmul : getSize s.mem b % 16 = 0 := hmod
    omega
  obtain ⟨s', bs', hcall, hheap, hlast, hf⟩ := free_spec h.heap h.last hb h32
  exact ⟨s', bs', b, rfl, hb, hcall, h.drop hheap hlast hf, hf⟩

theorem dropPtr_cons_of_ne (hne : b ≠ p) :
    dropPtr ((b, n) :: live) p = (b, n) :: dropPtr live p := by
  simp [dropPtr, hne]

theorem realloc_owned (h : Owned R ⟨s, live⟩ bs) (hp : (p, k) ∈ live) (h1 : 1 ≤ n)
    (hn : n + 31 < 2 ^ 64) :
    realloc R s p n = some (s, 0) ∨
      ∃ s₁ s' bs₁ bs' b d len, realloc R s p n = some (s', b + 8) ∧
        Mallocs s s₁ bs bs₁ b n ∧ (findFit R s (blockSize n) = some b ∨ b = s.memBrk) ∧
        Owned R ⟨s₁, (b + 8, n) :: live⟩ bs₁ ∧ p = d + 8 ∧ len = min n (getSize s₁.mem d) ∧
        Owned R ⟨{ s₁ with mem := copy s₁.mem (b + 8) p len }, (b + 8, n) :: live⟩ bs₁ ∧
        Owned R ⟨s', (b + 8, n) :: dropPtr live p⟩ bs' ∧
        Frees { s₁ with mem := copy s₁.mem (b + 8) p len } s' bs₁ bs' d := by
  have hp0 := h.ptr_ne_zero hp
  have hn0 : n ≠ 0 := by omega
  rcases malloc_owned h h1 hn with hnull | ⟨s₁, bs₁, b, hcall, hown, hm, hb⟩
  · left
    simp [realloc, hn0, hp0, hnull]
  · right
    have hnew : (b + 8, n) ∈ (b + 8, n) :: live := by simp
    have hcopy := hown.payload hnew
      (changesOnly_copy s₁.mem (b + 8) p (min n (getSize s₁.mem (p - 8)))) le_rfl (by omega)
    obtain ⟨s', bs', d, hpd, -, hfree, hown', hf⟩ :=
      free_owned (p := p) hcopy (List.mem_cons_of_mem _ hp)
    rw [dropPtr_cons_of_ne (hown.new_ne hp)] at hown'
    have hd : p - 8 = d := by omega
    rw [hd] at hcopy hfree hf
    refine ⟨s₁, s', bs₁, bs', b, d, _, ?_, hm, hb, hown, hpd, rfl, hcopy, hown', hf⟩
    have hlen : (if n < getSize s₁.mem (p - headerSize) then n
        else getSize s₁.mem (p - headerSize)) = min n (getSize s₁.mem d) := by
      rw [headerSize, hd]
      split_ifs <;> omega
    simp [realloc, hn0, hp0, hcall, hlen, hfree]

end CS24.Malloc
