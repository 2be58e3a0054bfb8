import CS24.Malloc.Integrity

/-!
# Calls of any size

Calls for any number of bytes that `round_up` can round, zero among them; what `calloc` asks for
is the product modulo `2 ^ 64`. An invariant of the heap is checked once against what `malloc`,
a client and `free` do to the blocks, and then holds in every run whose freeing calls meet a
condition on the state in which `free` is entered.
-/

namespace CS24.Malloc
open Machine Mem

/-- Calls on live pointers, with requests that `round_up` does not wrap around. -/
def Call.Fits (live : List (Nat × Nat)) : Call → Prop
  | .malloc size => size + 31 < 2 ^ 64
  | .calloc nmemb size => nmemb * size % 2 ^ 64 + 31 < 2 ^ 64
  | .realloc ptr size => (ptr = 0 ∨ ∃ k, (ptr, k) ∈ live) ∧ size + 31 < 2 ^ 64
  | .free ptr => ptr = 0 ∨ ∃ k, (ptr, k) ∈ live
  | .write ptr offset bytes => ∃ k, (ptr, k) ∈ live ∧ offset + bytes.length ≤ k % 2 ^ 64

instance (live : List (Nat × Nat)) (call : Call) : Decidable (call.Fits live) :=
  match call with
  | .malloc _ => inferInstanceAs (Decidable (_ < _))
  | .calloc _ _ => inferInstanceAs (Decidable (_ < _))
  | .realloc _ _ => inferInstanceAs (Decidable ((_ ∨ _) ∧ _))
  | .free _ => inferInstanceAs (Decidable (_ ∨ _))
  | .write ptr offset bytes =>
    decidable_of_iff (∃ e ∈ live, e.1 = ptr ∧ offset + bytes.length ≤ e.2 % 2 ^ 64)
      (exists_live_iff (P := fun k => offset + bytes.length ≤ k % 2 ^ 64))

def Client.fitRun (R : Region) : Client → List Call → Option Client
  | c, [] => some c
  | c, call :: calls =>
    if call.Fits c.live then
      match c.call R call with
      | some (c, _) => c.fitRun R calls
      | none => none
    else none

/-- The client for which a call enters `free` on a pointer, and the pointer. -/
def Call.freesAt (R : Region) (c : Client) : Call → Option (Client × Nat)
  | .malloc _ | .calloc _ _ | .write _ _ _ => none
  | .free ptr => if ptr = 0 then none else some (c, ptr)
  | .realloc ptr size =>
    if ptr = 0 then none
    else if size = 0 then some (c, ptr)
    else match Malloc.malloc R c.state size with
      | some (s, newPtr) =>
        if newPtr = 0 then none
        else
          let oldSize := getSize s.mem (ptr - headerSize)
          let oldSize := if size < oldSize then size else oldSize
          some (⟨{ s with mem := copy s.mem newPtr ptr oldSize }, (newPtr, size) :: c.live⟩, ptr)
      | none => none

/-- The bytes that a call asks `malloc` for. -/
def Call.asks : Call → Option Nat
  | .malloc size => some size
  | .calloc nmemb size => some (nmemb * size % 2 ^ 64)
  | .realloc _ size => if size = 0 then none else some size
  | .free _ | .write _ _ _ => none

/-- The property `I` of the blocks of the heap outlives every step of the allocator, if `malloc`
is only asked for numbers of bytes that meet `G`, and `free` is only entered in a state and on a
block that meet `F`. -/
structure Invariant (R : Region) (G : Nat → Prop) (F : State → Nat → Prop)
    (I : State → List Nat → Prop) : Prop where
  carves : ∀ {s s' : State} {ws old rest zs : List Nat} {b n : Nat}, n + 31 < 2 ^ 64 → G n →
    Heap R s (ws ++ old ++ zs) → I s (ws ++ old ++ zs) →
    Carves R s s' ws old rest zs b (blockSize n) → I s' (ws ++ (b :: rest) ++ zs)
  payload : ∀ {s : State} {m' : Mem} {bs : List Nat}, Heap R s bs → I s bs →
    (∀ d ∈ bs, SameTags s.mem m' d) → I { s with mem := m' } bs
  fits : ∀ {s : State} {bs : List Nat} {b : Nat}, Heap R s bs → I s bs → b ∈ bs →
    checkAllocated s.mem b = true → F s b → LinksFit R s bs b
  merges : ∀ {s s' : State} {ws pre post zs : List Nat} {b p q : Nat},
    Heap R s (ws ++ (pre ++ b :: post) ++ zs) → I s (ws ++ (pre ++ b :: post) ++ zs) → F s b →
    Merges R s s' b ws pre post zs p q → I s' (ws ++ [p] ++ zs)

/-- The call asks for bytes as `G` allows and enters `free` as `F` allows. -/
structure Call.Meets (R : Region) (G : Nat → Prop) (F : State → Nat → Prop) (c : Client)
    (call : Call) : Prop where
  asks : ∀ n, call.asks = some n → G n
  frees : ∀ c' ptr, call.freesAt R c = some (c', ptr) → F c'.state (ptr - headerSize)

/-- The clients that exist after `mm_init` in a fresh process and any finite sequence of calls
that fit and do as `G` and `F` allow. -/
inductive Reached (R : Region) (G : Nat → Prop) (F : State → Nat → Prop) : Client → Prop where
  | init (m : Mem) : Reached R G F ⟨(mmInit R (freshProcess R m)).1, []⟩
  | step {c c' : Client} {call : Call} {r : Nat} : Reached R G F c → call.Fits c.live →
      call.Meets R G F c → c.call R call = some (c', r) → Reached R G F c'

variable {R : Region} {G : Nat → Prop} {F : State → Nat → Prop} {I : State → List Nat → Prop}
  {s s' : State} {c c' : Client} {bs : List Nat} {live : List (Nat × Nat)} {n p k : Nat}

theorem Call.meets_iff {call : Call} : call.Meets R G F c ↔ (∀ n ∈ call.asks, G n) ∧
    ∀ e ∈ call.freesAt R c, F e.1.state (e.2 - headerSize) :=
  ⟨fun h => ⟨h.asks, fun e he => h.frees e.1 e.2 he⟩,
    fun h => ⟨h.1, fun c' ptr he => h.2 (c', ptr) he⟩⟩

instance [DecidablePred G] [∀ s b, Decidable (F s b)] (call : Call) :
    Decidable (call.Meets R G F c) :=
  decidable_of_iff _ Call.meets_iff.symm

/-- A run of calls, as long as they fit, do as `G` and `F` allow, and return. -/
def Client.allowedRun (R : Region) (G : Nat → Prop) (F : State → Nat → Prop) [DecidablePred G]
    [∀ s b, Decidable (F s b)] : Client → List Call → Option Client
  | c, [] => some c
  | c, call :: calls =>
    if call.Fits c.live ∧ call.Meets R G F c then
      match c.call R call with
      | some (c, _) => c.allowedRun R G F calls
      | none => none
    else none

theorem Reached.run [DecidablePred G] [∀ s b, Decidable (F s b)] {calls : List Call}
    (h : Reached R G F c) (hr : c.allowedRun R G F calls = some c') : Reached R G F c' := by
  induction calls generalizing c with
  | nil => exact Option.some.inj hr ▸ h
  | cons call calls ih =>
    rw [Client.allowedRun] at hr
    split_ifs at hr with hv
    cases hcall : c.call R call with
    | none => simp [hcall] at hr
    | some d =>
      rw [hcall] at hr
      exact ih (h.step hv.1 hv.2 hcall) hr

theorem init_held (R : Region) (m : Mem) : Held R ⟨(mmInit R (freshProcess R m)).1, []⟩ [] := by
  have hmax : 8 ≤ maxHeap := by decide
  rw [mmInit_freshProcess]
  refine ⟨⟨⟨firstBlock_eq R, by simp⟩, ?_⟩, by simp, by simp, List.nodup_nil⟩
  unfold memMaxAddr
  exact Nat.add_le_add_left hmax _

namespace Invariant

theorem malloc (hI : Invariant R G F I) (h : Held R ⟨s, live⟩ bs) (hi : I s bs)
    (hn : n % 2 ^ 64 + 31 < 2 ^ 64) (hg : G (n % 2 ^ 64)) :
    malloc R s (n % 2 ^ 64) = some (s, 0) ∨
      ∃ s' bs' b, Malloc.malloc R s (n % 2 ^ 64) = some (s', b + 8) ∧
        Held R ⟨s', (b + 8, n) :: live⟩ bs' ∧ I s' bs' := by
  rcases malloc_carves h.heap hn with
    hnull | ⟨s', b, ws, old, rest, zs, hcall, rfl, hheap, hmal, hcarves⟩
  · exact .inl hnull
  · exact .inr ⟨s', _, b, hcall, h.take hheap hmal, hI.carves hn hg h.heap hi hcarves⟩

theorem free (hI : Invariant R G F I) (h : Held R ⟨s, live⟩ bs) (hi : I s bs)
    (hp : (p, k) ∈ live) (hf : F s (p - 8)) :
    ∃ s' bs', Malloc.free R s p = some s' ∧ Held R ⟨s', dropPtr live p⟩ bs' ∧ I s' bs' := by
  obtain ⟨b, hb, rfl, hal, -⟩ := h.block p k hp
  rw [Nat.add_sub_cancel] at hf
  have hfit := hI.fits h.heap hi hb hal hf
  obtain ⟨s', ws, pre, post, zs, q, r, hcall, rfl, hm⟩ := free_merges h.heap hb hfit
  exact ⟨s', _, hcall, h.drop hm.heap hm.frees, hI.merges h.heap hi hf hm⟩

theorem write (hI : Invariant R G F I) (h : Held R ⟨s, live⟩ bs) (hi : I s bs)
    (hp : (p, k) ∈ live) {m' : Mem} (hc : ChangesOnly s.mem m' p n) (hn : n ≤ k % 2 ^ 64) :
    Held R ⟨{ s with mem := m' }, live⟩ bs ∧ I { s with mem := m' } bs := by
  have htags := h.sameTags hp hc le_rfl (by omega)
  exact ⟨h.congr htags, hI.payload h.heap hi htags⟩

theorem call_malloc (hI : Invariant R G F I) (h : Held R c bs) (hi : I c.state bs)
    (hn : n + 31 < 2 ^ 64) (hg : G n) :
    ∃ c' r bs', c.call R (.malloc n) = some (c', r) ∧ Held R c' bs' ∧ I c'.state bs' := by
  have hmod : n % 2 ^ 64 = n := Nat.mod_eq_of_lt (by omega)
  rcases hI.malloc (n := n) h hi (by omega) (by rwa [hmod]) with
    hnull | ⟨s', bs', b, hcall, hheld, hi'⟩
  · rw [hmod] at hnull
    exact ⟨c, 0, bs, by simp [Client.call, hnull], h, hi⟩
  · rw [hmod] at hcall
    exact ⟨_, b + 8, bs', by simp [Client.call, hcall], hheld, hi'⟩

theorem call_calloc (hI : Invariant R G F I) (h : Held R c bs) (hi : I c.state bs)
    (hn : k * n % 2 ^ 64 + 31 < 2 ^ 64) (hg : G (k * n % 2 ^ 64)) :
    ∃ c' r bs', c.call R (.calloc k n) = some (c', r) ∧ Held R c' bs' ∧ I c'.state bs' := by
  rcases hI.malloc (n := k * n) h hi hn hg with hnull | ⟨s', bs', b, hcall, hheld, hi'⟩
  · refine ⟨c, 0, bs, ?_, h, hi⟩
    simp only [Client.call, calloc, hnull, Option.pure_def, Option.bind_eq_bind,
      Option.bind_some, if_true]
  · have hfill := hI.write hheld hi' (List.mem_cons_self ..)
      (changesOnly_fill s'.mem (b + 8) 0 (k * n % 2 ^ 64)) le_rfl
    have hb : b + 8 ≠ 0 := by omega
    refine ⟨_, b + 8, bs', ?_, hfill⟩
    simp only [Client.call, calloc, hcall, hb, Option.pure_def, Option.bind_eq_bind,
      Option.bind_some, if_false]

theorem call_free (hI : Invariant R G F I) (h : Held R c bs) (hi : I c.state bs)
    (hp : p = 0 ∨ ∃ k, (p, k) ∈ c.live) (hf : p ≠ 0 → F c.state (p - 8)) :
    ∃ c' bs', c.call R (.free p) = some (c', 0) ∧ Held R c' bs' ∧ I c'.state bs' := by
  rcases hp with rfl | ⟨k, hk⟩
  · have hlive : dropPtr c.live 0 = c.live :=
      dropPtr_of_not_mem fun k hk => h.ptr_ne_zero hk rfl
    refine ⟨c, bs, ?_, h, hi⟩
    simp [Client.call, Malloc.free, hlive]
  · obtain ⟨s', bs', hcall, hheld, hi'⟩ := hI.free h hi hk (hf (h.ptr_ne_zero hk))
    exact ⟨_, bs', by simp [Client.call, hcall], hheld, hi'⟩

theorem call_realloc (hI : Invariant R G F I) (h : Held R c bs) (hi : I c.state bs)
    (hp : p = 0 ∨ ∃ k, (p, k) ∈ c.live) (hn : n + 31 < 2 ^ 64) (hg : n ≠ 0 → G n)
    (hf : ∀ c' ptr, (Call.realloc p n).freesAt R c = some (c', ptr) → F c'.state (ptr - 8)) :
    ∃ c' r bs', c.call R (.realloc p n) = some (c', r) ∧ Held R c' bs' ∧ I c'.state bs' := by
  by_cases hn0 : n = 0
  · have hf' : p ≠ 0 → F c.state (p - 8) := fun hp0 =>
      hf c p (by rw [Call.freesAt, if_neg hp0, if_pos hn0])
    obtain ⟨c', bs', hcall, hheld, hi'⟩ := hI.call_free h hi hp hf'
    refine ⟨c', 0, bs', ?_, hheld, hi'⟩
    cases hfree : Malloc.free R c.state p with
    | none => simp [Client.call, hfree] at hcall
    | some s' =>
      simp only [Client.call, hfree, Option.pure_def, Option.bind_eq_bind, Option.bind_some,
        Option.some.injEq, Prod.mk.injEq] at hcall
      simp [Client.call, realloc, hn0, hfree, hcall.1]
  · have hmod : n % 2 ^ 64 = n := Nat.mod_eq_of_lt (by omega)
    have hmalloc := hI.malloc (n := n) h hi (by omega) (by rw [hmod]; exact hg hn0)
    rw [hmod] at hmalloc
    rcases hp with rfl | ⟨k, hk⟩
    · have hlive : dropPtr c.live 0 = c.live :=
        dropPtr_of_not_mem fun k hk => h.ptr_ne_zero hk rfl
      rcases hmalloc with hnull | ⟨s', bs', b, hcall, hheld, hi'⟩
      · refine ⟨c, 0, bs, ?_, h, hi⟩
        simp [Client.call, realloc, hn0, hnull]
      · refine ⟨_, b + 8, bs', ?_, hheld, hi'⟩
        simp [Client.call, realloc, hn0, hcall, hlive]
    · have hp0 := h.ptr_ne_zero hk
      rcases hmalloc with hnull | ⟨s₁, bs₁, b, hcall, hheld, hi'⟩
      · refine ⟨c, 0, bs, ?_, h, hi⟩
        simp [Client.call, realloc, hn0, hp0, hnull]
      · have hb0 : b + 8 ≠ 0 := by omega
        obtain ⟨len, hlen⟩ : ∃ len, (if n < getSize s₁.mem (p - headerSize) then n
            else getSize s₁.mem (p - headerSize)) = len := ⟨_, rfl⟩
        have hle : len ≤ n % 2 ^ 64 := by
          rw [hmod, ← hlen]
          split_ifs
          · exact le_rfl
          · omega
        obtain ⟨hcopy, hicopy⟩ := hI.write hheld hi' (List.mem_cons_self ..)
          (changesOnly_copy s₁.mem (b + 8) p len) hle
        have hfreed := hf ⟨{ s₁ with mem := copy s₁.mem (b + 8) p len }, (b + 8, n) :: c.live⟩ p
          (by simp [Call.freesAt, hp0, hn0, hcall, hlen])
        obtain ⟨s', bs', hfree, hheld', hi''⟩ :=
          hI.free hcopy hicopy (List.mem_cons_of_mem _ hk) hfreed
        rw [dropPtr_cons_of_ne (hheld.new_ne hk)] at hheld'
        refine ⟨_, b + 8, bs', ?_, hheld', hi''⟩
        simp [Client.call, realloc, hn0, hp0, hcall, hlen, hfree]

theorem call {call : Call} (hI : Invariant R G F I) (h : Held R c bs) (hi : I c.state bs)
    (hv : call.Fits c.live) (hm : call.Meets R G F c) :
    ∃ c' r bs', c.call R call = some (c', r) ∧ Held R c' bs' ∧ I c'.state bs' := by
  cases call with
  | malloc n => exact hI.call_malloc h hi hv (hm.asks n rfl)
  | calloc k n => exact hI.call_calloc h hi hv (hm.asks _ rfl)
  | realloc p n => exact hI.call_realloc h hi hv.1 hv.2 (fun hn0 => hm.asks n (if_neg hn0)) hm.frees
  | free p =>
    obtain ⟨c', bs', hcall, hheld, hi'⟩ := hI.call_free h hi hv
      fun hp0 => hm.frees c p (by rw [Call.freesAt, if_neg hp0])
    exact ⟨c', 0, bs', hcall, hheld, hi'⟩
  | write p off bytes =>
    obtain ⟨k, hk, hoff⟩ := hv
    have htags := h.sameTags hk (changesOnly_write c.state.mem (p + off) bytes) (by omega)
      (by omega)
    exact ⟨_, 0, bs, rfl, h.congr htags, hI.payload h.heap hi htags⟩

theorem reached (hI : Invariant R G F I) (hinit : ∀ m, I ⟨m, R.heap + 8, 0⟩ [])
    (h : Reached R G F c) : ∃ bs, Held R c bs ∧ I c.state bs := by
  induction h with
  | init m =>
    refine ⟨[], init_held R m, ?_⟩
    rw [mmInit_freshProcess]
    exact hinit m
  | step _ hv hm hcall ih =>
    obtain ⟨bs, hheld, hi⟩ := ih
    obtain ⟨c', r, bs', hcall', hheld', hi'⟩ := hI.call hheld hi hv hm
    rw [hcall] at hcall'
    obtain ⟨rfl, -⟩ := Prod.mk.inj (Option.some.inj hcall')
    exact ⟨bs', hheld', hi'⟩

end Invariant

end CS24.Malloc
