import CS24.Malloc.Client

/-!
# Heap integrity

Every valid call of a client returns and keeps the heap tiled by blocks, the
allocated ones being exactly the live ones; a request that fails returns null
and leaves the process as it was.
-/

namespace CS24.Malloc
open Machine Mem

variable {R : Region} {c c' : Client} {bs : List Nat} {call : Call} {r limit : Nat}

theorem dropPtr_of_not_mem {live : List (Nat × Nat)} {p : Nat} (h : ∀ k, (p, k) ∉ live) :
    dropPtr live p = live := by
  refine List.filter_eq_self.mpr fun e he => ?_
  have hne : e.1 ≠ p := by
    rintro rfl
    exact h e.2 he
  simpa using hne

theorem Owned.zero_not_mem (h : Owned R c bs) (k : Nat) : (0, k) ∉ c.live :=
  fun hk => h.ptr_ne_zero hk rfl

/-- The calls that ask for memory and report failure by returning null. -/
def Call.Requests : Call → Prop
  | .malloc _ | .calloc _ _ => True
  | .realloc _ size => size ≠ 0
  | .free _ | .write _ _ _ => False

theorem call_malloc (h : Owned R c bs) {n : Nat} (h1 : 1 ≤ n) (hn : n + 31 < 2 ^ 64) :
    ∃ c' r, c.call R (.malloc n) = some (c', r) ∧ Inv R c' ∧ (r = 0 → c' = c) := by
  rcases malloc_owned h h1 hn with hnull | ⟨s', bs', b, hcall, hown, -⟩
  · exact ⟨c, 0, by simp [Client.call, hnull], ⟨bs, h⟩, fun _ => rfl⟩
  · exact ⟨_, b + 8, by simp [Client.call, hcall], ⟨bs', hown⟩, fun h0 => by omega⟩

theorem call_calloc (h : Owned R c bs) {k n : Nat} (h1 : 1 ≤ k * n)
    (hn : k * n + 31 < 2 ^ 64) :
    ∃ c' r, c.call R (.calloc k n) = some (c', r) ∧ Inv R c' ∧ (r = 0 → c' = c) := by
  have hmod : k * n % 18446744073709551616 = k * n := Nat.mod_eq_of_lt (by omega)
  rcases malloc_owned h h1 hn with hnull | ⟨s', bs', b, hcall, hown, -⟩
  · refine ⟨c, 0, ?_, ⟨bs, h⟩, fun _ => rfl⟩
    simp [Client.call, calloc, hmod, hnull]
  · have hfill := hown.payload (List.mem_cons_self ..)
      (changesOnly_fill s'.mem (b + 8) 0 (k * n)) le_rfl le_rfl
    refine ⟨_, b + 8, ?_, ⟨bs', hfill⟩, fun h0 => by omega⟩
    simp [Client.call, calloc, hmod, hcall]

theorem call_free (h : Owned R c bs) {p : Nat} (hp : p = 0 ∨ ∃ k, (p, k) ∈ c.live) :
    ∃ c' r, c.call R (.free p) = some (c', r) ∧ Inv R c' := by
  rcases hp with rfl | ⟨k, hk⟩
  · refine ⟨c, 0, ?_, ⟨bs, h⟩⟩
    simp [Client.call, free, dropPtr_of_not_mem h.zero_not_mem]
  · obtain ⟨s', bs', b, -, -, hcall, hown, -⟩ := free_owned h hk
    exact ⟨_, 0, by simp [Client.call, hcall], ⟨bs', hown⟩⟩

theorem call_realloc (h : Owned R c bs) {p n : Nat} (hp : p = 0 ∨ ∃ k, (p, k) ∈ c.live)
    (hn : n + 31 < 2 ^ 64) :
    ∃ c' r, c.call R (.realloc p n) = some (c', r) ∧ Inv R c' ∧ (n ≠ 0 → r = 0 → c' = c) := by
  by_cases hn0 : n = 0
  · obtain ⟨c', r, hcall, hinv⟩ := call_free h hp
    refine ⟨c', 0, ?_, hinv, fun hne => absurd hn0 hne⟩
    cases hf : free R c.state p with
    | none => simp [Client.call, hf] at hcall
    | some s' =>
      simp only [Client.call, hf, Option.pure_def, Option.bind_eq_bind, Option.bind_some,
        Option.some.injEq, Prod.mk.injEq] at hcall
      simp [Client.call, realloc, hn0, hf, hcall.1]
  · rcases hp with rfl | ⟨k, hk⟩
    · rcases malloc_owned h (show 1 ≤ n by omega) hn with
        hnull | ⟨s', bs', b, hcall, hown, -⟩
      · refine ⟨c, 0, ?_, ⟨bs, h⟩, fun _ _ => rfl⟩
        simp [Client.call, realloc, hn0, hnull]
      · refine ⟨_, b + 8, ?_, ⟨bs', hown⟩, fun _ h0 => by omega⟩
        simp [Client.call, realloc, hn0, hcall, dropPtr_of_not_mem h.zero_not_mem]
    · rcases realloc_owned h hk (show 1 ≤ n by omega) hn with
        hnull | ⟨s₁, s', bs₁, bs', b, d, len, hcall, -, -, -, -, -, -, hown, -⟩
      · refine ⟨c, 0, ?_, ⟨bs, h⟩, fun _ _ => rfl⟩
        simp [Client.call, hn0, hnull]
      · refine ⟨_, b + 8, ?_, ⟨bs', hown⟩, fun _ h0 => by omega⟩
        simp [Client.call, hn0, hcall]

theorem call_write (h : Owned R c bs) {p off : Nat} {bytes : List UInt8}
    (hp : ∃ k, (p, k) ∈ c.live ∧ off + bytes.length ≤ k) :
    ∃ c' r, c.call R (.write p off bytes) = some (c', r) ∧ Inv R c' := by
  obtain ⟨k, hk, hoff⟩ := hp
  exact ⟨_, 0, rfl, bs, h.payload hk (changesOnly_write _ _ _) (by omega) (by omega)⟩

theorem call_spec (h : Inv R c) (hl : limit ≤ wrapLimit) (hv : call.Valid limit c.live) :
    ∃ c' r, c.call R call = some (c', r) ∧ Inv R c' ∧ (call.Requests → r = 0 → c' = c) := by
  obtain ⟨bs, h⟩ := h
  have hwrap : ∀ n, n < limit → n + 31 < 2 ^ 64 := by
    unfold wrapLimit at hl
    omega
  cases call with
  | malloc n =>
    obtain ⟨c', r, hcall, hinv, hnull⟩ := call_malloc h hv.1 (hwrap _ hv.2)
    exact ⟨c', r, hcall, hinv, fun _ => hnull⟩
  | calloc k n =>
    obtain ⟨c', r, hcall, hinv, hnull⟩ := call_calloc h hv.1 (hwrap _ hv.2)
    exact ⟨c', r, hcall, hinv, fun _ => hnull⟩
  | realloc p n => exact call_realloc h hv.1 (hwrap _ hv.2)
  | free p =>
    obtain ⟨c', r, hcall, hinv⟩ := call_free h hv
    exact ⟨c', r, hcall, hinv, fun hf => hf.elim⟩
  | write p off bytes =>
    obtain ⟨c', r, hcall, hinv⟩ := call_write h hv
    exact ⟨c', r, hcall, hinv, fun hf => hf.elim⟩

theorem memSbrk_of_le {R : Region} {s : State} {incr : Nat} (h : incr < 2 ^ 63)
    (hle : s.memBrk + incr ≤ memMaxAddr R) :
    memSbrk R s incr = ({ s with memBrk := s.memBrk + incr }, s.memBrk) := by
  rw [memSbrk, if_neg]
  omega

theorem mmInit_freshProcess (R : Region) (m : Mem) :
    mmInit R (freshProcess R m) = (⟨m, R.heap + 8, 0⟩, 0) := by
  have hmax : 8 ≤ maxHeap := by decide
  have hlow := R.low
  have hle : R.heap + 8 ≤ memMaxAddr R := Nat.add_le_add_left hmax _
  have hsbrk : memSbrk R ⟨m, R.heap, 0⟩ 8 = (⟨m, R.heap + 8, 0⟩, R.heap) :=
    memSbrk_of_le (by decide) hle
  have hheap : ¬ 2 ^ 63 ≤ R.heap := by omega
  unfold mmInit memResetBrk freshProcess alignment headerSize
  simp only [Nat.reduceSub, hsbrk, if_neg hheap]

theorem init_inv (R : Region) (m : Mem) : Inv R ⟨(mmInit R (freshProcess R m)).1, []⟩ := by
  have hmax : 8 ≤ maxHeap := by decide
  rw [mmInit_freshProcess]
  refine ⟨[], ⟨⟨firstBlock_eq R, by simp⟩, ?_⟩, .inl rfl, by simp, by simp, List.nodup_nil⟩
  unfold memMaxAddr
  exact Nat.add_le_add_left hmax _

theorem Reachable.inv (h : Reachable R limit c) (hl : limit ≤ wrapLimit) : Inv R c := by
  induction h with
  | init m => exact init_inv R m
  | step _ hv hcall ih =>
    obtain ⟨c', r, hcall', hinv, -⟩ := call_spec ih hl hv
    rw [hcall] at hcall'
    obtain ⟨rfl, -⟩ := Prod.mk.inj (Option.some.inj hcall')
    exact hinv

/-- From `heap_lo + 8` to the break the heap is tiled by blocks whose sizes are
positive multiples of the alignment and whose footers equal their headers; the live
pointers are distinct aligned payloads of allocated blocks with room for the requested
bytes before the footer, and every allocated block is live. -/
def Integrity (R : Region) (c : Client) : Prop :=
  ∃ bs, Tiles (getSize c.state.mem) (memHeapLo R + 8) bs c.state.memBrk ∧
    (∀ b ∈ bs, 0 < getSize c.state.mem b ∧ alignment ∣ getSize c.state.mem b ∧
      load64 c.state.mem (b + getSize c.state.mem b - wordSize) = load64 c.state.mem b) ∧
    (c.live.map Prod.fst).Nodup ∧
    (∀ p n, (p, n) ∈ c.live → alignment ∣ p ∧ ∃ b ∈ bs, p = b + headerSize ∧
      checkAllocated c.state.mem b = true ∧ p + n ≤ b + getSize c.state.mem b - wordSize) ∧
    ∀ b ∈ bs, checkAllocated c.state.mem b = true → ∃ n, (b + headerSize, n) ∈ c.live

theorem Owned.aligned (h : Owned R c bs) {b : Nat} (hb : b ∈ bs) : alignment ∣ b + 8 := by
  obtain ⟨xs, ys, rfl, hx, -⟩ := h.heap.seg.split hb
  have hmod := hx.mod_eq_zero
  have hle := hx.tiles.le
  have hheap := R.aligned
  unfold alignment at hheap ⊢
  rw [firstBlock_eq] at hmod hle
  omega

theorem Owned.integrity (h : Owned R c bs) : Integrity R c := by
  refine ⟨bs, h.heap.seg.tiles, ?_, h.nodup, ?_, h.owner⟩
  · intro b hb
    have hg := h.heap.seg.good b hb
    exact ⟨h.heap.seg.tiles.pos hb, Nat.dvd_of_mod_eq_zero hg.aligned, hg.footer⟩
  · intro p n hp
    obtain ⟨b, hb, rfl, hal, hsize, -⟩ := h.block p n hp
    refine ⟨h.aligned hb, b, hb, rfl, hal, ?_⟩
    unfold wordSize
    omega

theorem heap_integrity (R : Region) (c : Client) (h : Reachable R (2 ^ 31) c) :
    Integrity R c ∧ ∀ call : Call, call.Valid (2 ^ 31) c.live →
      ∃ c' r, c.call R call = some (c', r) ∧ (call.Requests → r = 0 → c' = c) := by
  have hl : 2 ^ 31 ≤ wrapLimit := by decide
  obtain ⟨bs, hown⟩ := h.inv hl
  refine ⟨hown.integrity, fun call hv => ?_⟩
  obtain ⟨c', r, hcall, -, hnull⟩ := call_spec ⟨bs, hown⟩ hl hv
  exact ⟨c', r, hcall, hnull⟩

/-- The mapping at the start address `mem_init` suggests to `mmap`. -/
def suggestedRegion : Region := ⟨0x800000000, by decide, by decide, by decide⟩

def freshClient : Client :=
  ⟨(mmInit suggestedRegion (freshProcess suggestedRegion fun _ => 0)).1, []⟩

/-- Calls of every kind: the freed block is split for the `calloc`, and the `realloc` moves. -/
def everyCall : List Call :=
  [.malloc 100, .malloc 24, .write 0x800000090 0 [1, 2, 3], .free 0x800000010, .calloc 3 5,
    .realloc 0x800000090 200]

theorem heap_integrity_every_call : ∃ c,
    freshClient.run suggestedRegion (2 ^ 31) everyCall = some c ∧ c.live.length = 2 ∧
    Integrity suggestedRegion c ∧ ∀ call : Call, call.Valid (2 ^ 31) c.live →
      ∃ c' r, c.call suggestedRegion call = some (c', r) ∧ (call.Requests → r = 0 → c' = c) := by
  have hrun : (freshClient.run suggestedRegion (2 ^ 31) everyCall).any
      (fun c => c.live.length = 2) = true := by decide +kernel
  obtain ⟨c, hc, hlive⟩ := (Option.any_eq_true _ _).mp hrun
  exact ⟨c, hc, of_decide_eq_true hlive,
    heap_integrity suggestedRegion c ((Reachable.init _).run hc)⟩

end CS24.Malloc
