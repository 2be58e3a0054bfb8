import CS24.Malloc.Survival
import CS24.Malloc.Walk

/-!
# Requests that wrap around

The header, the footer and the rounding are added to a request modulo `2 ^ 64`, and `calloc`
takes its product modulo `2 ^ 64` before that. A request that wraps around asks for a small block,
and when there is one it is handed out, although no block of the heap is as large as the request.
-/

namespace CS24.Malloc
open Machine Mem

/-- From the pointer on there are `n` bytes before the footer of its block, which is in the
heap. -/
def Holds (s : State) (ptr n : Nat) : Prop :=
  let block := ptr - headerSize
  ptr + n ≤ block + getSize s.mem block - wordSize ∧ block + getSize s.mem block ≤ s.memBrk

/-- Unless it is null, what `malloc` returns holds the request. -/
def MallocHolds (R : Region) (s : State) (size : Nat) : Prop :=
  ∀ s' ptr, malloc R s size = some (s', ptr) → ptr ≠ 0 → Holds s' ptr size

/-- Unless it is null, what `calloc` returns holds the product, in zeros. -/
def CallocHolds (R : Region) (s : State) (nmemb size : Nat) : Prop :=
  ∀ s' ptr, calloc R s nmemb size = some (s', ptr) → ptr ≠ 0 →
    Holds s' ptr (nmemb * size) ∧ ∀ i, i < nmemb * size → s'.mem (ptr + i) = 0

variable {R : Region} {s s' : State} {c : Client} {bs : List Nat} {b k n p : Nat}

theorem Holds.lt (h : Holds s p n) (hbrk : s.memBrk ≤ memMaxAddr R) : n < 2 ^ 63 := by
  have hlow := memMaxAddr_lt R
  obtain ⟨hfits, hinside⟩ := h
  omega

theorem not_holds (hbrk : s.memBrk ≤ memMaxAddr R) (hn : 2 ^ 64 ≤ n + 31) : ¬ Holds s p n := by
  intro h
  have hlt := h.lt hbrk
  omega

theorem malloc_of_serves (h : Heap R s bs) (hs : Serves R s n) :
    ∃ s' p, malloc R s n = some (s', p) ∧ p ≠ 0 ∧ s'.memBrk ≤ memMaxAddr R := by
  have hlow := memMaxAddr_lt R
  have hfind := findFit_eq h (blockSize n)
  by_cases hfit : findFit R s (blockSize n) = some 0
  · have hroom : s.memBrk + blockSize n ≤ memMaxAddr R := hs.resolve_left (not_not.mpr hfit)
    have hserves : ¬ (2 ^ 63 ≤ blockSize n ∨ memMaxAddr R < s.memBrk + blockSize n) := by omega
    have hm := malloc_of_none hfit
    rw [memSbrk, if_neg hserves, if_neg (by omega)] at hm
    exact ⟨_, s.memBrk + 8, hm, by omega, hroom⟩
  · have hb : (bs.find? (fits s.mem (blockSize n))).getD 0 ≠ 0 := by
      intro h0
      rw [h0] at hfind
      exact hfit hfind
    exact ⟨_, _, malloc_of_some hb hfind, Nat.succ_ne_zero _, h.brk⟩

theorem malloc_holds (h : Heap R s bs) (hn : n + 31 < 2 ^ 64) : MallocHolds R s n := by
  intro s' p hcall hp
  rcases malloc_carves h hn with hm | ⟨s'', b, ws, old, rest, zs, hm, -, hheap, hmal, -⟩
  · rw [hm] at hcall
    cases hcall
    exact absurd rfl hp
  · rw [hm] at hcall
    cases hcall
    have hsize := hmal.size
    have hbound := (hheap.seg.tiles.bounds hmal.block).2
    unfold Holds headerSize wordSize
    rw [Nat.add_sub_cancel]
    omega

theorem mallocHolds_iff (h : Heap R s bs) :
    MallocHolds R s n ↔ n + 31 < 2 ^ 64 ∨ ¬ Serves R s n := by
  constructor
  · intro hholds
    by_contra hnot
    obtain ⟨hn, hs⟩ := not_or.mp hnot
    obtain ⟨s', p, hcall, hp, hbrk⟩ := malloc_of_serves h (not_not.mp hs)
    exact not_holds hbrk (by omega) (hholds s' p hcall hp)
  · rintro (hn | hs)
    · exact malloc_holds h hn
    · intro s' p hcall hp
      rw [malloc_of_not_serves hs] at hcall
      cases hcall
      exact absurd rfl hp

theorem calloc_eq (hm : malloc R s (k * n % 2 ^ 64) = some (s', p)) :
    calloc R s k n = if p = 0 then some (s', 0)
      else some ({ s' with mem := fill s'.mem p 0 (k * n % 2 ^ 64) }, p) := by
  simp only [calloc, hm, Option.pure_def, Option.bind_eq_bind, Option.bind_some]

theorem Holds.fill {byte : UInt8} (h : Holds s p n) (hp : 8 ≤ p) :
    Holds { s with mem := Mem.fill s.mem p byte k } p n := by
  have hheader : Agree s.mem (Mem.fill s.mem p byte k) (p - 8) (p - 8 + 8) :=
    agree_fill (.inl (by omega))
  have hsize : getSize (Mem.fill s.mem p byte k) (p - 8) = getSize s.mem (p - 8) := by
    unfold getSize
    rw [load64_congr hheader]
  unfold Holds headerSize at h ⊢
  dsimp only at h ⊢
  rwa [hsize]

theorem fill_apply {m : Mem} {byte : UInt8} {i : Nat} (hi : i < n) :
    Mem.fill m p byte n (p + i) = byte := by
  rw [Mem.fill, if_pos ⟨Nat.le_add_right p i, Nat.add_lt_add_left hi p⟩]

theorem calloc_holds (h : Heap R s bs) (hn : k * n + 31 < 2 ^ 64) : CallocHolds R s k n := by
  intro s' p hcall hp
  have hmod : k * n % 2 ^ 64 = k * n := Nat.mod_eq_of_lt (by omega)
  rcases malloc_carves h hn with hm | ⟨t, b, ws, old, rest, zs, hm, -⟩
  · rw [← hmod] at hm
    rw [calloc_eq hm, if_pos rfl] at hcall
    cases hcall
    exact absurd rfl hp
  · have hholds := malloc_holds h hn t (b + 8) hm (Nat.succ_ne_zero _)
    rw [← hmod] at hm
    rw [calloc_eq hm, if_neg (Nat.succ_ne_zero _), hmod] at hcall
    cases hcall
    exact ⟨hholds.fill (Nat.le_add_left 8 b), fun i hi => fill_apply hi⟩

theorem callocHolds_iff (h : Heap R s bs) :
    CallocHolds R s k n ↔ k * n + 31 < 2 ^ 64 ∨ ¬ Serves R s (k * n % 2 ^ 64) := by
  constructor
  · intro hholds
    by_contra hnot
    obtain ⟨hn, hs⟩ := not_or.mp hnot
    obtain ⟨s', p, hcall, hp, hbrk⟩ := malloc_of_serves h (not_not.mp hs)
    have hcalloc := calloc_eq hcall
    rw [if_neg hp] at hcalloc
    have hbrk' : ({ s' with mem := Mem.fill s'.mem p 0 (k * n % 2 ^ 64) } : State).memBrk ≤
      memMaxAddr R := hbrk
    exact not_holds hbrk' (by omega) (hholds _ p hcalloc hp).1
  · rintro (hn | hs)
    · exact calloc_holds h hn
    · intro s' p hcall hp
      rw [calloc_eq (malloc_of_not_serves hs), if_pos rfl] at hcall
      cases hcall
      exact absurd rfl hp

/-- A request holds what was asked for exactly when it does not wrap around, or when there is no
room even for what is left of it. -/
theorem allocation_sizes_iff (h : Reached R (fun _ => True) (HasRoom R) c) (k n : Nat) :
    (MallocHolds R c.state n ↔ n + 31 < 2 ^ 64 ∨ ¬ Serves R c.state n) ∧
      (CallocHolds R c.state k n ↔ k * n + 31 < 2 ^ 64 ∨ ¬ Serves R c.state (k * n % 2 ^ 64)) := by
  obtain ⟨bs, hheld, -⟩ := (lastBlock_invariant R).reached (fun m => .inl rfl) h
  exact ⟨mallocHolds_iff hheld.heap, callocHolds_iff hheld.heap⟩

theorem allocation_sizes_merged : ∃ c,
    freshClient.allowedRun suggestedRegion (fun _ => True) (HasRoom suggestedRegion)
        smallestMerged = some c ∧
      (MallocHolds suggestedRegion c.state 24 ↔
        24 + 31 < 2 ^ 64 ∨ ¬ Serves suggestedRegion c.state 24) ∧
      (CallocHolds suggestedRegion c.state (2 ^ 33) (2 ^ 31) ↔
        2 ^ 33 * 2 ^ 31 + 31 < 2 ^ 64 ∨
          ¬ Serves suggestedRegion c.state (2 ^ 33 * 2 ^ 31 % 2 ^ 64)) := by
  have hrun : (freshClient.allowedRun suggestedRegion (fun _ => True) (HasRoom suggestedRegion)
      smallestMerged).isSome = true := by decide +kernel
  obtain ⟨c, hc⟩ := Option.isSome_iff_exists.mp hrun
  have h := (Reached.init _).run hc
  exact ⟨c, hc, (allocation_sizes_iff h 0 24).1, (allocation_sizes_iff h (2 ^ 33) (2 ^ 31)).2⟩

/-- In a heap without blocks `malloc` of the largest request returns a block of 16 bytes. -/
theorem allocation_sizes_wrap :
    ¬ ∀ (R : Region) (c : Client), Reached R (fun _ => True) (HasRoom R) c →
      ∀ k n, n < 2 ^ 64 → MallocHolds R c.state n ∧ CallocHolds R c.state k n := by
  intro h
  have hinit : Reached suggestedRegion (fun _ => True) (HasRoom suggestedRegion) freshClient :=
    .init _
  have hholds := (h suggestedRegion freshClient hinit 1 (2 ^ 64 - 1) (by decide)).1
  obtain ⟨bs, hheld, -⟩ := (lastBlock_invariant suggestedRegion).reached (fun m => .inl rfl) hinit
  have hserves : Serves suggestedRegion freshClient.state (2 ^ 64 - 1) := .inr (by decide)
  obtain ⟨s', p, hcall, hp, hbrk⟩ := malloc_of_serves hheld.heap hserves
  exact not_holds hbrk (by decide) (hholds s' p hcall hp)

end CS24.Malloc
