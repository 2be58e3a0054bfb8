import CS24.Malloc.Steps

/-!
# Walking the heap

`mm_checkheap` and `find_fit` go from header to header. A run keeps the headers intact as long
as the links that `free` writes have room: two words in the block it frees, and one after the
word that `last_node` points to. A block of 16 bytes, which `malloc(0)` hands out, has room for
neither.
-/

namespace CS24.Malloc
open Machine Mem

/-- The loop of `mm_checkheap`, for at most `fuel` blocks; `none` when an assertion fails. -/
def mmCheckheapFrom (m : Mem) (hi : Nat) : Nat → Nat → Option Unit
  | 0, _ => none
  | fuel + 1, heapPointer =>
    if heapPointer < hi then
      if 0 < getSize m heapPointer ∧ getSize m heapPointer % alignment = 0 then
        mmCheckheapFrom m hi fuel (heapPointer + getSize m heapPointer)
      else none
    else some ()

def mmCheckheap (R : Region) (s : State) : Option Unit :=
  mmCheckheapFrom s.mem (memHeapHi s) (s.memBrk - R.heap) (firstBlock R)

/-- The assertions of `mm_checkheap` hold, and `find_fit` returns. -/
def Walkable (R : Region) (s : State) : Prop :=
  mmCheckheap R s = some () ∧ ∀ size, ∃ b, findFit R s size = some b

/-- The links that `free` writes for the block `b` have room: the free block has 32 bytes, as a
block of 16 bytes has only after merging, and so has the block of `last_node`. -/
def HasRoom (R : Region) (s : State) (b : Nat) : Prop :=
  (32 ≤ getSize s.mem b ∨ MergesRight s b ∨ MergesLeft R s b) ∧
    (s.lastNode = 0 ∨ 32 ≤ getSize s.mem (s.lastNode - headerSize) ∨
      s.lastNode = b + headerSize ∧ MergesRight s b)

instance (R : Region) (s : State) (b : Nat) : Decidable (HasRoom R s b) :=
  inferInstanceAs (Decidable ((_ ∨ _ ∨ _) ∧ (_ ∨ _ ∨ _ ∧ _)))

variable {R : Region} {s : State} {c : Client} {m : Mem} {bs : List Nat} {p hi : Nat}

theorem mmCheckheapFrom_eq (h : Seg m p bs hi) (hp : 0 < p) {fuel : Nat} (hf : bs.length < fuel) :
    mmCheckheapFrom m (hi - 1) fuel p = some () := by
  induction bs generalizing p fuel with
  | nil =>
    obtain ⟨fuel, rfl⟩ : ∃ k, fuel = k + 1 := ⟨fuel - 1, by omega⟩
    have hend : p = hi := h.tiles
    rw [mmCheckheapFrom, if_neg (by omega)]
  | cons b bs ih =>
    obtain ⟨fuel, rfl⟩ : ∃ k, fuel = k + 1 := ⟨fuel - 1, by omega⟩
    have hbd := h.tiles.bounds (b := b) (by simp)
    have hsz := h.size_ge (b := b) (by simp)
    have hal := (h.good b (by simp)).aligned
    obtain ⟨rfl, hpos, hrest⟩ := h.tiles
    rw [mmCheckheapFrom, if_pos (by omega), if_pos ⟨hpos, hal⟩]
    exact ih ⟨hrest, fun c hc => h.good c (by simp [hc])⟩ (by omega) (by simpa using hf)

theorem Heap.walkable (h : Heap R s bs) : Walkable R s := by
  have hlen := h.seg.length_le
  rw [firstBlock_eq] at hlen
  exact ⟨mmCheckheapFrom_eq h.seg (by rw [firstBlock_eq]; omega) (by omega),
    fun size => ⟨_, findFit_eq h size⟩⟩

theorem lastBlock_invariant (R : Region) : Invariant R (fun _ => True) (HasRoom R) LastBlock where
  carves _ _ _ hi hcarves := by
    rcases hi with h0 | ⟨e, he, hle⟩
    · exact .inl (hcarves.lastNode.trans h0)
    · exact .inr ⟨e, (hcarves.kept he).1, hcarves.lastNode.trans hle⟩
  payload _ hi _ := hi
  fits h hi _ _ hroom := by
    obtain ⟨hblock, hlast⟩ := hroom
    refine ⟨hblock, ?_⟩
    rcases hlast with h0 | h32 | hright
    · exact .inl h0
    · rcases hi with h0 | ⟨e, he, hle⟩
      · exact .inl h0
      · rw [hle, headerSize, Nat.add_sub_cancel] at h32
        exact .inr (.inl (linkClear_of_room h he hle h32))
    · exact .inr (.inr hright)
  merges _ _ _ hm := .inr ⟨_, by simp, hm.lastNode⟩

/-- In every run in which the links of `free` have room, the heap can be walked between any two
calls, and every further such call returns. -/
theorem heap_walkable (h : Reached R (fun _ => True) (HasRoom R) c) :
    Walkable R c.state ∧ ∀ call : Call, call.Fits c.live →
      call.Meets R (fun _ => True) (HasRoom R) c →
      ∃ c' r, c.call R call = some (c', r) := by
  obtain ⟨bs, hheld, hi⟩ := (lastBlock_invariant R).reached (fun m => .inl rfl) h
  refine ⟨hheld.heap.walkable, fun call hv hf => ?_⟩
  obtain ⟨c', r, -, hcall, -⟩ := (lastBlock_invariant R).call hheld hi hv hf
  exact ⟨c', r, hcall⟩

/-- `p = malloc(24); q = malloc(0); r = malloc(24); free(p); free(q)`, where `q` has 16 bytes
and is merged into the free block on its left. -/
def smallestMerged : List Call :=
  [.malloc 24, .malloc 0, .malloc 24, .free 0x800000010, .free 0x800000040]

theorem heap_walkable_merged : ∃ c,
    freshClient.allowedRun suggestedRegion (fun _ => True) (HasRoom suggestedRegion)
        smallestMerged = some c ∧
      c.live = [(0x800000050, 24)] ∧ Walkable suggestedRegion c.state ∧
      ∀ call : Call, call.Fits c.live →
        call.Meets suggestedRegion (fun _ => True) (HasRoom suggestedRegion) c →
        ∃ c' r, c.call suggestedRegion call = some (c', r) := by
  have hrun : (freshClient.allowedRun suggestedRegion (fun _ => True) (HasRoom suggestedRegion)
      smallestMerged).any (fun c => c.live = [(0x800000050, 24)]) = true := by decide +kernel
  obtain ⟨c, hc, hlive⟩ := (Option.any_eq_true _ _).mp hrun
  exact ⟨c, hc, of_decide_eq_true hlive, heap_walkable ((Reached.init _).run hc)⟩

/-- `p = malloc(0); malloc(1); free(p)` -/
def smallestBlock : List Call := [.malloc 0, .malloc 1, .free 0x800000010]

/-- The header of the second block is 0 afterwards. -/
theorem free_of_smallest_block : ∃ c, freshClient.fitRun suggestedRegion smallestBlock = some c ∧
    mmCheckheap suggestedRegion c.state = none ∧
    findFit suggestedRegion c.state 32 = none := by
  have hrun : (match freshClient.fitRun suggestedRegion smallestBlock with
      | some c => decide (mmCheckheap suggestedRegion c.state = none ∧
          findFit suggestedRegion c.state 32 = none)
      | none => false) = true := by decide +kernel
  cases hc : freshClient.fitRun suggestedRegion smallestBlock with
  | none => simp [hc] at hrun
  | some c =>
    simp only [hc, decide_eq_true_eq] at hrun
    exact ⟨c, rfl, hrun⟩

end CS24.Malloc
