import CS24.Malloc.Integrity

/-!
# First fit

`malloc` takes the lowest free block that is large enough and cuts it to the size of the
request, or puts a block of that size at the break. The bytes of all other blocks stay.
-/

namespace CS24.Malloc
open Machine Mem

variable {R : Region} {s s' : State} {m m' : Mem} {b d n size lo hi : Nat}
  {bs ws zs : List Nat}

/-- A free block of at least this size -/
def Fits (m : Mem) (size b : Nat) : Prop := size ≤ getSize m b ∧ checkAllocated m b = false

def SameBlock (m m' : Mem) (b : Nat) : Prop := Agree m m' b (b + getSize m b)

/-- The lowest block that fits became an allocated block of exactly this size, and what is left
of it a free block. -/
structure Cuts (R : Region) (s s' : State) (ws : List Nat) (b : Nat) (zs : List Nat)
    (size : Nat) : Prop where
  fits : Fits s.mem size b
  lowest : ∀ c ∈ ws ++ b :: zs, Fits s.mem size c → b ≤ c
  exact : getSize s.mem b = size → Heap R s' (ws ++ b :: zs)
  left : getSize s.mem b ≠ size → Heap R s' (ws ++ b :: (b + size) :: zs) ∧
    getSize s'.mem (b + size) = getSize s.mem b - size ∧
    checkAllocated s'.mem (b + size) = false
  size : getSize s'.mem b = size
  allocated : checkAllocated s'.mem b = true
  others : ∀ d ∈ ws ++ zs, SameBlock s.mem s'.mem d
  brk : s'.memBrk = s.memBrk

/-- No block fits, and an allocated block of exactly this size was put at the break. -/
structure Appends (R : Region) (s s' : State) (bs : List Nat) (size : Nat) : Prop where
  none : ∀ c ∈ bs, ¬ Fits s.mem size c
  sbrk : (memSbrk R s size).2 = s.memBrk
  heap : Heap R s' (bs ++ [s.memBrk])
  brk : s'.memBrk = s.memBrk + size
  size : getSize s'.mem s.memBrk = size
  allocated : checkAllocated s'.mem s.memBrk = true
  others : ∀ d ∈ bs, SameBlock s.mem s'.mem d

theorem lowest_of_find (h : Seg m lo bs hi) (hf : bs.find? (fits m size) = some b) {c : Nat}
    (hc : c ∈ bs) (hfit : Fits m size c) : b ≤ c := by
  induction bs generalizing lo with
  | nil => simp at hc
  | cons a bs ih =>
    obtain ⟨p, ha, hrest⟩ := Seg.cons_iff.mp h
    rw [List.find?_cons] at hf
    split at hf
    · obtain rfl : a = b := Option.some.inj hf
      rcases List.mem_cons.mp hc with rfl | hc
      · exact le_rfl
      · have hac := (ha.tiles.bounds (List.mem_singleton_self a)).2
        have hpc := (hrest.tiles.bounds hc).1
        omega
    · rename_i hno
      rcases List.mem_cons.mp hc with rfl | hc
      · rw [fits_iff.mpr hfit] at hno
        cases hno
      · exact ih hrest hf hc

theorem getSize_eq_of_segs (h : Seg m lo (ws ++ b :: zs) hi) (h' : Seg m' lo (ws ++ b :: zs) hi) :
    getSize m' b = getSize m b := by
  obtain ⟨p, -, hrest⟩ := Seg.append_iff.mp h
  obtain ⟨p', -, hrest'⟩ := Seg.append_iff.mp h'
  obtain ⟨rfl, -, hzs⟩ := hrest.tiles
  obtain ⟨rfl, -, hzs'⟩ := hrest'.tiles
  cases zs with
  | nil =>
    have hend : b + getSize m b = hi := hzs
    have hend' : b + getSize m' b = hi := hzs'
    omega
  | cons z zs =>
    have hz := hzs.1
    have hz' := hzs'.1
    omega

theorem split_cuts (h : Heap R s bs) (hf : bs.find? (fits s.mem size) = some b)
    (hmod : size % 16 = 0) (hpos : 0 < size) : ∃ ws zs, bs = ws ++ b :: zs ∧
      Cuts R s { s with mem := split s.mem b size } ws b zs size := by
  have hb := List.mem_of_find?_eq_some hf
  have hfit := fits_iff.mp (List.find?_some hf)
  obtain ⟨ws, rest, zs, hbs, hseg, hal, hget, hrest, hout, hone⟩ :=
    split_spec h hb hmod hpos hfit.1
  rw [List.append_assoc, List.singleton_append] at hbs
  subst hbs
  refine ⟨ws, zs, rfl, hfit, fun c hc => lowest_of_find h.seg hf hc, fun hsize => ?_,
    fun hsize => ?_, hget, hal, hout, rfl⟩
  · rcases hone with rfl | ⟨-, hlt, -⟩
    · rw [List.append_assoc, List.singleton_append] at hseg
      exact ⟨hseg, h.brk⟩
    · omega
  · rcases hone with rfl | ⟨rfl, -, hleft⟩
    · rw [List.append_assoc, List.singleton_append] at hseg
      exact absurd ((getSize_eq_of_segs h.seg hseg).symm.trans hget) hsize
    · rw [List.append_assoc, List.cons_append, List.singleton_append] at hseg
      exact ⟨⟨hseg, h.brk⟩, hleft, hrest _ (List.mem_singleton_self _)⟩

theorem mark_appends (h : Heap R s bs) (hf : bs.find? (fits s.mem size) = none)
    (hmod : size % 16 = 0) (hsize : n + 16 ≤ size) (hbrk : s.memBrk + size ≤ memMaxAddr R) :
    Appends R s ⟨mark s.mem s.memBrk size true, s.memBrk + size, s.lastNode⟩ bs size := by
  obtain ⟨hheap, hmal, -⟩ := malloc_extend h hmod hsize hbrk
  have hlow := memMaxAddr_lt R
  have hold : Agree s.mem (mark s.mem s.memBrk size true) (firstBlock R) s.memBrk :=
    mark_agree hmod (by omega) (by omega) (.inl le_rfl) (.inl (by omega))
  refine ⟨fun c hc hfit => ?_, ?_, hheap, rfl, mark_getSize hmod (by omega) (by omega),
    hmal.allocated, fun d hd => ?_⟩
  · exact List.find?_eq_none.mp hf c hc (fits_iff.mpr hfit)
  · rw [memSbrk_of_le (by omega) hbrk]
  · obtain ⟨hge, hle⟩ := h.seg.tiles.bounds hd
    exact hold.mono hge hle

theorem blockSize_eq (hn : n + 31 < 2 ^ 64) : blockSize n = roundUp (n + 16) alignment := by
  have hmod : (headerSize + n + wordSize) % 2 ^ 64 = n + 16 := by
    unfold headerSize wordSize
    omega
  rw [blockSize, hmod]

/-- `malloc` is exact first fit: it cuts the lowest free block that is large enough to the size of
the request, or appends a block of that size, or returns null and changes nothing when the break
cannot move. -/
theorem malloc_first_fit (h : Heap R s bs) (hn : n + 31 < 2 ^ 64) :
    (∃ s' ws b zs, bs = ws ++ b :: zs ∧ malloc R s n = some (s', b + headerSize) ∧
      Cuts R s s' ws b zs (roundUp (n + 16) alignment)) ∨
    (∃ s', malloc R s n = some (s', s.memBrk + headerSize) ∧
      Appends R s s' bs (roundUp (n + 16) alignment)) ∨
    (∀ c ∈ bs, ¬ Fits s.mem (roundUp (n + 16) alignment) c) ∧
      memSbrk R s (roundUp (n + 16) alignment) = (s, 2 ^ 64 - 1) ∧
      malloc R s n = some (s, 0) := by
  obtain ⟨hmod, hge, hle⟩ := blockSize_spec hn
  rw [← blockSize_eq hn]
  rcases malloc_cases h hn with ⟨hnone, hfull, hm⟩ | ⟨hnone, hroom, hm⟩ | ⟨b, hb, -, hm⟩
  · refine .inr (.inr ⟨fun c hc hfit => ?_, ?_, hm⟩)
    · exact List.find?_eq_none.mp hnone c hc (fits_iff.mpr hfit)
    · rw [memSbrk, if_pos (.inr hfull)]
  · exact .inr (.inl ⟨_, hm, mark_appends h hnone hmod hge hroom⟩)
  · obtain ⟨ws, zs, hbs, hcuts⟩ := split_cuts h hb hmod (by omega)
    exact .inl ⟨_, ws, b, zs, hbs, hm, hcuts⟩

def oneFree : State :=
  ⟨mark (fun _ => 0) (firstBlock suggestedRegion) 48 false, firstBlock suggestedRegion + 48, 0⟩

theorem oneFree_heap : Heap suggestedRegion oneFree [firstBlock suggestedRegion] :=
  ⟨Seg.mark (by decide) (by decide) (by decide), by decide⟩

theorem oneFree_fits : Fits oneFree.mem 32 (firstBlock suggestedRegion) := by
  refine ⟨?_, mark_checkAllocated (by decide) (by decide) (by decide)⟩
  have hsize : getSize oneFree.mem (firstBlock suggestedRegion) = 48 :=
    mark_getSize (by decide) (by decide) (by decide)
  omega

theorem malloc_first_fit_oneFree : ∃ s' ws b zs,
    malloc suggestedRegion oneFree 8 = some (s', b + 8) ∧
      Cuts suggestedRegion oneFree s' ws b zs 32 := by
  rcases malloc_first_fit (n := 8) oneFree_heap (by decide) with
    ⟨s', ws, b, zs, -, hm, hcuts⟩ | ⟨s', -, happends⟩ | ⟨hnone, -⟩
  · exact ⟨s', ws, b, zs, hm, hcuts⟩
  · exact absurd oneFree_fits (happends.none _ (List.mem_singleton_self _))
  · exact absurd oneFree_fits (hnone _ (List.mem_singleton_self _))

end CS24.Malloc
