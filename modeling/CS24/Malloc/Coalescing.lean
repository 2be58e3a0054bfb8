import CS24.Malloc.Walk

/-!
# Adjacent free blocks

`coalesce` takes a block for the first one of the heap when the block's own size reaches back to
the start of the heap, whether or not there are smaller blocks before it. Where it does not
mistake a block for the first one, no two adjacent blocks are ever both free.
-/

namespace CS24.Malloc
open Machine Mem

def Separated (m : Mem) (bs : List Nat) : Prop :=
  bs.IsChain fun a b => checkAllocated m a = true ∨ checkAllocated m b = true

/-- From the first block to the break no two adjacent blocks are both free. -/
def Coalesced (R : Region) (s : State) : Prop :=
  ∃ bs, Tiles (getSize s.mem) (firstBlock R) bs s.memBrk ∧ Separated s.mem bs

/-- `coalesce` of `b` misses no free block on the left: `b` is the first block, or the footer
before it says that the block there is allocated, or `b` does not reach back to the start. -/
def SeesLeft (R : Region) (s : State) (b : Nat) : Prop :=
  b = firstBlock R ∨ load64 s.mem (b - wordSize) % 2 = 1 ∨ firstBlock R + getSize s.mem b < b

instance (R : Region) (s : State) (b : Nat) : Decidable (SeesLeft R s b) :=
  inferInstanceAs (Decidable (_ ∨ _ ∨ _))

variable {R : Region} {s s' : State} {c : Client} {m m' : Mem} {b p q size : Nat}
  {bs ws old rest pre post xs ys zs : List Nat}

theorem Separated.congr (h : Separated m bs) (hs : ∀ b ∈ bs, SameTags m m' b) :
    Separated m' bs := by
  refine List.IsChain.imp_of_mem_imp (fun a b ha hb hab => ?_) h
  rw [(hs a ha).checkAllocated, (hs b hb).checkAllocated]
  exact hab

theorem separated_append : Separated m (xs ++ ys) ↔ Separated m xs ∧ Separated m ys ∧
    ∀ a ∈ xs.getLast?, ∀ b ∈ ys.head?, checkAllocated m a = true ∨ checkAllocated m b = true :=
  List.isChain_append

theorem Separated.carves (h : Separated s.mem (ws ++ old ++ zs))
    (hc : Carves R s s' ws old rest zs b size) : Separated s'.mem (ws ++ (b :: rest) ++ zs) := by
  obtain ⟨hleft, hzs, hjoin⟩ := separated_append.mp h
  obtain ⟨hws, -, -⟩ := separated_append.mp hleft
  have hrest : Separated s'.mem (b :: rest) := by
    cases hc.place with
    | extend => exact .singleton b
    | split _ _ _ hone =>
      rcases hone with rfl | ⟨rfl, -⟩
      · exact .singleton b
      · exact .cons_cons (.inl hc.allocated) (.singleton _)
  have hfront : Separated s'.mem (ws ++ (b :: rest)) := by
    refine separated_append.mpr ⟨hws.congr fun d hd => hc.tags d (by simp [hd]), hrest, ?_⟩
    intro a _ d hd
    obtain rfl := Option.some.inj hd
    exact .inr hc.allocated
  refine separated_append.mpr ⟨hfront, hzs.congr fun d hd => hc.tags d (by simp [hd]), ?_⟩
  intro a ha d hd
  have hmem : d ∈ zs := List.mem_of_mem_head? hd
  -- what is left of a free block meets an allocated one
  cases hc.place with
  | extend => cases hmem
  | split hfree =>
    right
    have hb := hjoin b (by simp) d hd
    rw [hfree] at hb
    rw [(hc.tags d (by simp [hmem])).checkAllocated]
    exact hb.resolve_left Bool.false_ne_true

theorem Separated.after (h : Separated s.mem (ws ++ (pre ++ b :: post) ++ zs))
    (hco : Coalesces R s b ws pre post zs p q) :
    ∀ d ∈ zs.head?, checkAllocated s.mem d = true := by
  intro d hd
  rcases List.eq_nil_or_concat post with rfl | ⟨post, e, rfl⟩
  · exact hco.right_end rfl d hd
  · obtain ⟨-, -, hjoin⟩ := separated_append.mp h
    have he := hjoin e (by simp [List.getLast?_append, List.getLast?_cons]) d hd
    rw [hco.post_free e (by simp)] at he
    exact he.resolve_left Bool.false_ne_true

theorem Separated.before (h : Separated s.mem (ws ++ (pre ++ b :: post) ++ zs))
    (hco : Coalesces R s b ws pre post zs p q) (hsees : SeesLeft R s b) :
    ∀ a ∈ ws.getLast?, checkAllocated s.mem a = true := by
  intro a ha
  cases pre with
  | cons e pre =>
    obtain ⟨hleft, -, -⟩ := separated_append.mp h
    obtain ⟨-, -, hjoin⟩ := separated_append.mp hleft
    have he := hjoin a ha e (by simp)
    rw [hco.pre_free e (by simp)] at he
    exact he.resolve_right Bool.false_ne_true
  | nil =>
    have hpb : b = p := hco.run.tiles.1
    subst hpb
    rcases hsees with hfirst | hfoot | hlt
    · have hmem : a ∈ ws := List.mem_of_mem_getLast? ha
      have hbd := hco.before.tiles.bounds hmem
      have hsz := hco.before.size_ge hmem
      omega
    · obtain ⟨ws, rfl⟩ := List.getLast?_eq_some_iff.mp ha
      obtain ⟨e, -, hae⟩ := Tiles.append_iff.mp hco.before.tiles
      obtain ⟨rfl, -, hend⟩ := hae
      have hend' : a + getSize s.mem a = b := hend
      have hg := (hco.before.good a (by simp)).footer
      rw [hend'] at hg
      rw [wordSize, hg] at hfoot
      rw [checkAllocated, hfoot]
      rfl
    · exact hco.left_end rfl hlt a ha

theorem Separated.merges (h : Separated s.mem (ws ++ (pre ++ b :: post) ++ zs))
    (hm : Merges R s s' b ws pre post zs p q) (hsees : SeesLeft R s b) :
    Separated s'.mem (ws ++ [p] ++ zs) := by
  have hafter := h.after hm.coalesces
  have hbefore := h.before hm.coalesces hsees
  obtain ⟨hleft, hzs, -⟩ := separated_append.mp h
  obtain ⟨hws, -, -⟩ := separated_append.mp hleft
  have hfront : Separated s'.mem (ws ++ [p]) := by
    refine separated_append.mpr ⟨hws.congr fun d hd => hm.tags d (by simp [hd]), .singleton p, ?_⟩
    intro a ha d _
    rw [(hm.tags a (by simp [List.mem_of_mem_getLast? ha])).checkAllocated]
    exact .inl (hbefore a ha)
  refine separated_append.mpr ⟨hfront, hzs.congr fun d hd => hm.tags d (by simp [hd]), ?_⟩
  intro a _ d hd
  rw [(hm.tags d (by simp [List.mem_of_mem_head? hd])).checkAllocated]
  exact .inr (hafter d hd)

/-- The allocated blocks have 32 bytes, and so has the block of `last_node`. -/
structure Roomy (s : State) (bs : List Nat) : Prop where
  last : LastNode s bs
  allocated : ∀ b ∈ bs, checkAllocated s.mem b = true → 32 ≤ getSize s.mem b

theorem Roomy.carves {n : Nat} (h : Roomy s (ws ++ old ++ zs)) (hn : n + 31 < 2 ^ 64)
    (h1 : 1 ≤ n) (hc : Carves R s s' ws old rest zs b (blockSize n)) :
    Roomy s' (ws ++ (b :: rest) ++ zs) := by
  obtain ⟨hmod, hge, -⟩ := blockSize_spec hn
  refine ⟨?_, ?_⟩
  · rcases h.last with h0 | ⟨e, he, hle, h32⟩
    · exact .inl (hc.lastNode.trans h0)
    · obtain ⟨hmem, hkept⟩ := hc.kept he
      refine .inr ⟨e, hmem, hc.lastNode.trans hle, ?_⟩
      by_cases heb : e = b
      · rw [heb, hc.size]
        omega
      · rwa [(hkept heb).getSize]
  · intro d hd hal
    have hcases : d = b ∨ d ∈ rest ∨ d ∈ ws ++ zs := by
      rcases mem_middle.mp hd with hd | hd
      · exact (List.mem_cons.mp hd).imp_right .inl
      · exact .inr (.inr hd)
    rcases hcases with rfl | hd | hd
    · rw [hc.size]
      omega
    · rw [hc.rest_free d hd] at hal
      exact absurd hal Bool.false_ne_true
    · rw [(hc.tags d hd).checkAllocated] at hal
      rw [(hc.tags d hd).getSize]
      exact h.allocated d (mem_middle.mpr (.inr hd)) hal

theorem Roomy.payload (h : Roomy s bs) (htags : ∀ d ∈ bs, SameTags s.mem m' d) :
    Roomy { s with mem := m' } bs := by
  refine ⟨?_, fun d hd hal => ?_⟩
  · rcases h.last with h0 | ⟨e, he, hle, h32⟩
    · exact .inl h0
    · exact .inr ⟨e, he, hle, by rwa [(htags e he).getSize]⟩
  · rw [(htags d hd).getSize]
    exact h.allocated d hd (by rwa [← (htags d hd).checkAllocated])

theorem Roomy.merges (h : Roomy s (ws ++ (pre ++ b :: post) ++ zs))
    (hm : Merges R s s' b ws pre post zs p q) : Roomy s' (ws ++ [p] ++ zs) := by
  have hroom := hm.room
  refine ⟨.inr ⟨p, by simp, hm.lastNode, ?_⟩, fun d hd hal => ?_⟩
  · rw [hm.size]
    omega
  · have hcases : d = p ∨ d ∈ ws ++ zs := by
      rcases mem_middle.mp hd with hd | hd
      · exact .inl (List.mem_singleton.mp hd)
      · exact .inr hd
    rcases hcases with rfl | hd
    · rw [hm.freed] at hal
      exact absurd hal Bool.false_ne_true
    · rw [(hm.tags d hd).checkAllocated] at hal
      rw [(hm.tags d hd).getSize]
      exact h.allocated d (mem_middle.mpr (.inr hd)) hal

theorem separated_invariant (R : Region) :
    Invariant R (1 ≤ ·) (SeesLeft R) (fun s bs => Roomy s bs ∧ Separated s.mem bs) where
  carves hn h1 _ hi hcarves := ⟨hi.1.carves hn h1 hcarves, hi.2.carves hcarves⟩
  payload _ hi htags := ⟨hi.1.payload htags, hi.2.congr htags⟩
  fits h hi hb hal _ :=
    ⟨.inl (hi.1.allocated _ hb hal), (hi.1.last.linkClear h).imp_right .inl⟩
  merges _ hi hsees hm := ⟨hi.1.merges hm, hi.2.merges hm hsees⟩

/-- In every run in which `malloc` is asked for at least one byte and `coalesce` sees the block on
the left of each block that is freed, no two adjacent blocks are both free. -/
theorem coalescing_complete (h : Reached R (1 ≤ ·) (SeesLeft R) c) : Coalesced R c.state := by
  obtain ⟨bs, hheld, -, hsep⟩ := (separated_invariant R).reached
    (fun m => ⟨⟨.inl rfl, by simp⟩, .nil⟩) h
  exact ⟨bs, hheld.heap.seg.tiles, hsep⟩

def threeFreed : List Call :=
  [.malloc 16, .malloc 16, .malloc 16, .malloc 16, .free 0x800000030, .free 0x800000050,
    .free 0x800000010]

theorem coalescing_complete_merged : ∃ c,
    freshClient.allowedRun suggestedRegion (1 ≤ ·) (SeesLeft suggestedRegion) threeFreed = some c ∧
      c.live = [(0x800000070, 16)] ∧ getSize c.state.mem 0x800000008 = 96 ∧
      Coalesced suggestedRegion c.state := by
  have hrun : (freshClient.allowedRun suggestedRegion (1 ≤ ·) (SeesLeft suggestedRegion)
      threeFreed).any (fun c => c.live = [(0x800000070, 16)] ∧
        getSize c.state.mem 0x800000008 = 96) = true := by decide +kernel
  obtain ⟨c, hc, hrun⟩ := (Option.any_eq_true _ _).mp hrun
  obtain ⟨hlive, hsize⟩ := of_decide_eq_true hrun
  exact ⟨c, hc, hlive, hsize, coalescing_complete ((Reached.init _).run hc)⟩

/-- `p = malloc(16); q = malloc(16); free(p); free(q)` -/
def equalBlocks : List Call :=
  [.malloc 16, .malloc 16, .free 0x800000010, .free 0x800000030]

/-- The second block reaches back to the start of the heap and is taken for the first one. -/
theorem equal_blocks_stay_apart : ∃ c,
    freshClient.fitRun suggestedRegion equalBlocks = some c ∧
      ¬ Coalesced suggestedRegion c.state := by
  have hrun : (match freshClient.fitRun suggestedRegion equalBlocks with
      | some c => decide (getSize c.state.mem 0x800000008 = 32 ∧
          getSize c.state.mem 0x800000028 = 32 ∧ c.state.memBrk = 0x800000048 ∧
          checkAllocated c.state.mem 0x800000008 = false ∧
          checkAllocated c.state.mem 0x800000028 = false)
      | none => false) = true := by decide +kernel
  cases hc : freshClient.fitRun suggestedRegion equalBlocks with
  | none => simp [hc] at hrun
  | some c =>
    simp only [hc, decide_eq_true_eq] at hrun
    obtain ⟨hp, hq, hbrk, hpfree, hqfree⟩ := hrun
    refine ⟨c, rfl, fun ⟨bs, htiles, hsep⟩ => ?_⟩
    have hp0 : 0 < getSize c.state.mem 0x800000008 := by rw [hp]; decide
    have hq0 : 0 < getSize c.state.mem 0x800000028 := by rw [hq]; decide
    have hblocks : Tiles (getSize c.state.mem) 0x800000008 [0x800000008, 0x800000028]
        c.state.memBrk := by
      refine ⟨rfl, hp0, ?_⟩
      rw [hp]
      refine ⟨rfl, hq0, ?_⟩
      rw [hbrk]
      exact congrArg (0x800000028 + ·) hq
    rw [htiles.unique hblocks] at hsep
    obtain ⟨hpair, -⟩ := List.isChain_cons_cons.mp hsep
    rw [hpfree, hqfree] at hpair
    simp at hpair

end CS24.Malloc
