import CS24.Malloc.Heap

/-!
# The allocator's operations on tiled heaps

What `coalesce`, `free`, `find_fit` and `malloc` do to a heap that is a segment
from its first block to the break. `coalesce` always writes one header and one
footer around a run of blocks in which at most the given one is allocated;
`find_fit` returns the first block that fits; the links `free` writes fall into
payloads because the block last freed keeps at least 32 bytes.
-/

namespace CS24.Malloc
open Machine Mem

variable {R : Region} {s s' : State} {m m' : Mem} {b d n size lo hi p q : Nat}
  {bs bs' xs ys : List Nat}

structure Heap (R : Region) (s : State) (bs : List Nat) : Prop where
  seg : Seg s.mem (firstBlock R) bs s.memBrk
  brk : s.memBrk ≤ memMaxAddr R

/-- `last_node` is the payload of a block that has room for a link. -/
def LastNode (s : State) (bs : List Nat) : Prop :=
  s.lastNode = 0 ∨ ∃ b ∈ bs, s.lastNode = b + 8 ∧ 32 ≤ getSize s.mem b

theorem firstBlock_eq (R : Region) : firstBlock R = R.heap + 8 := rfl

theorem memMaxAddr_lt (R : Region) : memMaxAddr R < 2 ^ 63 := R.low

theorem Heap.pos (h : Heap R s bs) (hb : b ∈ bs) : 0 < b := by
  have := (h.seg.tiles.bounds hb).1
  rw [firstBlock_eq] at this
  omega

theorem nextBlock_cases (hy : Seg s.mem (b + getSize s.mem b) ys s.memBrk) :
    (nextBlock s b = 0 ∧ ys = []) ∨
      ∃ c zs, ys = c :: zs ∧ c = b + getSize s.mem b ∧ nextBlock s b = c := by
  rcases ys with _ | ⟨c, zs⟩
  · have hend : b + getSize s.mem b = s.memBrk := hy.tiles
    left
    rw [nextBlock, memHeapHi, if_pos (by omega)]
    exact ⟨rfl, rfl⟩
  · right
    obtain ⟨hc, -, -⟩ := hy.tiles
    have hbd := hy.tiles.bounds (b := c) (by simp)
    have hsz := hy.size_ge (b := c) (by simp)
    refine ⟨c, zs, rfl, hc, ?_⟩
    rw [nextBlock, memHeapHi, if_neg (by omega), hc]

theorem prevBlock_cases (h : Heap R s bs) (hb : b ∈ bs) (hx : Seg s.mem (firstBlock R) xs b) :
    prevBlock R s b = 0 ∨
      ∃ a ws, xs = ws ++ [a] ∧ a + getSize s.mem a = b ∧ prevBlock R s b = a := by
  have hbd := h.seg.tiles.bounds hb
  have hroom := R.room
  have hmax := h.brk
  rw [memMaxAddr] at hmax
  rw [firstBlock_eq] at hbd
  by_cases hfront : (b + 2 ^ 64 - getSize s.mem b) % 2 ^ 64 ≤ firstBlock R
  · exact .inl (by rw [prevBlock, if_pos hfront])
  · right
    have hlow := R.low
    have hne : firstBlock R ≠ b := by
      have hpos := h.seg.tiles.pos hb
      rw [firstBlock_eq] at hfront ⊢
      omega
    obtain ⟨ws, a, rfl, -, hend, hpos⟩ := hx.tiles.snoc_of_ne hne
    have hg := hx.good a (by simp)
    have hsz := hx.size_ge (b := a) (by simp)
    refine ⟨a, ws, rfl, hend, ?_⟩
    have hfoot : load64 s.mem (b - wordSize) = load64 s.mem a := by
      rw [← hg.footer, hend, wordSize]
    rw [prevBlock, if_neg hfront, hfoot]
    change b - getSize s.mem a = a
    omega

theorem nextBlock_mem (h : Heap R s bs) (hb : b ∈ bs) (h0 : nextBlock s b ≠ 0) :
    nextBlock s b ∈ bs := by
  obtain ⟨xs, ys, rfl, -, -, hy⟩ := h.seg.split hb
  rcases nextBlock_cases hy with ⟨hn, -⟩ | ⟨c, zs, rfl, -, hn⟩
  · exact absurd hn h0
  · simp [hn]

theorem prevBlock_mem (h : Heap R s bs) (hb : b ∈ bs) (h0 : prevBlock R s b ≠ 0) :
    prevBlock R s b ∈ bs := by
  obtain ⟨xs, ys, rfl, hx, -, -⟩ := h.seg.split hb
  rcases prevBlock_cases h hb hx with hn | ⟨a, ws, rfl, -, hn⟩
  · exact absurd hn h0
  · simp [hn]

theorem exists_block_before (h : Heap R s bs) (hb : b ∈ bs) (hne : firstBlock R ≠ b) :
    ∃ a ∈ bs, a + getSize s.mem a = b := by
  obtain ⟨xs, ys, rfl, hx, -, -⟩ := h.seg.split hb
  obtain ⟨ws, a, rfl, -, hend, -⟩ := hx.tiles.snoc_of_ne hne
  exact ⟨a, by simp, hend⟩

/-- `coalesce` takes in the block after `b`. -/
def MergesRight (s : State) (b : Nat) : Prop :=
  nextBlock s b ≠ 0 ∧ checkAllocated s.mem (nextBlock s b) = false

/-- `coalesce` takes in the block before `b`. -/
def MergesLeft (R : Region) (s : State) (b : Nat) : Prop :=
  prevBlock R s b ≠ 0 ∧ checkAllocated s.mem (prevBlock R s b) = false

instance (s : State) (b : Nat) : Decidable (MergesRight s b) := inferInstanceAs (Decidable (_ ∧ _))

instance (R : Region) (s : State) (b : Nat) : Decidable (MergesLeft R s b) :=
  inferInstanceAs (Decidable (_ ∧ _))

theorem nextBlock_run (hmid : Seg s.mem b [b] (b + getSize s.mem b))
    (hy : Seg s.mem (b + getSize s.mem b) ys s.memBrk) :
    ∃ post zs q, ys = post ++ zs ∧ (∀ d ∈ post, checkAllocated s.mem d = false) ∧
      Seg s.mem b (b :: post) q ∧ Seg s.mem q zs s.memBrk ∧
      q = b + getSize s.mem b + (if MergesRight s b then getSize s.mem (nextBlock s b) else 0) ∧
      (MergesRight s b → b + getSize s.mem b + 16 ≤ q) ∧
      (post = [] → ∀ c ∈ zs.head?, checkAllocated s.mem c = true) := by
  by_cases hc : MergesRight s b
  · rcases nextBlock_cases hy with ⟨h0, -⟩ | ⟨c, zs, rfl, hcb, hn⟩
    · exact absurd h0 hc.1
    · have hfree := hc.2
      rw [hn] at hfree
      have hsz := hy.size_ge (b := c) (by simp)
      obtain ⟨q, hcseg, hzs⟩ := Seg.cons_iff.mp hy
      obtain ⟨-, -, hq⟩ := hcseg.tiles
      have hq' : b + getSize s.mem b + getSize s.mem (b + getSize s.mem b) = q := hq
      rw [← hcb] at hq'
      refine ⟨[c], zs, q, rfl, ?_, Seg.cons_iff.mpr ⟨_, hmid, hcseg⟩, hzs, ?_, ?_, by simp⟩
      · intro d hd
        obtain rfl := List.mem_singleton.mp hd
        exact hfree
      · rw [if_pos hc, hn, ← hq', hcb]
      · intro _
        omega
  · refine ⟨[], ys, b + getSize s.mem b, rfl, by simp, hmid, hy, ?_, fun h => absurd h hc, ?_⟩
    · rw [if_neg hc, Nat.add_zero]
    · intro _ c hcs
      rcases nextBlock_cases hy with ⟨-, rfl⟩ | ⟨d, zs, rfl, -, hn⟩
      · cases hcs
      · obtain rfl := Option.some.inj hcs
        by_contra halloc
        refine hc ⟨?_, ?_⟩
        · have hbd := hy.tiles.bounds (b := d) (by simp)
          have hsz := hmid.size_ge (b := b) (by simp)
          omega
        · rw [hn]
          exact Bool.eq_false_iff.mpr halloc

theorem prevBlock_run (h : Heap R s bs) (hb : b ∈ bs)
    (hx : Seg s.mem (firstBlock R) xs b) :
    ∃ ws pre p, xs = ws ++ pre ∧ (∀ d ∈ pre, checkAllocated s.mem d = false) ∧
      Seg s.mem (firstBlock R) ws p ∧ Seg s.mem p pre b ∧
      (if MergesLeft R s b then p = prevBlock R s b ∧ p + getSize s.mem p = b else p = b) ∧
      (MergesLeft R s b → p + 16 ≤ b) ∧
      (pre = [] → firstBlock R + getSize s.mem b < b →
        ∀ a ∈ ws.getLast?, checkAllocated s.mem a = true) := by
  by_cases ha : MergesLeft R s b
  · rcases prevBlock_cases h hb hx with h0 | ⟨a, ws, rfl, hab, hn⟩
    · exact absurd h0 ha.1
    · have hfree := ha.2
      rw [hn] at hfree
      have hsz := hx.size_ge (b := a) (by simp)
      obtain ⟨p, hws, haseg⟩ := Seg.append_iff.mp hx
      obtain ⟨hap, -, -⟩ := haseg.tiles
      subst hap
      refine ⟨ws, [a], a, rfl, ?_, hws, haseg, ?_, ?_, by simp⟩
      · intro d hd
        obtain rfl := List.mem_singleton.mp hd
        exact hfree
      · rw [if_pos ha, hn]
        exact ⟨rfl, hab⟩
      · intro _
        omega
  · refine ⟨xs, [], b, by simp, by simp, hx, ⟨rfl, by simp⟩, ?_, fun h => absurd h ha, ?_⟩
    · rw [if_neg ha]
    · intro _ hsees a has
      have hfront : ¬ (b + 2 ^ 64 - getSize s.mem b) % 2 ^ 64 ≤ firstBlock R := by
        have hbd := h.seg.tiles.bounds hb
        have hlow := R.low
        have hmax := h.brk
        rw [memMaxAddr] at hmax
        omega
      rcases prevBlock_cases h hb hx with h0 | ⟨d, ws, rfl, hab, hn⟩
      · rw [prevBlock, if_neg hfront] at h0
        have hsz := getSize_lt s.mem b
        by_contra
        obtain ⟨ws, d, rfl, -, hend, hpos⟩ := hx.tiles.snoc_of_ne (by omega)
        have hg := hx.good d (by simp)
        have hbd := hx.tiles.bounds (b := d) (by simp)
        have hfoot : load64 s.mem (b - wordSize) = load64 s.mem d := by
          rw [← hg.footer, hend, wordSize]
        rw [hfoot] at h0
        change b - getSize s.mem d = 0 at h0
        rw [firstBlock_eq] at hbd
        omega
      · rw [List.getLast?_append, List.getLast?_singleton, Option.some_or] at has
        obtain rfl := Option.some.inj has
        by_contra halloc
        refine ha ⟨?_, ?_⟩
        · have hbd := hx.tiles.bounds (b := d) (by simp)
          rw [firstBlock_eq] at hbd
          omega
        · rw [hn]
          exact Bool.eq_false_iff.mpr halloc

/-- `coalesce` marks as one free block the run `pre ++ b :: post` of blocks, in which every block
other than `b` was free. -/
structure Coalesces (R : Region) (s : State) (b : Nat) (ws pre post zs : List Nat) (p q : Nat) :
    Prop where
  pre_free : ∀ d ∈ pre, checkAllocated s.mem d = false
  post_free : ∀ d ∈ post, checkAllocated s.mem d = false
  before : Seg s.mem (firstBlock R) ws p
  run : Seg s.mem p (pre ++ b :: post) q
  after : Seg s.mem q zs s.memBrk
  result : coalesce R s b = (mark s.mem p (q - p) false, p)
  start : p = if MergesLeft R s b then prevBlock R s b else b
  stop : q = b + getSize s.mem b + if MergesRight s b then getSize s.mem (nextBlock s b) else 0
  right : MergesRight s b → b + getSize s.mem b + 16 ≤ q
  left : MergesLeft R s b → p + 16 ≤ b
  right_end : post = [] → ∀ c ∈ zs.head?, checkAllocated s.mem c = true
  left_end : pre = [] → firstBlock R + getSize s.mem b < b →
    ∀ a ∈ ws.getLast?, checkAllocated s.mem a = true

theorem coalesce_spec (h : Heap R s bs) (hb : b ∈ bs) :
    ∃ ws pre post zs p q, bs = ws ++ (pre ++ b :: post) ++ zs ∧
      Coalesces R s b ws pre post zs p q := by
  obtain ⟨xs, ys, rfl, hx, hmid, hy⟩ := h.seg.split hb
  obtain ⟨post, zs, q, rfl, hfree, hmq, hzs, hq, hright, hrend⟩ := nextBlock_run hmid hy
  obtain ⟨ws, pre, p, rfl, hfree', hws, hpre, hp, hleft, hlend⟩ := prevBlock_run h hb hx
  have hstart : p = if MergesLeft R s b then prevBlock R s b else b := by
    split_ifs at hp ⊢
    · exact hp.1
    · exact hp
  refine ⟨ws, pre, post, zs, p, q, by simp, hfree', hfree, hws,
    Seg.append_iff.mpr ⟨b, hpre, hmq⟩, hzs, ?_, hstart, hq, hright, hleft, hrend, hlend⟩
  have hright' : MergesRight s b → nextBlock s b ≠ 0 ∧
      checkAllocated s.mem (nextBlock s b) = false := id
  have hleft' : MergesLeft R s b → prevBlock R s b ≠ 0 ∧
      checkAllocated s.mem (prevBlock R s b) = false := id
  unfold coalesce
  by_cases hc : MergesRight s b
  · rw [if_pos hc] at hq
    by_cases ha : MergesLeft R s b
    · rw [if_pos ha] at hp
      obtain ⟨hpa, hend⟩ := hp
      rw [if_pos (hright' hc), if_pos (hleft' ha), ← hpa, show getSize s.mem p +
        getSize s.mem b + getSize s.mem (nextBlock s b) = q - p by omega]
    · rw [if_neg ha] at hp
      rw [if_pos (hright' hc), if_neg (show ¬ (_ ∧ _) from ha), hp,
        show getSize s.mem b + getSize s.mem (nextBlock s b) = q - b by omega]
  · rw [if_neg hc] at hq
    by_cases ha : MergesLeft R s b
    · rw [if_pos ha] at hp
      obtain ⟨hpa, hend⟩ := hp
      rw [if_neg (show ¬ (_ ∧ _) from hc), if_pos (hleft' ha), ← hpa,
        show getSize s.mem p + getSize s.mem b = q - p by omega]
    · rw [if_neg ha] at hp
      rw [if_neg (show ¬ (_ ∧ _) from hc), if_neg (show ¬ (_ ∧ _) from ha), hp,
        show getSize s.mem b = q - b by omega]

theorem linkNode_agree {last curr : Nat} (h₁ : hi ≤ curr ∨ curr + 16 ≤ lo)
    (h₂ : last = 0 ∨ hi ≤ last + 8 ∨ last + 16 ≤ lo) : Agree m (linkNode m last curr) lo hi := by
  have hfirst : Agree m (store64 (store64 m curr 0) (curr + wordSize) 0) lo hi :=
    (agree_store64 (by omega)).trans (agree_store64 (by unfold wordSize; omega))
  unfold linkNode
  split_ifs with hl
  · exact (hfirst.trans (agree_store64 (by unfold wordSize; omega))).trans
      (agree_store64 (by omega))
  · exact hfirst

/-- What stays of the allocated blocks when the block `b` is freed: the others keep
their place, their header and, outside the word after `last_node`, their bytes. -/
structure Frees (s s' : State) (bs bs' : List Nat) (b : Nat) : Prop where
  brk : s'.memBrk = s.memBrk
  owned : ∀ d ∈ bs', checkAllocated s'.mem d = true →
    d ∈ bs ∧ d ≠ b ∧ checkAllocated s.mem d = true
  kept : ∀ d ∈ bs, d ≠ b → checkAllocated s.mem d = true →
    d ∈ bs' ∧ load64 s'.mem d = load64 s.mem d
  data : ∀ d ∈ bs, d ≠ b → checkAllocated s.mem d = true →
    ∀ x, d ≤ x → x < d + getSize s.mem d →
      (s.lastNode = 0 ∨ x < s.lastNode + 8 ∨ s.lastNode + 16 ≤ x) → s'.mem x = s.mem x

/-- The word after the one `last_node` points to belongs to no header and no footer. -/
def LinkClear (s : State) (bs : List Nat) : Prop :=
  ∀ d ∈ bs, (d + 8 ≤ s.lastNode + 8 ∨ s.lastNode + 16 ≤ d) ∧
    (d + getSize s.mem d ≤ s.lastNode + 8 ∨ s.lastNode + 16 ≤ d + getSize s.mem d - 8)

/-- The links that `free` writes when it gives back `b` fall into payloads: the free block has
room for two words, and the word that gets the link at `last_node` is no tag. -/
structure LinksFit (R : Region) (s : State) (bs : List Nat) (b : Nat) : Prop where
  block : 32 ≤ getSize s.mem b ∨ MergesRight s b ∨ MergesLeft R s b
  last : s.lastNode = 0 ∨ LinkClear s bs ∨ s.lastNode = b + 8 ∧ MergesRight s b

/-- What `free` makes of the run of blocks that it merges: the free block `p`, up to `q`. -/
structure Merges (R : Region) (s s' : State) (b : Nat) (ws pre post zs : List Nat) (p q : Nat) :
    Prop where
  coalesces : Coalesces R s b ws pre post zs p q
  heap : Heap R s' (ws ++ [p] ++ zs)
  brk : s'.memBrk = s.memBrk
  lastNode : s'.lastNode = p + 8
  size : getSize s'.mem p = q - p
  room : p + 32 ≤ q
  freed : checkAllocated s'.mem p = false
  tags : ∀ d ∈ ws ++ zs, SameTags s.mem s'.mem d
  outside : ∀ x, x < p ∨ q ≤ x →
    (s.lastNode = 0 ∨ x < s.lastNode + 8 ∨ s.lastNode + 16 ≤ x) → s'.mem x = s.mem x
  memory : s'.mem = linkNode (mark s.mem p (q - p) false) s.lastNode (p + 8)
  clear : s.lastNode = 0 ∨ LinkClear { s' with lastNode := s.lastNode } (ws ++ [p] ++ zs)

theorem free_merges (h : Heap R s bs) (hb : b ∈ bs) (hfit : LinksFit R s bs b) :
    ∃ s' ws pre post zs p q, free R s (b + 8) = some s' ∧
      bs = ws ++ (pre ++ b :: post) ++ zs ∧ Merges R s s' b ws pre post zs p q := by
  obtain ⟨ws, pre, post, zs, p, q, rfl, hco⟩ := coalesce_spec h hb
  obtain ⟨hroomb, hlast⟩ := hfit
  have hws := hco.before
  have hmid := hco.run
  have hzs := hco.after
  have hbbd := hmid.tiles.bounds (b := b) (by simp)
  have hbsz := hmid.size_ge (b := b) (by simp)
  have hmod := hmid.mod_eq_zero
  have hq : q < 2 ^ 63 := (hzs.tiles.le.trans h.brk).trans_lt (memMaxAddr_lt R)
  have hn : (q - p) % 16 = 0 := hmod
  have h32 : p + 32 ≤ q := by
    rcases hroomb with h32 | hr | hl
    · omega
    · have := hco.right hr
      omega
    · have := hco.left hl
      omega
  have hpos : 0 < q - p := by omega
  have hlt : q - p + 1 < 2 ^ 64 := by omega
  have hpq : p + (q - p) = q := by omega
  -- the heap after the header and footer are written
  have hmarked : Seg (mark s.mem p (q - p) false) p [p] q := by
    have := Seg.mark (m := s.mem) (b := p) (f := false) hn hpos hlt
    rwa [hpq] at this
  have hseg₁ : Seg (mark s.mem p (q - p) false) (firstBlock R) (ws ++ [p] ++ zs) s.memBrk :=
    hws.replace hmarked hzs (mark_agree hn hpos hlt (.inl le_rfl) (.inl (by omega)))
      (mark_agree hn hpos hlt (.inr (by omega)) (.inr (by omega)))
  have hsize₁ : getSize (mark s.mem p (q - p) false) p = q - p := mark_getSize hn hpos hlt
  have hfreed : checkAllocated (mark s.mem p (q - p) false) p = false :=
    mark_checkAllocated hn hpos hlt
  have hkeep : ∀ d ∈ ws ++ zs, SameTags s.mem (mark s.mem p (q - p) false) d := by
    intro d hd
    rcases List.mem_append.mp hd with hd | hd
    · have hbd := hws.tiles.bounds hd
      have hsz := hws.size_ge hd
      exact ⟨mark_agree hn hpos hlt (.inl (by omega)) (.inl (by omega)),
        mark_agree hn hpos hlt (.inl (by omega)) (.inl (by omega))⟩
    · have hbd := hzs.tiles.bounds hd
      have hsz := hzs.size_ge hd
      exact ⟨mark_agree hn hpos hlt (.inr (by omega)) (.inr (by omega)),
        mark_agree hn hpos hlt (.inr (by omega)) (.inr (by omega))⟩
  -- the word at the old `last_node` is no tag of a block that is left
  have hclear : s.lastNode = 0 ∨ ∀ d ∈ ws ++ [p] ++ zs,
      (d + 8 ≤ s.lastNode + 8 ∨ s.lastNode + 16 ≤ d) ∧
        (d + getSize (mark s.mem p (q - p) false) d ≤ s.lastNode + 8 ∨
          s.lastNode + 16 ≤ d + getSize (mark s.mem p (q - p) false) d - 8) := by
    have hcases : ∀ d ∈ ws ++ [p] ++ zs, d = p ∨ d ∈ ws ++ zs := by
      intro d hd
      rcases mem_middle.mp hd with hd | hd
      · exact .inl (List.mem_singleton.mp hd)
      · exact .inr hd
    rcases hlast with h0 | hclear | ⟨hlastb, hr⟩
    · exact .inl h0
    · refine .inr fun d hd => ?_
      rcases hcases d hd with hdp | hd
      · subst hdp
        obtain ⟨f, fs, hf⟩ := List.exists_cons_of_ne_nil (show pre ++ b :: post ≠ [] by simp)
        obtain ⟨gs, g, hg⟩ : ∃ gs g, pre ++ b :: post = gs ++ [g] :=
          ⟨_, _, (List.dropLast_append_getLast (by simp)).symm⟩
        have hfirst : f = d := by
          have htiles := hmid.tiles
          rw [hf] at htiles
          exact htiles.1
        have hend : g + getSize s.mem g = q := by
          have htiles := hmid.tiles
          rw [hg] at htiles
          obtain ⟨e, hgs, hge⟩ := Tiles.append_iff.mp htiles
          obtain ⟨rfl, -, hgq⟩ := hge
          exact hgq
        have hp := (hclear d (by rw [hf, hfirst]; simp)).1
        have hfoot := (hclear g (by rw [hg]; simp)).2
        rw [hsize₁]
        omega
      · have hd' : d ∈ ws ++ (pre ++ b :: post) ++ zs := by
          exact mem_middle.mpr (.inr hd)
        rw [(hkeep d hd).getSize]
        exact hclear d hd'
    · have hr' := hco.right hr
      refine .inr fun d hd => hseg₁.tags_disjoint (n := 8) hd (e := p) (by simp) (by omega) ?_
      rw [hsize₁]
      have hbmod := (hmid.good b (by simp)).aligned
      omega
  -- so the links leave every header and footer alone
  have htags : ∀ d ∈ ws ++ [p] ++ zs, SameTags (mark s.mem p (q - p) false)
      (linkNode (mark s.mem p (q - p) false) s.lastNode (p + 8)) d := by
    intro d hd
    have hcurr := hseg₁.tags_disjoint hd (e := p) (by simp) (x := p + 8) (n := 16) le_rfl
      (by rw [hsize₁]; omega)
    rcases hclear with h0 | hclear
    · exact ⟨linkNode_agree hcurr.1 (.inl h0), linkNode_agree hcurr.2 (.inl h0)⟩
    · have hold := hclear d hd
      refine ⟨linkNode_agree hcurr.1 (.inr ?_), linkNode_agree hcurr.2 (.inr ?_)⟩
      · omega
      · omega
  refine ⟨⟨linkNode (mark s.mem p (q - p) false) s.lastNode (p + 8), s.memBrk, p + 8⟩,
    ws, pre, post, zs, p, q, ?_, rfl, hco, ⟨hseg₁.congr htags, h.brk⟩, rfl, rfl, ?_, h32, ?_, ?_,
    ?_, rfl, ?_⟩
  · have hne : b + 8 ≠ 0 := by omega
    simp only [free, hne, if_false, headerSize, wordSize, Nat.add_sub_cancel, hco.result, hfreed]
    simp
  · rw [(htags p (by simp)).getSize, hsize₁]
  · rw [(htags p (by simp)).checkAllocated, hfreed]
  · intro d hd
    have hd' : d ∈ ws ++ [p] ++ zs := by
      exact mem_middle.mpr (.inr hd)
    have h₁ := hkeep d hd
    have h₂ := htags d hd'
    refine ⟨h₁.header.trans h₂.header, h₁.footer.trans ?_⟩
    rw [← h₁.getSize]
    exact h₂.footer
  · intro x hx hlast
    have hmark : Agree s.mem (mark s.mem p (q - p) false) x (x + 1) :=
      mark_agree hn hpos hlt (by omega) (by omega)
    have hlink : Agree (mark s.mem p (q - p) false)
        (linkNode (mark s.mem p (q - p) false) s.lastNode (p + 8)) x (x + 1) :=
      linkNode_agree (by omega) (by omega)
    exact (hmark.trans hlink) x le_rfl (by omega)
  · refine hclear.imp_right fun hclear d hd => ?_
    rw [(htags d hd).getSize]
    exact hclear d hd

theorem Merges.frees {ws pre post zs : List Nat}
    (hm : Merges R s s' b ws pre post zs p q) :
    Frees s s' (ws ++ (pre ++ b :: post) ++ zs) (ws ++ [p] ++ zs) b := by
  have hco := hm.coalesces
  have hbbd := hco.run.tiles.bounds (b := b) (by simp)
  have hbsz := hco.run.size_ge (b := b) (by simp)
  have hside : ∀ d ∈ ws ++ zs, (d + getSize s.mem d ≤ p ∨ q ≤ d) ∧ 16 ≤ getSize s.mem d := by
    intro d hd
    rcases List.mem_append.mp hd with hd | hd
    · exact ⟨.inl (hco.before.tiles.bounds hd).2, hco.before.size_ge hd⟩
    · exact ⟨.inr (hco.after.tiles.bounds hd).1, hco.after.size_ge hd⟩
  have hother : ∀ d ∈ ws ++ (pre ++ b :: post) ++ zs, d ≠ b → checkAllocated s.mem d = true →
      d ∈ ws ++ zs := by
    intro d hd hdb hal
    simp only [List.mem_append, List.mem_cons] at hd ⊢
    rcases hd with (hd | hd | hd | hd) | hd
    · exact .inl hd
    · rw [hco.pre_free d hd] at hal
      exact absurd hal (by simp)
    · exact absurd hd hdb
    · rw [hco.post_free d hd] at hal
      exact absurd hal (by simp)
    · exact .inr hd
  have hin : ∀ d ∈ ws ++ zs, d ∈ ws ++ [p] ++ zs ∧ d ∈ ws ++ (pre ++ b :: post) ++ zs := by
    intro d hd
    rcases List.mem_append.mp hd with hd | hd
    · exact ⟨by simp [hd], by simp [hd]⟩
    · exact ⟨by simp [hd], by simp [hd]⟩
  refine ⟨hm.brk, ?_, ?_, ?_⟩
  · intro d hd hal
    have hd' : d ∈ ws ++ zs := by
      simp only [List.mem_append, List.mem_singleton] at hd ⊢
      rcases hd with (hd | rfl) | hd
      · exact .inl hd
      · rw [hm.freed] at hal
        exact absurd hal (by simp)
      · exact .inr hd
    have hsep := hside d hd'
    exact ⟨(hin d hd').2, by omega, by rwa [← (hm.tags d hd').checkAllocated]⟩
  · intro d hd hdb hal
    have hd' := hother d hd hdb hal
    exact ⟨(hin d hd').1, (hm.tags d hd').load64⟩
  · intro d hd hdb hal x hx₁ hx₂ hx
    have hsep := hside d (hother d hd hdb hal)
    exact hm.outside x (by omega) hx

/-- `last_node` is the payload of a block. -/
def LastBlock (s : State) (bs : List Nat) : Prop :=
  s.lastNode = 0 ∨ ∃ e ∈ bs, s.lastNode = e + 8

theorem linkClear_of_room (h : Heap R s bs) {e : Nat} (he : e ∈ bs) (hle : s.lastNode = e + 8)
    (h32 : 32 ≤ getSize s.mem e) : LinkClear s bs := by
  intro d hd
  have hdis := h.seg.tags_disjoint (n := 8) (x := e + 16) hd he (by omega) (by omega)
  omega

theorem LastNode.linkClear (h : Heap R s bs) (hl : LastNode s bs) :
    s.lastNode = 0 ∨ LinkClear s bs :=
  hl.imp_right fun ⟨_, he, hle, h32⟩ => linkClear_of_room h he hle h32

theorem free_spec (h : Heap R s bs) (hl : LastNode s bs) (hb : b ∈ bs)
    (h32 : 32 ≤ getSize s.mem b) :
    ∃ s' bs', free R s (b + 8) = some s' ∧ Heap R s' bs' ∧ LastNode s' bs' ∧
      Frees s s' bs bs' b := by
  have hfit : LinksFit R s bs b :=
    ⟨.inl h32, (hl.linkClear h).imp_right .inl⟩
  obtain ⟨s', ws, pre, post, zs, p, q, hfree, rfl, hm⟩ := free_merges h hb hfit
  refine ⟨s', _, hfree, hm.heap, .inr ⟨p, by simp, hm.lastNode, ?_⟩, hm.frees⟩
  have hroom := hm.room
  rw [hm.size]
  omega

/-- The size of the block `malloc` looks for when it is asked for `n` bytes. -/
def blockSize (n : Nat) : Nat := roundUp ((headerSize + n + wordSize) % 2 ^ 64) alignment

def fits (m : Mem) (size b : Nat) : Bool := decide (size ≤ getSize m b) && !checkAllocated m b

theorem blockSize_spec (hn : n + 31 < 2 ^ 64) :
    blockSize n % 16 = 0 ∧ n + 16 ≤ blockSize n ∧ blockSize n ≤ n + 31 := by
  unfold blockSize roundUp headerSize wordSize alignment
  omega

theorem findFitFrom_eq (h : Seg m p bs hi) (hp : 0 < p) {fuel : Nat} (hf : bs.length < fuel) :
    findFitFrom m (hi - 1) size fuel p = some ((bs.find? (fits m size)).getD 0) := by
  induction bs generalizing p fuel with
  | nil =>
    obtain ⟨fuel, rfl⟩ : ∃ k, fuel = k + 1 := ⟨fuel - 1, by omega⟩
    have hend : p = hi := h.tiles
    rw [findFitFrom, if_neg (by omega)]
    rfl
  | cons b bs ih =>
    obtain ⟨fuel, rfl⟩ : ∃ k, fuel = k + 1 := ⟨fuel - 1, by omega⟩
    have hbd := h.tiles.bounds (b := b) (by simp)
    have hsz := h.size_ge (b := b) (by simp)
    obtain ⟨rfl, -, hrest⟩ := h.tiles
    rw [findFitFrom, if_pos (by omega), List.find?_cons]
    by_cases hfit : size ≤ getSize m b ∧ checkAllocated m b = false
    · rw [if_pos hfit]
      simp [fits, hfit.1, hfit.2]
    · rw [if_neg hfit, ih ⟨hrest, fun c hc => h.good c (by simp [hc])⟩ (by omega)
        (by simpa using hf)]
      have hno : fits m size b = false := by
        simp only [fits, Bool.and_eq_false_iff, decide_eq_false_iff_not, Bool.not_eq_false']
        by_cases hle : size ≤ getSize m b
        · exact .inr (by simpa using fun ha => hfit ⟨hle, ha⟩)
        · exact .inl hle
      rw [hno]

theorem findFit_eq (h : Heap R s bs) (size : Nat) :
    findFit R s size = some ((bs.find? (fits s.mem size)).getD 0) := by
  have hlen := h.seg.length_le
  rw [firstBlock_eq] at hlen
  exact findFitFrom_eq h.seg (by rw [firstBlock_eq]; omega) (by omega)

/-- What stays of the allocated blocks when `malloc` hands out the block `b` of at
least `n` bytes: all of them, with every byte. -/
structure Mallocs (s s' : State) (bs bs' : List Nat) (b n : Nat) : Prop where
  lastNode : s'.lastNode = s.lastNode
  block : b ∈ bs'
  allocated : checkAllocated s'.mem b = true
  size : n + 16 ≤ getSize s'.mem b
  fresh : b ∈ bs → checkAllocated s.mem b = false
  owned : ∀ d ∈ bs', checkAllocated s'.mem d = true →
    d = b ∨ d ∈ bs ∧ checkAllocated s.mem d = true
  kept : ∀ d ∈ bs, checkAllocated s.mem d = true →
    d ∈ bs' ∧ Agree s.mem s'.mem d (d + getSize s.mem d)

theorem Seg.sameTags_of_agree (h : Seg m lo bs hi) (hd : d ∈ bs)
    (ha : Agree m m' d (d + getSize m d)) : SameTags m m' d := by
  have hsz := h.size_ge hd
  exact ⟨ha.mono le_rfl (by omega), ha.mono (by omega) le_rfl⟩

theorem malloc_extend (h : Heap R s bs) (hmod : size % 16 = 0) (hsize : n + 16 ≤ size)
    (hbrk : s.memBrk + size ≤ memMaxAddr R) :
    Heap R ⟨mark s.mem s.memBrk size true, s.memBrk + size, s.lastNode⟩ (bs ++ [s.memBrk]) ∧
      Mallocs s ⟨mark s.mem s.memBrk size true, s.memBrk + size, s.lastNode⟩ bs
        (bs ++ [s.memBrk]) s.memBrk n ∧
      ∀ d ∈ bs, SameTags s.mem (mark s.mem s.memBrk size true) d := by
  have hlow := memMaxAddr_lt R
  have hpos : 0 < size := by omega
  have hlt : size + 1 < 2 ^ 64 := by omega
  have hold : Agree s.mem (mark s.mem s.memBrk size true) (firstBlock R) s.memBrk :=
    mark_agree hmod hpos hlt (.inl le_rfl) (.inl (by omega))
  have hseg : Seg (mark s.mem s.memBrk size true) (firstBlock R) (bs ++ [s.memBrk])
      (s.memBrk + size) :=
    Seg.append_iff.mpr ⟨s.memBrk, h.seg.congr_agree hold, Seg.mark hmod hpos hlt⟩
  have hblock : ∀ d ∈ bs, Agree s.mem (mark s.mem s.memBrk size true) d (d + getSize s.mem d) :=
    fun d hd => hold.mono (h.seg.tiles.bounds hd).1 (h.seg.tiles.bounds hd).2
  have htags : ∀ d ∈ bs, SameTags s.mem (mark s.mem s.memBrk size true) d :=
    fun d hd => h.seg.sameTags_of_agree hd (hblock d hd)
  refine ⟨⟨hseg, hbrk⟩, ⟨rfl, by simp, mark_checkAllocated hmod hpos hlt,
    by rwa [mark_getSize hmod hpos hlt], ?_, ?_, fun d hd _ => ⟨by simp [hd], hblock d hd⟩⟩, htags⟩
  · intro hb
    have hbd := h.seg.tiles.bounds hb
    have hsz := h.seg.size_ge hb
    omega
  · intro d hd hal
    simp only [List.mem_append, List.mem_singleton] at hd
    rcases hd with hd | rfl
    · rw [(htags d hd).checkAllocated] at hal
      exact .inr ⟨hd, hal⟩
    · exact .inl rfl

theorem split_spec (h : Heap R s bs) (hb : b ∈ bs) (hmod : size % 16 = 0) (hpos : 0 < size)
    (hfit : size ≤ getSize s.mem b) :
    ∃ ws rest zs, bs = ws ++ [b] ++ zs ∧
      Seg (split s.mem b size) (firstBlock R) (ws ++ (b :: rest) ++ zs) s.memBrk ∧
      checkAllocated (split s.mem b size) b = true ∧ getSize (split s.mem b size) b = size ∧
      (∀ r ∈ rest, checkAllocated (split s.mem b size) r = false) ∧
      (∀ d ∈ ws ++ zs, Agree s.mem (split s.mem b size) d (d + getSize s.mem d)) ∧
      (rest = [] ∨ rest = [b + size] ∧ size < getSize s.mem b ∧
        getSize (split s.mem b size) (b + size) = getSize s.mem b - size) := by
  obtain ⟨ws, zs, rfl, hws, hmid, hzs⟩ := h.seg.split hb
  have hbmod := (h.seg.good b hb).aligned
  unfold alignment at hbmod
  have hend := hzs.tiles.le.trans h.brk
  have hlow := memMaxAddr_lt R
  have hlt : size + 1 < 2 ^ 64 := by omega
  have hsep : ∀ d ∈ ws ++ zs, d + getSize s.mem d ≤ b ∨ b + getSize s.mem b ≤ d := by
    intro d hd
    rcases List.mem_append.mp hd with hd | hd
    · exact .inl (hws.tiles.bounds hd).2
    · exact .inr (hzs.tiles.bounds hd).1
  by_cases hrem : 0 < getSize s.mem b - size
  · have hrmod : (getSize s.mem b - size) % 16 = 0 := by omega
    have hrlt : getSize s.mem b - size + 1 < 2 ^ 64 := by omega
    have heq : split s.mem b size =
        mark (mark s.mem b size true) (b + size) (getSize s.mem b - size) false := by
      rw [split, if_pos hrem]
    have hfirst : Agree (mark s.mem b size true) (split s.mem b size) b (b + size) := by
      rw [heq]
      exact mark_agree hrmod hrem hrlt (.inl le_rfl) (.inl (by omega))
    have hout : ∀ x y, y ≤ b ∨ b + getSize s.mem b ≤ x →
        Agree s.mem (split s.mem b size) x y := by
      intro x y hxy
      rw [heq]
      exact (mark_agree hmod hpos hlt (by omega) (by omega)).trans
        (mark_agree hrmod hrem hrlt (by omega) (by omega))
    have hbseg : Seg (split s.mem b size) b [b] (b + size) :=
      (Seg.mark hmod hpos hlt).congr_agree hfirst
    have hrseg : Seg (split s.mem b size) (b + size) [b + size] (b + getSize s.mem b) := by
      have := Seg.mark (m := mark s.mem b size true) (b := b + size) (f := false) hrmod hrem hrlt
      rwa [← heq, show b + size + (getSize s.mem b - size) = b + getSize s.mem b by omega] at this
    have htag : SameTags (mark s.mem b size true) (split s.mem b size) b :=
      ⟨hfirst.mono le_rfl (by omega), by
        rw [mark_getSize hmod hpos hlt]
        exact hfirst.mono (by omega) le_rfl⟩
    refine ⟨ws, [b + size], zs, by simp, ?_, ?_, ?_, ?_, ?_, .inr ⟨rfl, by omega, ?_⟩⟩
    · exact hws.replace (Seg.cons_iff.mpr ⟨_, hbseg, hrseg⟩) hzs
        (hout _ _ (.inl le_rfl)) (hout _ _ (.inr le_rfl))
    · rw [htag.checkAllocated, mark_checkAllocated hmod hpos hlt]
    · rw [htag.getSize, mark_getSize hmod hpos hlt]
    · intro r hr
      obtain rfl := List.mem_singleton.mp hr
      rw [heq, mark_checkAllocated hrmod hrem hrlt]
    · exact fun d hd => hout _ _ (hsep d hd)
    · rw [heq, mark_getSize hrmod hrem hrlt]
  · have hsame : getSize s.mem b = size := by omega
    have heq : split s.mem b size = mark s.mem b size true := by rw [split, if_neg hrem]
    have hout : ∀ x y, y ≤ b ∨ b + getSize s.mem b ≤ x →
        Agree s.mem (split s.mem b size) x y := by
      intro x y hxy
      rw [heq]
      exact mark_agree hmod hpos hlt (by omega) (by omega)
    refine ⟨ws, [], zs, by simp, ?_, ?_, ?_, by simp, fun d hd => hout _ _ (hsep d hd), .inl rfl⟩
    · have hbseg : Seg (split s.mem b size) b [b] (b + getSize s.mem b) := by
        rw [heq, hsame]
        exact Seg.mark hmod hpos hlt
      exact hws.replace hbseg hzs (hout _ _ (.inl le_rfl)) (hout _ _ (.inr le_rfl))
    · rw [heq, mark_checkAllocated hmod hpos hlt]
    · rw [heq, mark_getSize hmod hpos hlt]

theorem malloc_split (h : Heap R s bs) (hb : b ∈ bs) (hfree : checkAllocated s.mem b = false)
    (hmod : size % 16 = 0) (hsize : n + 16 ≤ size) (hfit : size ≤ getSize s.mem b) :
    ∃ ws rest zs, bs = ws ++ [b] ++ zs ∧
      (rest = [] ∨ rest = [b + size] ∧ size < getSize s.mem b ∧
        getSize (split s.mem b size) (b + size) = getSize s.mem b - size) ∧
      (∀ r ∈ rest, checkAllocated (split s.mem b size) r = false) ∧
      Heap R { s with mem := split s.mem b size } (ws ++ (b :: rest) ++ zs) ∧
      Mallocs s { s with mem := split s.mem b size } bs (ws ++ (b :: rest) ++ zs) b n ∧
      getSize (split s.mem b size) b = size ∧
      ∀ d ∈ ws ++ zs, SameTags s.mem (split s.mem b size) d := by
  obtain ⟨ws, rest, zs, rfl, hseg, hal, hget, hrest, hout, hone⟩ :=
    split_spec h hb hmod (by omega) hfit
  have hmem : ∀ d ∈ ws ++ [b] ++ zs, d = b ∨ d ∈ ws ++ zs := by
    intro d hd
    simp only [List.mem_append, List.mem_singleton] at hd ⊢
    rcases hd with (hd | hd) | hd
    · exact .inr (.inl hd)
    · exact .inl hd
    · exact .inr (.inr hd)
  have hmem' : ∀ d ∈ ws ++ zs, d ∈ ws ++ [b] ++ zs ∧ d ∈ ws ++ (b :: rest) ++ zs := by
    intro d hd
    rcases List.mem_append.mp hd with hd | hd <;> simp [hd]
  have htags : ∀ d ∈ ws ++ zs, SameTags s.mem (split s.mem b size) d :=
    fun d hd => h.seg.sameTags_of_agree (hmem' d hd).1 (hout d hd)
  refine ⟨ws, rest, zs, rfl, hone, hrest, ⟨hseg, h.brk⟩,
    ⟨rfl, by simp, hal, by rwa [hget], fun _ => hfree, ?_, ?_⟩, hget, htags⟩
  · intro d hd hald
    simp only [List.mem_append, List.mem_cons] at hd
    rcases hd with (hd | hd | hd) | hd
    · have hd' : d ∈ ws ++ zs := by simp [hd]
      exact .inr ⟨(hmem' d hd').1, by rwa [(htags d hd').checkAllocated] at hald⟩
    · exact .inl hd
    · rw [hrest d hd] at hald
      exact absurd hald (by simp)
    · have hd' : d ∈ ws ++ zs := by simp [hd]
      exact .inr ⟨(hmem' d hd').1, by rwa [(htags d hd').checkAllocated] at hald⟩
  · intro d hd hald
    rcases hmem d hd with rfl | hd
    · rw [hfree] at hald
      exact absurd hald (by simp)
    · exact ⟨(hmem' d hd).2, hout d hd⟩

theorem malloc_of_none (hf : findFit R s (blockSize n) = some 0) :
    malloc R s n =
      if 2 ^ 63 ≤ (memSbrk R s (blockSize n)).2 then some ((memSbrk R s (blockSize n)).1, 0)
      else some ({ (memSbrk R s (blockSize n)).1 with
        mem := mark (memSbrk R s (blockSize n)).1.mem (memSbrk R s (blockSize n)).2
          (blockSize n) true }, (memSbrk R s (blockSize n)).2 + 8) := by
  unfold blockSize at hf
  simp only [malloc, hf]
  rfl

theorem malloc_of_some (hb : b ≠ 0) (hf : findFit R s (blockSize n) = some b) :
    malloc R s n = some ({ s with mem := split s.mem b (blockSize n) }, b + 8) := by
  obtain ⟨k, rfl⟩ := Nat.exists_eq_succ_of_ne_zero hb
  unfold blockSize at hf
  simp only [malloc, hf]
  rfl

theorem malloc_cases (h : Heap R s bs) (hn : n + 31 < 2 ^ 64) :
    bs.find? (fits s.mem (blockSize n)) = none ∧ memMaxAddr R < s.memBrk + blockSize n ∧
        malloc R s n = some (s, 0) ∨
      bs.find? (fits s.mem (blockSize n)) = none ∧ s.memBrk + blockSize n ≤ memMaxAddr R ∧
        malloc R s n = some (⟨mark s.mem s.memBrk (blockSize n) true, s.memBrk + blockSize n,
          s.lastNode⟩, s.memBrk + 8) ∨
      ∃ b, bs.find? (fits s.mem (blockSize n)) = some b ∧
        findFit R s (blockSize n) = some b ∧
        malloc R s n = some ({ s with mem := split s.mem b (blockSize n) }, b + 8) := by
  have hlow := memMaxAddr_lt R
  have hbrk := h.brk
  have hle := (blockSize_spec hn).2.2
  have hfind := findFit_eq h (blockSize n)
  cases hb : bs.find? (fits s.mem (blockSize n)) with
  | none =>
    rw [hb, Option.getD_none] at hfind
    have hm := malloc_of_none hfind
    by_cases hroom : s.memBrk + blockSize n ≤ memMaxAddr R
    · have hserves : ¬ (2 ^ 63 ≤ blockSize n ∨ memMaxAddr R < s.memBrk + blockSize n) := by omega
      rw [memSbrk, if_neg hserves, if_neg (by omega)] at hm
      exact .inr (.inl ⟨rfl, hroom, hm⟩)
    · have hfull : 2 ^ 63 ≤ blockSize n ∨ memMaxAddr R < s.memBrk + blockSize n :=
        .inr (by omega)
      rw [memSbrk, if_pos hfull, if_pos (show 2 ^ 63 ≤ 2 ^ 64 - 1 by decide)] at hm
      exact .inl ⟨rfl, by omega, hm⟩
  | some b =>
    have hb0 : b ≠ 0 := by
      have := h.pos (List.mem_of_find?_eq_some hb)
      omega
    rw [hb, Option.getD_some] at hfind
    exact .inr (.inr ⟨b, rfl, hfind, malloc_of_some hb0 hfind⟩)

theorem fits_iff : fits m size b = true ↔ size ≤ getSize m b ∧ checkAllocated m b = false := by
  simp [fits]

/-- Where `malloc` finds the block `b`: at the break, or in place of the first free block that is
large enough, of which `rest` is left over. -/
inductive Placed (R : Region) (s s' : State) (b size : Nat) :
    List Nat → List Nat → List Nat → Prop where
  | extend : b = s.memBrk → findFit R s size = some 0 → s.memBrk + size ≤ memMaxAddr R →
      s' = ⟨mark s.mem b size true, s.memBrk + size, s.lastNode⟩ → Placed R s s' b size [] [] []
  | split {rest zs : List Nat} : checkAllocated s.mem b = false → findFit R s size = some b →
      s' = { s with mem := split s.mem b size } →
      (rest = [] ∨ rest = [b + size] ∧ size < getSize s.mem b ∧
        getSize s'.mem (b + size) = getSize s.mem b - size) → Placed R s s' b size [b] rest zs

/-- `malloc` put the block `b` in the place of `old`, a free block or the end of the heap, and what
it did not need of it is `rest`. -/
structure Carves (R : Region) (s s' : State) (ws old rest zs : List Nat) (b size : Nat) :
    Prop where
  place : Placed R s s' b size old rest zs
  rest_free : ∀ r ∈ rest, checkAllocated s'.mem r = false
  allocated : checkAllocated s'.mem b = true
  size : getSize s'.mem b = size
  tags : ∀ d ∈ ws ++ zs, SameTags s.mem s'.mem d

theorem Carves.lastNode {old rest zs ws : List Nat} (h : Carves R s s' ws old rest zs b size) :
    s'.lastNode = s.lastNode := by
  cases h.place with
  | extend _ _ _ hs => rw [hs]
  | split _ _ hs _ => rw [hs]

theorem Carves.kept {old rest zs ws : List Nat} (h : Carves R s s' ws old rest zs b size)
    (hd : d ∈ ws ++ old ++ zs) :
    d ∈ ws ++ (b :: rest) ++ zs ∧ (d ≠ b → SameTags s.mem s'.mem d) := by
  have hcases : d = b ∨ d ∈ ws ++ zs := by
    simp only [List.mem_append] at hd ⊢
    cases h.place with
    | extend =>
      simp only [List.not_mem_nil, or_false] at hd
      exact .inr (.inl hd)
    | split =>
      simp only [List.mem_singleton] at hd
      tauto
  rcases hcases with rfl | hd'
  · exact ⟨by simp, fun hne => absurd rfl hne⟩
  · exact ⟨mem_middle.mpr (.inr hd'), fun _ => h.tags d hd'⟩

theorem malloc_carves (h : Heap R s bs) (hn : n + 31 < 2 ^ 64) :
    malloc R s n = some (s, 0) ∨
      ∃ s' b ws old rest zs, malloc R s n = some (s', b + 8) ∧ bs = ws ++ old ++ zs ∧
        Heap R s' (ws ++ (b :: rest) ++ zs) ∧
        Mallocs s s' bs (ws ++ (b :: rest) ++ zs) b n ∧
        Carves R s s' ws old rest zs b (blockSize n) := by
  obtain ⟨hmod, hge, hle⟩ := blockSize_spec hn
  rcases malloc_cases h hn with ⟨-, -, hm⟩ | ⟨hnone, hroom, hm⟩ | ⟨b, hb, hfind, hm⟩
  · exact .inl hm
  · obtain ⟨hheap, hmal, htags⟩ := malloc_extend h hmod hge hroom
    have hlow := memMaxAddr_lt R
    have hfind := findFit_eq h (blockSize n)
    rw [hnone, Option.getD_none] at hfind
    refine .inr ⟨_, s.memBrk, bs, [], [], [], hm, by simp, by simpa using hheap,
      by simpa using hmal, .extend rfl hfind hroom rfl, by simp, hmal.allocated,
      mark_getSize hmod (by omega) (by omega), fun d hd => htags d (by simpa using hd)⟩
  · have hbfit := fits_iff.mp (List.find?_some hb)
    obtain ⟨ws, rest, zs, rfl, hone, hrest, hheap, hmal, hget, htags⟩ :=
      malloc_split h (List.mem_of_find?_eq_some hb) hbfit.2 hmod hge hbfit.1
    exact .inr ⟨_, b, ws, [b], rest, zs, hm, rfl, hheap, hmal, .split hbfit.2 hfind rfl hone,
      hrest, hmal.allocated, hget, htags⟩

theorem Carves.found {old rest zs ws : List Nat} (h : Carves R s s' ws old rest zs b size) :
    findFit R s size = some b ∨ b = s.memBrk := by
  cases h.place with
  | extend hb => exact .inr hb
  | split _ hfind => exact .inl hfind

theorem malloc_spec (h : Heap R s bs) (hl : LastNode s bs) (h1 : 1 ≤ n) (hn : n + 31 < 2 ^ 64) :
    malloc R s n = some (s, 0) ∨
      ∃ s' bs' b, malloc R s n = some (s', b + 8) ∧ Heap R s' bs' ∧ LastNode s' bs' ∧
        Mallocs s s' bs bs' b n ∧
        (findFit R s (blockSize n) = some b ∨ b = s.memBrk) := by
  obtain ⟨hmod, hge, -⟩ := blockSize_spec hn
  rcases malloc_carves h hn with hm | ⟨s', b, ws, old, rest, zs, hm, rfl, hheap, hmal, hcarves⟩
  · exact .inl hm
  · refine .inr ⟨s', _, b, hm, hheap, ?_, hmal, hcarves.found⟩
    rcases hl with h0 | ⟨e, he, hle, h32⟩
    · exact .inl (hmal.lastNode.trans h0)
    · obtain ⟨hmem, hkept⟩ := hcarves.kept he
      refine .inr ⟨e, hmem, hmal.lastNode.trans hle, ?_⟩
      by_cases heb : e = b
      · rw [heb, hcarves.size]
        omega
      · rwa [(hkept heb).getSize]

end CS24.Malloc
