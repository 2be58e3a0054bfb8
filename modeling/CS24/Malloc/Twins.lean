import CS24.Malloc.Steps

/-!
# Two heaps with the same blocks

The operations of the allocator only read headers and footers. Two heaps that agree on these,
and on some bytes of payloads, are taken by the same call to two heaps that agree again, with the
same answer. The word `last_node` may differ as long as its link meets none of these bytes.
-/

namespace CS24.Malloc
open Machine Mem

def TagByte (m : Mem) (bs : List Nat) (x : Nat) : Prop :=
  ∃ d ∈ bs, d ≤ x ∧ x < d + 8 ∨ d + getSize m d - 8 ≤ x ∧ x < d + getSize m d

/-- Two heaps with the blocks `bs` that agree on the tags and on the bytes `D`. -/
structure Twin (s t : State) (bs : List Nat) (D : Nat → Prop) : Prop where
  brk : t.memBrk = s.memBrk
  agree : ∀ x, TagByte s.mem bs x ∨ D x → t.mem x = s.mem x

variable {R : Region} {s t s' : State} {m m' : Mem} {bs : List Nat} {D D' : Nat → Prop}
  {b d l n p q size x : Nat} {f : Bool}

theorem Twin.sameTags (h : Twin s t bs D) (hd : d ∈ bs) : SameTags s.mem t.mem d :=
  ⟨fun x h₁ h₂ => h.agree x (.inl ⟨d, hd, .inl ⟨h₁, h₂⟩⟩),
    fun x h₁ h₂ => h.agree x (.inl ⟨d, hd, .inr ⟨h₁, h₂⟩⟩)⟩

theorem Twin.heap (h : Twin s t bs D) (hs : Heap R s bs) : Heap R t bs := by
  refine ⟨?_, ?_⟩
  · rw [h.brk]
    exact hs.seg.congr fun d hd => h.sameTags hd
  · rw [h.brk]
    exact hs.brk

theorem Twin.mono (h : Twin s t bs D) (hD : ∀ x, D' x → D x) : Twin s t bs D' :=
  ⟨h.brk, fun x hx => h.agree x (hx.imp_right (hD x))⟩

theorem TagByte.of_sameTags (h : TagByte m' bs x) (hs : ∀ d ∈ bs, SameTags m m' d) :
    TagByte m bs x := by
  obtain ⟨d, hd, hx⟩ := h
  rw [(hs d hd).getSize] at hx
  exact ⟨d, hd, hx⟩

theorem mark_congr_at (hn : n % 16 = 0) (hlt : n + 1 < 2 ^ 64)
    (h : m' x = m x ∨ b ≤ x ∧ x < b + 8 ∨ b + n - 8 ≤ x ∧ x < b + n) :
    mark m' b n f x = mark m b n f x := by
  rw [mark_eq (by omega) hlt, mark_eq (by omega) hlt]
  apply store64_congr_at
  rcases h with h | h | h
  · exact .inl (store64_congr_at (.inl h))
  · exact .inl (store64_congr_at (.inr h))
  · exact .inr (by omega)

theorem split_congr_at (hsize : getSize m' b = getSize m b) (hmod : size % 16 = 0)
    (hpos : 0 < size) (hbmod : getSize m b % 16 = 0) (hfit : size ≤ getSize m b)
    (h : m' x = m x ∨ (b ≤ x ∧ x < b + 8 ∨ b + size - 8 ≤ x ∧ x < b + size) ∨
      size < getSize m b ∧ (b + size ≤ x ∧ x < b + size + 8 ∨
        b + getSize m b - 8 ≤ x ∧ x < b + getSize m b)) :
    split m' b size x = split m b size x := by
  have hlt := getSize_lt m b
  have hfirst : m' x = m x ∨ (b ≤ x ∧ x < b + 8 ∨ b + size - 8 ≤ x ∧ x < b + size) →
      mark m' b size true x = mark m b size true x :=
    mark_congr_at hmod (by omega)
  unfold split
  rw [hsize]
  by_cases hrem : 0 < getSize m b - size
  · rw [if_pos hrem, if_pos hrem]
    apply mark_congr_at (by omega) (by omega)
    rcases h with h | h | ⟨-, h⟩
    · exact .inl (hfirst (.inl h))
    · exact .inl (hfirst (.inr h))
    · exact .inr (by omega)
  · rw [if_neg hrem, if_neg hrem]
    rcases h with h | h | ⟨hlt, -⟩
    · exact hfirst (.inl h)
    · exact hfirst (.inr h)
    · omega

theorem linkNode_congr_at {curr : Nat} (h : m' x = m x) :
    linkNode m' l curr x = linkNode m l curr x := by
  have hfirst : store64 (store64 m' curr 0) (curr + wordSize) 0 x =
      store64 (store64 m curr 0) (curr + wordSize) 0 x :=
    store64_congr_at (.inl (store64_congr_at (.inl h)))
  unfold linkNode
  split_ifs
  · exact store64_congr_at (.inl (store64_congr_at (.inl hfirst)))
  · exact hfirst

theorem linkNode_congr_outside {curr l' : Nat} (h : m' x = m x) (hcurr : x < curr ∨ curr + 16 ≤ x)
    (hl : l = 0 ∨ x < l + 8 ∨ l + 16 ≤ x) (hl' : l' = 0 ∨ x < l' + 8 ∨ l' + 16 ≤ x) :
    linkNode m' l' curr x = linkNode m l curr x := by
  have hs : Agree m (linkNode m l curr) x (x + 1) := linkNode_agree (by omega) (by omega)
  have ht : Agree m' (linkNode m' l' curr) x (x + 1) := linkNode_agree (by omega) (by omega)
  rw [hs x le_rfl (by omega), ht x le_rfl (by omega), h]

theorem Twin.findFit_eq (h : Twin s t bs D) (hs : Heap R s bs) (size : Nat) :
    findFit R t size = findFit R s size := by
  rw [Malloc.findFit_eq hs, Malloc.findFit_eq (h.heap hs)]
  have hfind : bs.find? (fits t.mem size) = bs.find? (fits s.mem size) := by
    refine List.find?_congr fun d hd => ?_
    rw [fits, fits, (h.sameTags hd).getSize, (h.sameTags hd).checkAllocated]
  rw [hfind]

theorem Twin.malloc (h : Twin s t bs D) (hs : Heap R s bs) (hn : n + 31 < 2 ^ 64) :
    Malloc.malloc R s n = some (s, 0) ∧ Malloc.malloc R t n = some (t, 0) ∨
      ∃ s' t' b bs', Malloc.malloc R s n = some (s', b + 8) ∧
        Malloc.malloc R t n = some (t', b + 8) ∧ Heap R s' bs' ∧ Mallocs s s' bs bs' b n ∧
        Twin s' t' bs' D ∧ t'.lastNode = t.lastNode ∧ ∀ d ∈ bs, d ∈ bs' := by
  obtain ⟨hmod, hge, hle⟩ := blockSize_spec hn
  have hlow := memMaxAddr_lt R
  have ht := h.heap hs
  rcases malloc_carves hs hn with
    hnull | ⟨s', b, ws, old, rest, zs, hcall, rfl, hheap, hmal, hcarves⟩
  · -- nothing fits in `s`, so nothing fits in `t`
    left
    refine ⟨hnull, ?_⟩
    rcases malloc_cases hs hn with ⟨hnone, hfull, -⟩ | ⟨-, -, hm⟩ | ⟨b, -, -, hm⟩
    · have hfit : findFit R t (blockSize n) = some 0 := by
        rw [h.findFit_eq hs, Malloc.findFit_eq hs, hnone, Option.getD_none]
      have hm := malloc_of_none hfit
      have hfull' : 2 ^ 63 ≤ blockSize n ∨ memMaxAddr R < t.memBrk + blockSize n :=
        .inr (by rw [h.brk]; exact hfull)
      rwa [memSbrk, if_pos hfull', if_pos (show 2 ^ 63 ≤ 2 ^ 64 - 1 by decide)] at hm
    · rw [hnull] at hm
      simp at hm
    · rw [hnull] at hm
      simp at hm
  right
  have htags : ∀ d ∈ ws ++ zs, d ∈ ws ++ old ++ zs := by
    intro d hd
    exact mem_middle.mpr (.inr hd)
  -- a tag is one of an old block or one that `malloc` writes
  have hbytes : ∀ x, TagByte s'.mem (ws ++ (b :: rest) ++ zs) x ∨ D x → t.mem x = s.mem x ∨
      (b ≤ x ∧ x < b + 8 ∨ b + blockSize n - 8 ≤ x ∧ x < b + blockSize n) ∨
      ∃ r ∈ rest, r ≤ x ∧ x < r + 8 ∨ r + getSize s'.mem r - 8 ≤ x ∧ x < r + getSize s'.mem r := by
    intro x hx
    rcases hx with ⟨d, hd, hx⟩ | hx
    · have hcases : d = b ∨ d ∈ rest ∨ d ∈ ws ++ zs := by
        rcases mem_middle.mp hd with hd | hd
        · exact (List.mem_cons.mp hd).imp_right .inl
        · exact .inr (.inr hd)
      rcases hcases with rfl | hd | hd
      · rw [hcarves.size] at hx
        exact .inr (.inl hx)
      · exact .inr (.inr ⟨d, hd, hx⟩)
      · rw [(hcarves.tags d hd).getSize] at hx
        exact .inl (h.agree x (.inl ⟨d, htags d hd, hx⟩))
    · exact .inl (h.agree x (.inr hx))
  cases hcarves.place with
  | extend hb hfit hroom hs' =>
    have hm := malloc_of_none ((h.findFit_eq hs (blockSize n)).trans hfit)
    have hserves : ¬ (2 ^ 63 ≤ blockSize n ∨ memMaxAddr R < t.memBrk + blockSize n) := by
      rw [h.brk]
      omega
    rw [memSbrk, if_neg hserves, if_neg (by rw [h.brk]; omega)] at hm
    have hcall' : Malloc.malloc R t n = some (⟨mark t.mem b (blockSize n) true,
        s.memBrk + blockSize n, t.lastNode⟩, b + 8) := by
      rw [hm, h.brk, hb]
    refine ⟨s', _, b, _, hcall, hcall', hheap, hmal, ⟨?_, fun x hx => ?_⟩, rfl,
      fun d hd => (hcarves.kept hd).1⟩
    · rw [hs']
    · have hx' := hbytes x hx
      rw [hs']
      apply mark_congr_at hmod (by omega)
      rcases hx' with hx | hx | ⟨r, hr, -⟩
      · exact .inl hx
      · exact .inr hx
      · cases hr
  | split hfree hfit hs' hone =>
    have hb : b ∈ ws ++ [b] ++ zs := by simp
    have hb0 : b ≠ 0 := by
      have := hs.pos hb
      omega
    have hm := malloc_of_some hb0 ((h.findFit_eq hs (blockSize n)).trans hfit)
    have hbmod := (hs.seg.good b hb).aligned
    have hsize := (h.sameTags hb).getSize
    have hroom : blockSize n ≤ getSize s.mem b := by
      have hfind := Malloc.findFit_eq hs (blockSize n)
      rw [hfit] at hfind
      cases hf : (ws ++ [b] ++ zs).find? (fits s.mem (blockSize n)) with
      | none =>
        rw [hf] at hfind
        exact absurd (Option.some.inj hfind) hb0
      | some e =>
        rw [hf] at hfind
        obtain rfl : b = e := Option.some.inj hfind
        exact (fits_iff.mp (List.find?_some hf)).1
    refine ⟨s', _, b, _, hcall, hm, hheap, hmal, ⟨?_, fun x hx => ?_⟩, rfl,
      fun d hd => (hcarves.kept hd).1⟩
    · rw [hs']
      exact h.brk
    · have hx' := hbytes x hx
      rw [hs']
      apply split_congr_at hsize hmod (by omega) hbmod hroom
      rcases hx' with hx | hx | ⟨r, hr, hx⟩
      · exact .inl hx
      · exact .inr (.inl hx)
      · rcases hone with rfl | ⟨rfl, hlt, hrsize⟩
        · cases hr
        · obtain rfl := List.mem_singleton.mp hr
          rw [hrsize] at hx
          exact .inr (.inr ⟨hlt, by omega⟩)

theorem Twin.nextBlock_eq (h : Twin s t bs D) (hb : b ∈ bs) : nextBlock t b = nextBlock s b := by
  rw [nextBlock, nextBlock, memHeapHi, memHeapHi, h.brk, (h.sameTags hb).getSize]

theorem Twin.prevBlock_eq (h : Twin s t bs D) (hs : Heap R s bs) (hb : b ∈ bs) :
    prevBlock R t b = prevBlock R s b := by
  rw [prevBlock, prevBlock, (h.sameTags hb).getSize]
  split_ifs with hfront
  · rfl
  · have hne : firstBlock R ≠ b := by
      have hlow := R.low
      have hroom := R.room
      have hbd := hs.seg.tiles.bounds hb
      have hpos := hs.seg.tiles.pos hb
      have hmax := hs.brk
      rw [memMaxAddr] at hmax
      rw [firstBlock_eq] at *
      omega
    obtain ⟨a, ha, hend⟩ := exists_block_before hs hb hne
    have hsz := hs.seg.size_ge ha
    have hfoot : Agree s.mem t.mem (b - 8) (b - 8 + 8) :=
      (h.sameTags ha).footer.mono (by omega) (by omega)
    rw [wordSize, load64_congr hfoot]

theorem Twin.mergesRight_iff (h : Twin s t bs D) (hs : Heap R s bs) (hb : b ∈ bs) :
    MergesRight t b ↔ MergesRight s b := by
  rw [MergesRight, MergesRight, h.nextBlock_eq hb]
  refine and_congr_right fun h0 => ?_
  rw [(h.sameTags (nextBlock_mem hs hb h0)).checkAllocated]

theorem Twin.mergesLeft_iff (h : Twin s t bs D) (hs : Heap R s bs) (hb : b ∈ bs) :
    MergesLeft R t b ↔ MergesLeft R s b := by
  rw [MergesLeft, MergesLeft, h.prevBlock_eq hs hb]
  refine and_congr_right fun h0 => ?_
  rw [(h.sameTags (prevBlock_mem hs hb h0)).checkAllocated]

theorem Twin.coalesce_eq (h : Twin s t bs D) (hs : Heap R s bs) (hb : b ∈ bs)
    {ws pre post zs : List Nat} (hco : Coalesces R s b ws pre post zs p q) :
    coalesce R t b = (mark t.mem p (q - p) false, p) := by
  obtain ⟨ws', pre', post', zs', p', q', -, hco'⟩ := coalesce_spec (h.heap hs) hb
  have hp : p' = p := by
    rw [hco'.start, hco.start, h.prevBlock_eq hs hb]
    simp only [h.mergesLeft_iff hs hb]
  have hq : q' = q := by
    rw [hco'.stop, hco.stop, h.nextBlock_eq hb, (h.sameTags hb).getSize]
    simp only [h.mergesRight_iff hs hb]
    split_ifs with hr
    · rw [(h.sameTags (nextBlock_mem hs hb hr.1)).getSize]
    · rfl
  rw [hco'.result, hp, hq]

theorem Twin.free (h : Twin s t bs D) (hs : Heap R s bs) (hb : b ∈ bs)
    (hfit : LinksFit R s bs b)
    (hlast : t.lastNode = s.lastNode ∨ t.lastNode = 0 ∧ ∀ x, D' x →
      s.lastNode = 0 ∨ x < s.lastNode + 8 ∨ s.lastNode + 16 ≤ x)
    (hD : ∀ x, D' x → D x ∧ ∃ e ∈ bs, e ≠ b ∧ checkAllocated s.mem e = true ∧
      e ≤ x ∧ x < e + getSize s.mem e) :
    ∃ s' t' bs', Malloc.free R s (b + 8) = some s' ∧ Malloc.free R t (b + 8) = some t' ∧
      Heap R s' bs' ∧ Frees s s' bs bs' b ∧ Twin s' t' bs' D' ∧ t'.lastNode = s'.lastNode ∧
      LastBlock s' bs' := by
  obtain ⟨s', ws, pre, post, zs, p, q, hfree, rfl, hm⟩ := free_merges hs hb hfit
  have hco := hm.coalesces
  have hroom := hm.room
  have hsize := hm.size
  have hmod : (q - p) % 16 = 0 := hco.run.mod_eq_zero
  have hlt : q - p + 1 < 2 ^ 64 := by
    have := getSize_lt s'.mem p
    omega
  have hfreed : checkAllocated (mark t.mem p (q - p) false) p = false :=
    mark_checkAllocated hmod (by omega) hlt
  have hfree' : Malloc.free R t (b + 8) = some
      ⟨linkNode (mark t.mem p (q - p) false) t.lastNode (p + 8), t.memBrk, p + 8⟩ := by
    have hne : b + 8 ≠ 0 := by omega
    simp only [Malloc.free, hne, if_false, headerSize, wordSize, Nat.add_sub_cancel,
      h.coalesce_eq hs hb hco, hfreed]
    simp
  refine ⟨s', _, ws ++ [p] ++ zs, hfree, hfree', hm.heap, hm.frees, ⟨?_, fun x hx => ?_⟩, ?_, ?_⟩
  · rw [hm.brk]
    exact h.brk
  · -- the byte is one of the new tags, or it was the same before and is not in the freed run
    have hwritten : (t.mem x = s.mem x ∧ (x < p ∨ q ≤ x)) ∨
        (p ≤ x ∧ x < p + 8 ∨ q - 8 ≤ x ∧ x < q) := by
      rcases hx with ⟨d, hd, hx⟩ | hx
      · have hcases : d = p ∨ d ∈ ws ++ zs := by
          rcases mem_middle.mp hd with hd | hd
          · exact .inl (List.mem_singleton.mp hd)
          · exact .inr hd
        rcases hcases with rfl | hd
        · rw [hm.size] at hx
          exact .inr (by omega)
        · have htag := hm.tags d hd
          rw [htag.getSize] at hx
          have hold : d ∈ ws ++ (pre ++ b :: post) ++ zs := by
            exact mem_middle.mpr (.inr hd)
          refine .inl ⟨h.agree x (.inl ⟨d, hold, hx⟩), ?_⟩
          rcases List.mem_append.mp hd with hd | hd
          · have hbd := hco.before.tiles.bounds hd
            have hsz := hco.before.size_ge hd
            omega
          · have hbd := hco.after.tiles.bounds hd
            have hsz := hco.after.size_ge hd
            omega
      · obtain ⟨hDx, e, he, hne, hal, hx₁, hx₂⟩ := hD x hx
        refine .inl ⟨h.agree x (.inr hDx), ?_⟩
        simp only [List.mem_append, List.mem_cons] at he
        rcases he with (he | he | he | he) | he
        · have hbd := hco.before.tiles.bounds he
          omega
        · rw [hco.pre_free e he] at hal
          cases hal
        · exact absurd he hne
        · rw [hco.post_free e he] at hal
          cases hal
        · have hbd := hco.after.tiles.bounds he
          omega
    have hmark : mark t.mem p (q - p) false x = mark s.mem p (q - p) false x := by
      apply mark_congr_at hmod hlt
      rcases hwritten with ⟨hsame, -⟩ | hx
      · exact .inl hsame
      · exact .inr (by omega)
    rw [hm.memory]
    rcases hlast with heq | ⟨h0, hstale⟩
    · rw [heq]
      exact linkNode_congr_at hmark
    · apply linkNode_congr_outside hmark (by omega) ?_ (.inl h0)
      rcases hx with ⟨d, hd, hx⟩ | hx
      · rcases hm.clear with hclear | hclear
        · exact .inl hclear
        · have hcd := hclear d hd
          have hcd' : (d + 8 ≤ s.lastNode + 8 ∨ s.lastNode + 16 ≤ d) ∧
            (d + getSize s'.mem d ≤ s.lastNode + 8 ∨
              s.lastNode + 16 ≤ d + getSize s'.mem d - 8) := hcd
          omega
      · exact hstale x hx
  · rw [hm.lastNode]
  · exact .inr ⟨p, by simp, hm.lastNode⟩

end CS24.Malloc
