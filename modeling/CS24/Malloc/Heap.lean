import CS24.Malloc.Mm
import CS24.Machine.Tiling

/-!
# Tiled heaps

A stretch of memory is a segment when blocks with a positive size, a multiple
of the alignment, and a footer equal to the header tile it. The operations of
the allocator rewrite a segment in place: `Seg.replace` is the one frame rule
they share, and `mark` is the one way headers and footers are written.
-/

namespace CS24.Malloc
open Machine Mem

variable {m m' : Mem} {b c n lo hi p q : Nat} {f : Bool} {bs xs ys zs : List Nat}

theorem or_flag (h : n % 2 = 0) (f : Bool) : n ||| f.toNat = n + f.toNat := by
  cases f with
  | false => simp
  | true =>
    have hor := Nat.two_pow_add_eq_or_of_lt (show 1 < 2 ^ 1 by decide) (n / 2)
    rw [show 2 ^ 1 * (n / 2) = n by omega] at hor
    exact hor.symm

theorem getSize_lt (m : Mem) (b : Nat) : getSize m b < 2 ^ 64 := by
  have := load64_lt m b
  unfold getSize
  omega

theorem load64_eq (m : Mem) (b : Nat) :
    load64 m b = getSize m b + (checkAllocated m b).toNat := by
  unfold getSize checkAllocated
  rcases Nat.mod_two_eq_zero_or_one (load64 m b) with h | h <;> simp [h] <;> omega

theorem header_of_load64 (h : load64 m b = n + f.toNat) (hn : n % 2 = 0) :
    getSize m b = n ∧ checkAllocated m b = f := by
  unfold getSize checkAllocated
  rw [h]
  cases f <;> simp <;> omega

theorem mark_eq (hn : n % 2 = 0) (hlt : n + 1 < 2 ^ 64) :
    mark m b n f = store64 (store64 m b (n + f.toNat)) (b + n - 8) (n + f.toNat) := by
  have hf : f.toNat ≤ 1 := by cases f <;> simp
  have hload : load64 (setHeader m b n f) b = n + f.toNat := by
    rw [setHeader, or_flag hn, load64_store64_same (by omega)]
  obtain ⟨hsize, halloc⟩ := header_of_load64 hload hn
  rw [mark, setFooter, hsize, halloc, setHeader, or_flag hn, wordSize]

theorem mark_header (hn : n % 16 = 0) (hpos : 0 < n) (hlt : n + 1 < 2 ^ 64) :
    load64 (mark m b n f) b = n + f.toNat := by
  have hf : f.toNat ≤ 1 := by cases f <;> simp
  rw [mark_eq (by omega) hlt, load64_store64_ne (by omega), load64_store64_same (by omega)]

theorem mark_footer (hn : n % 16 = 0) (hlt : n + 1 < 2 ^ 64) :
    load64 (mark m b n f) (b + n - 8) = n + f.toNat := by
  have hf : f.toNat ≤ 1 := by cases f <;> simp
  rw [mark_eq (by omega) hlt, load64_store64_same (by omega)]

theorem mark_agree (hn : n % 16 = 0) (hpos : 0 < n) (hlt : n + 1 < 2 ^ 64)
    (h₁ : hi ≤ b ∨ b + 8 ≤ lo) (h₂ : hi ≤ b + n - 8 ∨ b + n ≤ lo) :
    Agree m (mark m b n f) lo hi := by
  rw [mark_eq (by omega) hlt]
  exact (agree_store64 h₁).trans (agree_store64 (by omega))

structure Good (m : Mem) (b : Nat) : Prop where
  aligned : getSize m b % alignment = 0
  footer : load64 m (b + getSize m b - 8) = load64 m b

structure Seg (m : Mem) (lo : Nat) (bs : List Nat) (hi : Nat) : Prop where
  tiles : Tiles (getSize m) lo bs hi
  good : ∀ b ∈ bs, Good m b

/-- The header and the footer of `b` are the same in the two memories. -/
structure SameTags (m m' : Mem) (b : Nat) : Prop where
  header : Agree m m' b (b + 8)
  footer : Agree m m' (b + getSize m b - 8) (b + getSize m b)

theorem SameTags.load64 (h : SameTags m m' b) : load64 m' b = load64 m b := load64_congr h.header

theorem SameTags.getSize (h : SameTags m m' b) : getSize m' b = getSize m b := by
  unfold Malloc.getSize
  rw [h.load64]

theorem SameTags.checkAllocated (h : SameTags m m' b) :
    checkAllocated m' b = checkAllocated m b := by
  unfold Malloc.checkAllocated
  rw [h.load64]

theorem Seg.size_ge (h : Seg m lo bs hi) (hb : b ∈ bs) : 16 ≤ getSize m b := by
  have hpos := h.tiles.pos hb
  have hal := (h.good b hb).aligned
  unfold alignment at hal
  omega

theorem Seg.congr (h : Seg m lo bs hi) (hs : ∀ b ∈ bs, SameTags m m' b) : Seg m' lo bs hi := by
  refine ⟨h.tiles.congr fun b hb => (hs b hb).getSize, fun b hb => ?_⟩
  have hg := h.good b hb
  have hsize := h.size_ge hb
  refine ⟨by rw [(hs b hb).getSize]; exact hg.aligned, ?_⟩
  rw [(hs b hb).getSize, (hs b hb).load64, ← hg.footer]
  exact load64_congr ((hs b hb).footer.mono le_rfl (by omega))

theorem Seg.congr_agree (h : Seg m lo bs hi) (hs : Agree m m' lo hi) : Seg m' lo bs hi := by
  refine h.congr fun b hb => ?_
  have hbd := h.tiles.bounds hb
  have hsize := h.size_ge hb
  exact ⟨hs.mono hbd.1 (by omega), hs.mono (by omega) hbd.2⟩

theorem Seg.append_iff :
    Seg m lo (xs ++ ys) hi ↔ ∃ p, Seg m lo xs p ∧ Seg m p ys hi := by
  constructor
  · rintro ⟨ht, hg⟩
    obtain ⟨p, hx, hy⟩ := Tiles.append_iff.mp ht
    exact ⟨p, ⟨hx, fun b hb => hg b (by simp [hb])⟩, ⟨hy, fun b hb => hg b (by simp [hb])⟩⟩
  · rintro ⟨p, hx, hy⟩
    refine ⟨Tiles.append_iff.mpr ⟨p, hx.tiles, hy.tiles⟩, fun b hb => ?_⟩
    rcases List.mem_append.mp hb with hb | hb
    · exact hx.good b hb
    · exact hy.good b hb

theorem Seg.split (h : Seg m lo bs hi) (hb : b ∈ bs) :
    ∃ xs ys, bs = xs ++ b :: ys ∧ Seg m lo xs b ∧ Seg m b [b] (b + getSize m b) ∧
      Seg m (b + getSize m b) ys hi := by
  obtain ⟨xs, ys, rfl⟩ := List.append_of_mem hb
  obtain ⟨p, hx, hy⟩ := Seg.append_iff.mp h
  obtain ⟨rfl, hpos, hrest⟩ := hy.tiles
  refine ⟨xs, ys, rfl, hx, ⟨⟨rfl, hpos, rfl⟩, ?_⟩, ⟨hrest, fun c hc => hy.good c (by simp [hc])⟩⟩
  intro c hc
  exact hy.good c (by simp_all)

theorem Seg.cons_iff :
    Seg m lo (b :: ys) hi ↔ ∃ p, Seg m lo [b] p ∧ Seg m p ys hi := by
  rw [← List.singleton_append]
  exact append_iff

theorem Seg.mod_eq_zero (h : Seg m lo bs hi) : (hi - lo) % 16 = 0 := by
  induction bs generalizing lo with
  | nil =>
    have hend : lo = hi := h.tiles
    omega
  | cons b bs ih =>
    obtain ⟨p, hb, hrest⟩ := Seg.cons_iff.mp h
    obtain ⟨rfl, -, hp⟩ := hb.tiles
    have hp' : b + getSize m b = p := hp
    have hal := (hb.good b (by simp)).aligned
    have hle := hrest.tiles.le
    have := ih hrest
    unfold alignment at hal
    omega

theorem Seg.length_le (h : Seg m lo bs hi) : lo + 16 * bs.length ≤ hi := by
  induction bs generalizing lo with
  | nil => exact Nat.le_of_eq h.tiles
  | cons b bs ih =>
    obtain ⟨p, hb, hrest⟩ := Seg.cons_iff.mp h
    obtain ⟨rfl, -, hp⟩ := hb.tiles
    have hp' : b + getSize m b = p := hp
    have hsz := hb.size_ge (b := b) (by simp)
    have := ih hrest
    simp only [List.length_cons]
    omega

theorem Seg.tags_disjoint {d e x : Nat} (h : Seg m lo bs hi) (hd : d ∈ bs) (he : e ∈ bs)
    (h₁ : e + 8 ≤ x) (h₂ : x + n + 8 ≤ e + getSize m e) :
    (d + 8 ≤ x ∨ x + n ≤ d) ∧
      (d + getSize m d ≤ x ∨ x + n ≤ d + getSize m d - 8) := by
  have hsz := h.size_ge hd
  rcases h.tiles.sep hd he with rfl | hs | hs <;> omega

theorem Seg.replace (hx : Seg m lo xs p) (hz : Seg m' p zs q) (hy : Seg m q ys hi)
    (hbefore : Agree m m' lo p) (hafter : Agree m m' q hi) :
    Seg m' lo (xs ++ zs ++ ys) hi :=
  Seg.append_iff.mpr ⟨q, Seg.append_iff.mpr ⟨p, hx.congr_agree hbefore, hz⟩,
    hy.congr_agree hafter⟩

theorem Seg.mark (hn : n % 16 = 0) (hpos : 0 < n) (hlt : n + 1 < 2 ^ 64) :
    Seg (mark m b n f) b [b] (b + n) := by
  obtain ⟨hsize, -⟩ := header_of_load64 (mark_header (m := m) (b := b) (f := f) hn hpos hlt)
    (by omega)
  refine ⟨⟨rfl, by omega, by rw [Tiles, hsize]⟩, fun c hc => ?_⟩
  obtain rfl := List.mem_singleton.mp hc
  refine ⟨by rwa [hsize], ?_⟩
  rw [hsize, mark_footer hn hlt, mark_header hn hpos hlt]

theorem mark_checkAllocated (hn : n % 16 = 0) (hpos : 0 < n) (hlt : n + 1 < 2 ^ 64) :
    checkAllocated (mark m b n f) b = f :=
  (header_of_load64 (mark_header hn hpos hlt) (by omega)).2

theorem mark_getSize (hn : n % 16 = 0) (hpos : 0 < n) (hlt : n + 1 < 2 ^ 64) :
    getSize (mark m b n f) b = n :=
  (header_of_load64 (mark_header hn hpos hlt) (by omega)).1

end CS24.Malloc
