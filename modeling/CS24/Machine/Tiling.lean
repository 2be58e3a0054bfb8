import Mathlib

/-!
# Contiguous tilings by self-describing blocks

`Tiles size a bs e` says that the blocks starting at the addresses `bs`, each
of positive length `size b`, lie back to back from `a` to `e`. The length of a
block is a function of its address, as in a heap whose blocks carry their own
size, so that changing a memory changes the tiling only through `size`.
-/

namespace CS24.Machine

theorem mem_middle {α : Type*} {d : α} {xs ys zs : List α} :
    d ∈ xs ++ ys ++ zs ↔ d ∈ ys ∨ d ∈ xs ++ zs := by
  rw [List.mem_append, List.mem_append, List.mem_append, or_comm (a := d ∈ xs), or_assoc]

def Tiles (size : Nat → Nat) : Nat → List Nat → Nat → Prop
  | a, [], e => a = e
  | a, b :: bs, e => b = a ∧ 0 < size a ∧ Tiles size (a + size a) bs e

namespace Tiles

variable {size size' : Nat → Nat} {a e b c : Nat} {xs ys bs : List Nat}

theorem append_iff :
    Tiles size a (xs ++ ys) e ↔ ∃ m, Tiles size a xs m ∧ Tiles size m ys e := by
  induction xs generalizing a with
  | nil => simp [Tiles]
  | cons x xs ih =>
    simp only [List.cons_append, Tiles, ih]
    constructor
    · rintro ⟨hx, hpos, m, hxs, hys⟩
      exact ⟨m, ⟨hx, hpos, hxs⟩, hys⟩
    · rintro ⟨m, ⟨hx, hpos, hxs⟩, hys⟩
      exact ⟨hx, hpos, m, hxs, hys⟩

theorem singleton_iff : Tiles size a [b] e ↔ b = a ∧ 0 < size a ∧ a + size a = e := by
  simp [Tiles]

theorem le (h : Tiles size a bs e) : a ≤ e := by
  induction bs generalizing a with
  | nil => exact Nat.le_of_eq h
  | cons b bs ih =>
    have := ih h.2.2
    omega

theorem congr (h : Tiles size a bs e) (hs : ∀ b ∈ bs, size' b = size b) :
    Tiles size' a bs e := by
  induction bs generalizing a with
  | nil => exact h
  | cons b bs ih =>
    obtain ⟨rfl, hpos, hrest⟩ := h
    have hb := hs b (by simp)
    refine ⟨rfl, by rwa [hb], ?_⟩
    rw [hb]
    exact ih hrest fun c hc => hs c (by simp [hc])

theorem pos (h : Tiles size a bs e) (hb : b ∈ bs) : 0 < size b := by
  induction bs generalizing a with
  | nil => simp at hb
  | cons c bs ih =>
    obtain ⟨rfl, hpos, hrest⟩ := h
    rcases List.mem_cons.mp hb with rfl | hb
    · exact hpos
    · exact ih hrest hb

theorem split (h : Tiles size a bs e) (hb : b ∈ bs) :
    ∃ xs ys, bs = xs ++ b :: ys ∧ Tiles size a xs b ∧ Tiles size (b + size b) ys e := by
  obtain ⟨xs, ys, rfl⟩ := List.append_of_mem hb
  obtain ⟨m, hxs, rfl, hpos, hys⟩ := append_iff.mp h
  exact ⟨xs, ys, rfl, hxs, hys⟩

theorem bounds (h : Tiles size a bs e) (hb : b ∈ bs) : a ≤ b ∧ b + size b ≤ e := by
  obtain ⟨xs, ys, rfl, hxs, hys⟩ := h.split hb
  exact ⟨hxs.le, hys.le⟩

theorem sep (h : Tiles size a bs e) (hb : b ∈ bs) (hc : c ∈ bs) :
    b = c ∨ b + size b ≤ c ∨ c + size c ≤ b := by
  obtain ⟨xs, ys, rfl, hxs, hys⟩ := h.split hb
  simp only [List.mem_append, List.mem_cons] at hc
  rcases hc with hc | hc | hc
  · exact .inr (.inr (hxs.bounds hc).2)
  · exact .inl hc.symm
  · exact .inr (.inl (hys.bounds hc).1)

theorem nodup (h : Tiles size a bs e) : bs.Nodup := by
  induction bs generalizing a with
  | nil => exact List.nodup_nil
  | cons b bs ih =>
    obtain ⟨rfl, hpos, hrest⟩ := h
    refine List.nodup_cons.mpr ⟨fun hb => ?_, ih hrest⟩
    have := (hrest.bounds hb).1
    omega

theorem unique {ys : List Nat} (h : Tiles size a xs e) (h' : Tiles size a ys e) : xs = ys := by
  induction xs generalizing a ys with
  | nil =>
    have hend : a = e := h
    cases ys with
    | nil => rfl
    | cons y ys =>
      obtain ⟨-, hpos, hrest⟩ := h'
      have := hrest.le
      omega
  | cons x xs ih =>
    obtain ⟨rfl, hpos, hrest⟩ := h
    cases ys with
    | nil =>
      have hend : x = e := h'
      have := hrest.le
      omega
    | cons y ys =>
      obtain ⟨rfl, -, hrest'⟩ := h'
      rw [ih hrest hrest']

theorem snoc_of_ne (h : Tiles size a xs b) (hne : a ≠ b) :
    ∃ zs c, xs = zs ++ [c] ∧ Tiles size a zs c ∧ c + size c = b ∧ 0 < size c := by
  rcases List.eq_nil_or_concat xs with rfl | ⟨zs, c, rfl⟩
  · exact absurd h hne
  · rw [List.concat_eq_append] at h
    obtain ⟨m, hzs, rfl, hpos, hend⟩ := append_iff.mp h
    exact ⟨zs, c, by simp, hzs, hend, hpos⟩

end Tiles

/-- The addresses in the blocks at `bs`. -/
def covered (size : Nat → Nat) (bs : List Nat) : Finset Nat :=
  bs.toFinset.biUnion fun b => Finset.Ico b (b + size b)

theorem mem_covered {size : Nat → Nat} {bs : List Nat} {x : Nat} :
    x ∈ covered size bs ↔ ∃ b ∈ bs, b ≤ x ∧ x < b + size b := by
  simp only [covered, Finset.mem_biUnion, List.mem_toFinset, Finset.mem_Ico]

theorem card_covered {size : Nat → Nat} {bs : List Nat}
    (h : bs.Pairwise fun b c => b + size b ≤ c ∨ c + size c ≤ b) :
    (covered size bs).card = (bs.map size).sum := by
  induction bs with
  | nil => rfl
  | cons b bs ih =>
    obtain ⟨hb, hrest⟩ := List.pairwise_cons.mp h
    have hunion : covered size (b :: bs) = Finset.Ico b (b + size b) ∪ covered size bs := by
      rw [covered, List.toFinset_cons, Finset.biUnion_insert]
      rfl
    have hdisjoint : Disjoint (Finset.Ico b (b + size b)) (covered size bs) := by
      apply Finset.disjoint_left.mpr
      intro x hx hx'
      obtain ⟨c, hc, hlo, hhi⟩ := mem_covered.mp hx'
      have hin := Finset.mem_Ico.mp hx
      have hapart := hb c hc
      omega
    rw [hunion, Finset.card_union_of_disjoint hdisjoint, ih hrest, Nat.card_Ico, List.map_cons,
      List.sum_cons, Nat.add_sub_cancel_left]

theorem sum_le_of_apart {size : Nat → Nat} {bs : List Nat} {lo hi : Nat}
    (h : bs.Pairwise fun b c => b + size b ≤ c ∨ c + size c ≤ b)
    (hin : ∀ b ∈ bs, lo ≤ b ∧ b + size b ≤ hi) : (bs.map size).sum ≤ hi - lo := by
  rw [← card_covered h, ← Nat.card_Ico]
  apply Finset.card_le_card
  intro x hx
  obtain ⟨b, hb, hlo, hhi⟩ := mem_covered.mp hx
  have hbounds := hin b hb
  exact Finset.mem_Ico.mpr (by omega)

end CS24.Machine
