import CS24.Machine.Tiling
import CS24.Subpython.Copying

/-!
# A collection in the middle

While `collect_garbage` follows the references from the globals, the values it has copied
lie back to back at the start of the to-space, in the order in which they were reached, and
the rest of the to-space is one free block. The last value takes all of the rest when not
more than a header would be left of it.
-/

namespace CS24.Subpython
open Machine Mem

namespace State
variable (s : State)

def half : Nat := s.actualSize / 2
def toSpace : Nat := if s.f then s.pool else s.halfwayPoint
def fromSpace : Nat := if s.f then s.halfwayPoint else s.pool

def size (r : Int) : Nat := valueSize s.mem (s.addr r)
def total (l : List Int) : Nat := (l.map s.size).sum

def successors (r : Int) : List Int := (s.fields r).filter fun x => ¬IsSpecial x
def roots : List Int := (s.globals.map Prod.snd).filter fun x => ¬IsSpecial x

/-- After the values `order` there is a free block, and the next value fits into it. -/
def Room (order : List Int) (r : Int) : Prop :=
  (order = [] ∨ s.total order + 24 < s.half) ∧ s.total order + s.size r ≤ s.half

instance (order : List Int) (r : Int) : Decidable (s.Room order r) :=
  inferInstanceAs (Decidable (_ ∧ _))

theorem total_nil : s.total [] = 0 := rfl

theorem total_append (l l' : List Int) : s.total (l ++ l') = s.total l + s.total l' := by
  rw [total, List.map_append, List.sum_append]
  rfl

theorem total_singleton (r : Int) : s.total [r] = s.size r := by
  rw [total, List.map_singleton, List.sum_singleton]

end State

/-- A heap whose values all lie in the half that a collection leaves. A half has room for a
header. -/
structure Vacating (s : State) (fl : List Nat) : Prop where
  heap : Heap s.live s.fields fl s
  pool_pos : 0 < s.pool
  pool_end : s.pool + s.actualSize < 2 ^ 64
  halfway : s.halfwayPoint = s.pool + s.half
  header : 24 ≤ s.half
  vacated : ∀ r ∈ s.live, s.fromSpace ≤ s.addr r ∧ s.addr r + s.size r ≤ s.fromSpace + s.half
  roots : ∀ entry ∈ s.globals, IsSpecial entry.2 ∨ entry.2 ∈ s.live

variable {s s' : State} {fl : List Nat} {w : Walk Int} {r u : Int}

namespace Vacating
variable (h : Vacating s fl)
include h

theorem spaces : s.fromSpace + s.half ≤ s.toSpace ∨ s.toSpace + s.half ≤ s.fromSpace := by
  have hway := h.halfway
  unfold State.fromSpace State.toSpace
  cases s.f
  · left
    exact hway.ge
  · right
    exact hway.ge

theorem toSpace_pos : 0 < s.toSpace := by
  have hpos := h.pool_pos
  have hway := h.halfway
  unfold State.toSpace
  split <;> omega

theorem toSpace_end : s.toSpace + s.half < 2 ^ 64 := by
  have hend := h.pool_end
  have hway := h.halfway
  unfold State.half at hway ⊢
  unfold State.toSpace
  split <;> omega

theorem size_ge (hr : r ∈ s.live) : 24 ≤ s.size r := (h.heap.live r hr).1.2.2

theorem extent_le (hr : r ∈ s.live) : extent s.mem (s.addr r) ≤ s.size r := (h.heap.live r hr).2

theorem apart (hr : r ∈ s.live) :
    s.addr r + s.size r ≤ s.toSpace ∨ s.toSpace + s.half ≤ s.addr r := by
  have hspaces := h.spaces
  have hin := h.vacated r hr
  omega

end Vacating

/-- The state `s'` of a collection that began in `s`, after the search `w`. -/
structure Copied (s : State) (w : Walk Int) (s' : State) : Prop where
  rest : s' = { s with
    f := !s.f, memorySize := s.half, memoryPool := s.toSpace, mem := s'.mem,
    freeList := s'.freeList, refTable := s'.refTable }
  length : s'.refTable.length = s.refTable.length
  live : ∀ r ∈ w.order, r ∈ s.live
  nodup : w.order.Nodup
  stored : w.seen ⊆ w.order
  fits : s.total w.order ≤ s.half
  tiles : Tiles (valueSize s'.mem) s.toSpace (w.order.map s'.addr) (s.toSpace + s.total w.order)
  old_addr : ∀ r, r ∉ w.order → s'.addr r = s.addr r
  copy : ∀ r ∈ w.order, CopyOf s.mem s'.mem (s.addr r) (s'.addr r)
  count : ∀ r ∈ w.order, s'.count r = w.seen.count r % 2 ^ 64
  old : ∀ r ∈ s.live, r ∉ w.order → Agree s.mem s'.mem (s.addr r) (s.addr r + s.size r)
  free : if w.order = [] ∨ s.total w.order + 24 < s.half then
      OneFree s' (s.toSpace + s.total w.order) (s.half - s.total w.order)
    else s'.freeList = 0

namespace Copied
variable (h : Copied s w s') (hs : Vacating s fl)
include h

theorem memoryPool : s'.memoryPool = s.toSpace := by rw [h.rest]

theorem memorySize : s'.memorySize = s.half := by rw [h.rest]

theorem isPoolAddress_iff {a : Nat} :
    isPoolAddress s' a ↔ s.toSpace ≤ a ∧ a < s.toSpace + s.half := by
  rw [isPoolAddress, h.memoryPool, h.memorySize]

include hs

theorem size_eq (hr : r ∈ w.order) : s'.size r = s.size r :=
  (h.copy r hr).valueSize_eq (hs.size_ge (h.live r hr))

theorem bounds (hr : r ∈ w.order) : s.toSpace ≤ s'.addr r ∧
    s'.addr r + s.size r ≤ s.toSpace + s.total w.order := by
  have hb := h.tiles.bounds (List.mem_map_of_mem hr)
  have hsize : valueSize s'.mem (s'.addr r) = s.size r := h.size_eq hs hr
  rwa [hsize] at hb

theorem blocks_apart (hr : r ∈ w.order) (hu : u ∈ w.order) (hne : r ≠ u) :
    s'.addr r + s.size r ≤ s'.addr u ∨ s'.addr u + s.size u ≤ s'.addr r := by
  have hsize : valueSize s'.mem (s'.addr r) = s.size r := h.size_eq hs hr
  have hsize' : valueSize s'.mem (s'.addr u) = s.size u := h.size_eq hs hu
  have hsep := h.tiles.sep (List.mem_map_of_mem hr) (List.mem_map_of_mem hu)
  rw [hsize, hsize'] at hsep
  apply hsep.resolve_left
  intro haddr
  exact hne (List.inj_on_of_nodup_map h.tiles.nodup hr hu haddr)

theorem again (hr : r ∈ w.order) :
    Copied s ⟨w.order, w.seen ++ [r]⟩
      { s' with mem := storeCount s'.mem (s'.addr r) (refCount s'.mem (s'.addr r) + 1) } := by
  have honly := changesOnly_storeCount s'.mem (s'.addr r) (refCount s'.mem (s'.addr r) + 1)
  have hsize := hs.size_ge (h.live r hr)
  have hbounds := h.bounds hs hr
  have hfits := h.fits
  have hblock : ∀ u ∈ w.order, u ≠ r → Agree s'.mem
      (storeCount s'.mem (s'.addr r) (refCount s'.mem (s'.addr r) + 1)) (s'.addr u)
      (s'.addr u + s.size u) := by
    intro u hu hne
    apply honly.agree
    have hapart := h.blocks_apart hs hu hr hne
    omega
  have hkept : ∀ u ∈ w.order, Kept s'.mem
      (storeCount s'.mem (s'.addr r) (refCount s'.mem (s'.addr r) + 1)) (s'.addr u) := by
    intro u hu
    have hsize' : valueSize s'.mem (s'.addr u) = s.size u := h.size_eq hs hu
    by_cases hne : u = r
    · subst hne
      exact ⟨honly.agree (.inl (by omega)), honly.agree (.inr (by omega))⟩
    · apply Kept.of_agree
      · rw [hsize']
        exact hblock u hu hne
      · rw [hsize']
        exact hs.size_ge (h.live u hu)
  constructor
  · rw [h.rest]
  · exact h.length
  · exact h.live
  · exact h.nodup
  · apply List.append_subset.mpr
    exact ⟨h.stored, by simpa using hr⟩
  · exact hfits
  · apply h.tiles.congr
    intro b hb
    obtain ⟨u, hu, rfl⟩ := List.mem_map.mp hb
    apply (hkept u hu).valueSize_eq
    have hsize' : valueSize s'.mem (s'.addr u) = s.size u := h.size_eq hs hu
    rw [hsize']
    exact hs.size_ge (h.live u hu)
  · exact h.old_addr
  · intro u hu
    exact (h.copy u hu).trans_kept (hs.size_ge (h.live u hu)) (hkept u hu)
  · intro u hu
    have hcount := h.count u hu
    rw [List.count_append]
    by_cases hne : u = r
    · subst hne
      rw [List.count_singleton_self]
      have hload : refCount (storeCount s'.mem (s'.addr u) (refCount s'.mem (s'.addr u) + 1))
          (s'.addr u) = (refCount s'.mem (s'.addr u) + 1) % 2 ^ 64 :=
        load64_store64_same (Nat.mod_lt _ (by decide))
      change refCount _ (s'.addr u) = _
      change refCount s'.mem (s'.addr u) = _ at hcount
      rw [hload, hcount, Nat.mod_add_mod]
    · have hzero : [r].count u = 0 := List.count_eq_zero.mpr (by simpa using hne)
      rw [hzero, Nat.add_zero (w.seen.count u), ← hcount]
      have hsize' := hs.size_ge (h.live u hu)
      have hagree : Agree s'.mem
          (storeCount s'.mem (s'.addr r) (refCount s'.mem (s'.addr r) + 1))
          (s'.addr u + 8) (s'.addr u + 16) := (hblock u hu hne).mono (by omega) (by omega)
      exact refCount_congr hagree
  · intro u hu hnot
    apply (h.old u hu hnot).trans
    apply honly.agree
    have hapart := hs.apart hu
    omega
  · have hfree := h.free
    dsimp only at hfree ⊢
    split_ifs at hfree ⊢ with hroom
    · have hagree : Agree s'.mem
          (storeCount s'.mem (s'.addr r) (refCount s'.mem (s'.addr r) + 1))
          (s.toSpace + s.total w.order) (s.toSpace + s.total w.order + 24) :=
        honly.agree (.inr (by omega))
      exact hfree.congr rfl hagree
    · exact hfree

theorem store (hr : r ∈ s.live) (hnew : r ∉ w.order) (hroom : s.Room w.order r) :
    Copied s ⟨w.order ++ [r], w.seen ++ [r]⟩
      (s'.place r (s.toSpace + s.total w.order) (s.size r) (s.half - s.total w.order)) := by
  have hfree := h.free
  rw [if_pos hroom.1] at hfree
  have hfits := hroom.2
  have hsize := hs.size_ge hr
  have hend := hs.toSpace_end
  have hapart := hs.apart hr
  have haddr := h.old_addr r hnew
  have htotal : s.total (w.order ++ [r]) = s.total w.order + s.size r := by
    rw [s.total_append, s.total_singleton]
  generalize hb : s.toSpace + s.total w.order = b at *
  generalize hrem : s.half - s.total w.order = rem at *
  have hm₁ : ChangesOnly s'.mem (s'.take b (s.size r) rem).mem b rem :=
    State.take_changes hsize (by omega)
  have hold₁ : Agree s.mem (s'.take b (s.size r) rem).mem (s.addr r) (s.addr r + s.size r) :=
    (h.old r hr hnew).trans (hm₁.agree (by omega))
  have hsize₁ : valueSize (s'.take b (s.size r) rem).mem (s'.addr r) = s.size r := by
    rw [haddr]
    exact valueSize_congr (hold₁.mono (by omega) (by omega))
  have hm₂ : ChangesOnly (s'.take b (s.size r) rem).mem (s'.place r b (s.size r) rem).mem b
      (s.size r) := State.place_changes hsize₁ hsize
  have hm : ChangesOnly s'.mem (s'.place r b (s.size r) rem).mem b rem :=
    hm₁.trans (hm₂.mono le_rfl (by omega))
  have hcopy : CopyOf s.mem (s'.place r b (s.size r) rem).mem (s.addr r) b := by
    have htaken : CopyOf (s'.take b (s.size r) rem).mem (s'.place r b (s.size r) rem).mem
        (s'.addr r) b := State.place_copy (hsize₁.symm ▸ hsize)
    rw [haddr] at htaken
    exact htaken.of_agree hold₁ hsize
  obtain ⟨h0, hlt⟩ := State.table_of_live hr
  have hself : (s'.place r b (s.size r) rem).addr r = b :=
    State.addr_place_self h0 (h.length.symm ▸ hlt)
  have hother : ∀ u, u ≠ r → (s'.place r b (s.size r) rem).addr u = s'.addr u :=
    fun u hne => State.addr_place_ne h0 hne
  have hne : ∀ u ∈ w.order, u ≠ r := fun u hu hur => hnew (hur ▸ hu)
  have hblock : ∀ u ∈ w.order, Agree s'.mem (s'.place r b (s.size r) rem).mem (s'.addr u)
      (s'.addr u + s.size u) := by
    intro u hu
    have hbounds := h.bounds hs hu
    exact hm.agree (.inl (by omega))
  have hkept : ∀ u ∈ w.order, Kept s'.mem (s'.place r b (s.size r) rem).mem (s'.addr u) := by
    intro u hu
    have hsize' : valueSize s'.mem (s'.addr u) = s.size u := h.size_eq hs hu
    apply Kept.of_agree
    · rw [hsize']
      exact hblock u hu
    · rw [hsize']
      exact hs.size_ge (h.live u hu)
  constructor
  · rw [State.place, State.take_rest, h.rest]
  · change ((s'.take b (s.size r) rem).refTable.set r.toNat b).length = _
    rw [List.length_set, State.refTable_take, h.length]
  · intro u hu
    rcases List.mem_append.mp hu with hu | hu
    · exact h.live u hu
    · exact List.mem_singleton.mp hu ▸ hr
  · apply List.nodup_append.mpr
    refine ⟨h.nodup, List.nodup_singleton r, fun u hu v hv => ?_⟩
    rw [List.mem_singleton.mp hv]
    exact hne u hu
  · apply List.append_subset.mpr
    exact ⟨List.subset_append_of_subset_left _ h.stored, List.subset_append_right ..⟩
  · rw [htotal]
    exact hfits
  · rw [htotal, List.map_append, List.map_singleton, hself, Tiles.append_iff]
    refine ⟨b, ?_, ?_⟩
    · have htiles := h.tiles
      rw [hb] at htiles
      have hmap : w.order.map (s'.place r b (s.size r) rem).addr = w.order.map s'.addr :=
        List.map_congr_left fun u hu => hother u (hne u hu)
      rw [hmap]
      apply htiles.congr
      intro c hc
      obtain ⟨u, hu, rfl⟩ := List.mem_map.mp hc
      apply (hkept u hu).valueSize_eq
      have hsize' : valueSize s'.mem (s'.addr u) = s.size u := h.size_eq hs hu
      rw [hsize']
      exact hs.size_ge (h.live u hu)
    · have hsize' : valueSize (s'.place r b (s.size r) rem).mem b = s.size r :=
        hcopy.valueSize_eq hsize
      rw [Tiles.singleton_iff, hsize']
      omega
  · intro u hu
    rw [List.mem_append, not_or, List.mem_singleton] at hu
    rw [hother u hu.2]
    exact h.old_addr u hu.1
  · intro u hu
    rcases List.mem_append.mp hu with hu | hu
    · rw [hother u (hne u hu)]
      exact (h.copy u hu).trans_kept (hs.size_ge (h.live u hu)) (hkept u hu)
    · rw [List.mem_singleton.mp hu, hself]
      exact hcopy
  · intro u hu
    rw [List.count_append]
    rcases List.mem_append.mp hu with hu | hu
    · have hzero : [r].count u = 0 := List.count_eq_zero.mpr (by simpa using hne u hu)
      rw [hzero, Nat.add_zero (w.seen.count u), ← h.count u hu, State.count, hother u (hne u hu)]
      have hsize' := hs.size_ge (h.live u hu)
      exact refCount_congr ((hblock u hu).mono (by omega) (by omega))
    · rw [List.mem_singleton.mp hu, List.count_singleton_self,
        List.count_eq_zero.mpr fun hseen => hnew (h.stored hseen), State.count, hself,
        State.refCount_place]
      rfl
  · intro u hu hnot
    rw [List.mem_append, not_or] at hnot
    apply (h.old u hu hnot.1).trans
    apply hm.agree
    have hapart' := hs.apart hu
    omega
  · rw [htotal]
    have hrem' : s.half - (s.total w.order + s.size r) = rem - s.size r := by omega
    have hb' : s.toSpace + (s.total w.order + s.size r) = b + s.size r := by omega
    by_cases hsplit : 24 < rem - s.size r
    · rw [if_pos (.inr (by omega)), hrem', hb']
      have hnext := State.take_free hfree hsize hsplit (by omega)
      exact hnext.congr rfl (hm₂.agree (.inr (by omega)))
    · rw [if_neg (by simp; omega)]
      exact State.take_full hfree hsplit

end Copied

def State.initialized (s : State) : State :=
  { s with
    f := !s.f
    memorySize := s.half
    memoryPool := s.toSpace
    freeList := s.toSpace
    mem := storeSize (storeNext (storeType s.mem s.toSpace .free) s.toSpace 0) s.toSpace s.half }

theorem State.initialized_mem (hs : Vacating s fl) :
    ChangesOnly s.mem s.initialized.mem s.toSpace 24 ∧
      OneFree s.initialized s.toSpace s.half := by
  have hend := hs.toSpace_end
  have hpos := hs.toSpace_pos
  have h₁ := changesOnly_storeType s.mem s.toSpace .free
  have h₂ := changesOnly_storeNext (storeType s.mem s.toSpace .free) s.toSpace 0
  have h₃ := changesOnly_storeSize (storeNext (storeType s.mem s.toSpace .free) s.toSpace 0)
    s.toSpace s.half
  refine ⟨((h₁.mono le_rfl (by omega)).trans (h₂.mono (by omega) (by omega))).trans
    (h₃.mono (by omega) (by omega)), rfl, hpos.ne', ?_, ?_, ?_⟩
  · change typeOf (storeSize _ _ _) _ = _
    rw [typeOf_congr (h₃.agree (.inl (by omega))), typeOf_congr (h₂.agree (.inl (by omega))),
      typeOf_storeType]
  · have hagree : Agree _ _ (s.toSpace + 8) (s.toSpace + 8 + 8) := h₃.agree (.inl (by omega))
    have hnext := load64_congr hagree
    exact hnext.trans (nextFree_storeNext _ _ (by decide))
  · exact valueSize_storeSize _ _ (by omega)

theorem Copied.initial (hs : Vacating s fl) : Copied s Walk.empty s.initialized := by
  obtain ⟨honly, hfree⟩ := State.initialized_mem hs
  have hheader := hs.header
  constructor
  · rfl
  · rfl
  · exact fun r hr => absurd hr List.not_mem_nil
  · exact List.nodup_nil
  · exact List.Subset.refl _
  · exact Nat.zero_le _
  · rfl
  · exact fun r _ => rfl
  · exact fun r hr => absurd hr List.not_mem_nil
  · exact fun r hr => absurd hr List.not_mem_nil
  · intro r hr _
    have hapart := hs.apart hr
    exact honly.agree (by omega)
  · rw [if_pos (.inl rfl)]
    exact hfree

end CS24.Subpython
