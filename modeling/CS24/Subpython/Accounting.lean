import CS24.Subpython.Survivors

/-!
# Memory accounting across a collection

The values that survive fill the to-space from its start, and `mem_used` is what the free
block leaves of it. When not more than a header would be left, the last value copied takes
the whole rest, but its own size is copied with it, so the rest is lost.
-/

namespace CS24.Subpython
open Machine Mem Walk

variable {s t : State} {fl : List Nat} {w : Walk Int} {n : Nat}

/-- The values that can be reached from the globals. -/
noncomputable def State.reachable (s : State) : Finset Int :=
  open Classical in s.live.filter fun r => ∃ g ∈ s.roots, Reaches s.successors g r

theorem State.mem_reachable {r : Int} :
    r ∈ s.reachable ↔ r ∈ s.live ∧ ∃ g ∈ s.roots, Reaches s.successors g r := by
  classical
  rw [State.reachable, Finset.mem_filter]

/-- The accounts after a collection that began in `s` and ended in `s'`. -/
structure Accounted (s s' : State) : Prop where
  tiles : ∃ values free, Tiles (valueSize s'.mem) s.toSpace (values ++ free)
    (s.toSpace + s.half) ∧ values.Perm (s'.live.toList.map s'.addr) ∧
    Chain s'.mem s'.freeList free ∧ free.length ≤ 1
  used : ∃ enough, ∀ n ≥ enough, memUsed n s' = .ok (∑ r ∈ s'.live, s'.size r, s')
  shrinks : ∃ enough, ∀ n ≥ enough, ∃ before, memUsed n s = .ok (before, s) ∧
    ∑ r ∈ s'.live, s'.size r ≤ before
  again : ∃ enough, ∀ n ≥ enough, ∃ s'', collectGarbage n s' = .ok ((), s'') ∧
    (∃ used, memUsed n s' = .ok (used, s') ∧ memUsed n s'' = .ok (used, s'')) ∧
    ∃ values, refsUsed s' = .ok (values, s') ∧ refsUsed s'' = .ok (values, s'')

theorem map_getD_range (l : List Nat) : (List.range l.length).map (l.getD · 0) = l := by
  apply List.ext_getElem
  · rw [List.length_map, List.length_range]
  · intro i h h'
    rw [List.getElem_map, List.getElem_range, List.getD_eq_getElem?_getD,
      List.getElem?_eq_getElem h', Option.getD_some]

theorem refsUsed_eq (s : State) : refsUsed s = .ok (s.live.card, s) := by
  have hlive : s.live = ((Finset.range s.refTable.length).filter
      fun i => s.refTable.getD i 0 ≠ 0).image Nat.cast := by
    rw [State.live, Finset.filter_image]
    rfl
  have hcount : s.refTable.countP (· ≠ 0) = s.live.card := by
    rw [hlive, Finset.card_image_of_injective _ Nat.cast_injective,
      ← Nat.count_eq_card_filter_range]
    conv_lhs => rw [← map_getD_range s.refTable, List.countP_map]
    rfl
  rw [← hcount]
  rfl

namespace Copied
variable (h : Copied s w t) (hs : Vacating s fl)
include h hs

theorem sum_live : ∑ r ∈ t.swept.live, t.swept.size r = s.total w.order := by
  rw [h.live_swept hs, List.sum_toFinset _ h.nodup]
  exact h.total_swept hs fun r hr => hr

theorem memUsed_swept (hw : s.search = .ok w) (hn : 2 ≤ n) : memUsed n t.swept =
    .ok (if w.order = [] ∨ s.total w.order + 24 < s.half then s.total w.order else s.half,
      t.swept) := by
  have hheap := (h.vacating hs hw).heap
  have hfits := h.fits
  have hlength : (s.left w).length < n := by
    unfold State.left
    split_ifs
    · rw [List.length_singleton]
      omega
    · rw [List.length_nil]
      omega
  have hsize : t.swept.memorySize = s.half := h.memorySize
  rw [hheap.memUsed hlength, hsize]
  have hfree := fun b => h.free_bounds hs (b := b)
  unfold State.left at hfree ⊢
  split_ifs with hroom
  · have hsize' := (hfree (s.toSpace + s.total w.order)
      (by rw [if_pos hroom]; exact List.mem_singleton_self _)).2.1
    have hsize'' : valueSize t.swept.mem (s.toSpace + s.total w.order) =
      s.half - s.total w.order := hsize'
    rw [List.map_singleton, List.sum_singleton, hsize'', Nat.sub_sub_self hfits]
  · rfl

theorem tiles_swept
    (hfull : w.order = [] ∨ s.total w.order = s.half ∨ s.total w.order + 24 < s.half) :
    Tiles (valueSize t.swept.mem) s.toSpace (w.order.map t.addr ++ s.left w)
      (s.toSpace + s.half) := by
  have hfits := h.fits
  have hfree := fun b => h.free_bounds hs (b := b)
  rw [Tiles.append_iff]
  refine ⟨_, h.tiles, ?_⟩
  unfold State.left at hfree ⊢
  split_ifs at hfree ⊢ with hroom
  · obtain ⟨-, hsize, hge⟩ := hfree _ (List.mem_singleton_self _)
    have hsize' : valueSize t.swept.mem (s.toSpace + s.total w.order) =
      s.half - s.total w.order := hsize
    rw [Tiles.singleton_iff, hsize']
    omega
  · have htotal : s.total w.order = s.half := by
      rcases hfull with hnil | htotal | hlt
      · exact absurd (.inl hnil) hroom
      · exact htotal
      · exact absurd (.inr hlt) hroom
    change s.toSpace + s.total w.order = s.toSpace + s.half
    rw [htotal]

theorem again_swept (hw : s.search = .ok w) : ∃ enough, ∀ n ≥ enough, ∃ s'',
    collectGarbage n t.swept = .ok ((), s'') ∧
      (∃ used, memUsed n t.swept = .ok (used, t.swept) ∧ memUsed n s'' = .ok (used, s'')) ∧
      ∃ values, refsUsed t.swept = .ok (values, t.swept) ∧
        refsUsed s'' = .ok (values, s'') := by
  have hs' := h.vacating hs hw
  have hw' := h.search_swept hs hw
  obtain ⟨enough, hcollect⟩ := collectGarbage_of_search hs' hw'
  refine ⟨max enough 2, fun n hn => ?_⟩
  obtain ⟨t', hs'', hcopied⟩ := hcollect n (le_of_max_le_left hn)
  have htwo : 2 ≤ n := le_of_max_le_right hn
  have htotal := h.total_swept hs fun r hr => hr
  have hhalf := h.half_swept
  refine ⟨_, hs'', ⟨_, h.memUsed_swept hs hw htwo, ?_⟩, _, refsUsed_eq _, ?_⟩
  · rw [hcopied.memUsed_swept hs' hw' htwo, htotal, hhalf]
  · rw [refsUsed_eq, hcopied.live_swept hs', h.live_swept hs]

theorem accounted_iff (hw : s.search = .ok w) : Accounted s t.swept ↔
    w.order = [] ∨ s.total w.order = s.half ∨ s.total w.order + 24 < s.half := by
  have hused := fun n (hn : 2 ≤ n) => h.memUsed_swept hs hw hn
  constructor
  · intro haccounted
    obtain ⟨enough, hmem⟩ := haccounted.used
    have hn := hmem (max enough 2) (Nat.le_max_left _ _)
    rw [hused _ (Nat.le_max_right _ _), h.sum_live hs] at hn
    have heq := congrArg Prod.fst (Except.ok.inj hn)
    dsimp only at heq
    split_ifs at heq with hroom
    · exact hroom.imp_right .inr
    · exact .inr (.inl heq.symm)
  · intro hfull
    constructor
    · refine ⟨_, _, h.tiles_swept hs hfull, ?_, h.chain_left, ?_⟩
      · rw [h.live_swept hs]
        have hperm : w.order.toFinset.toList.Perm w.order :=
          (List.toFinset_toList h.nodup)
        have hmap : w.order.map t.addr = w.order.map t.swept.addr :=
          List.map_congr_left fun r hr => (h.addr_of_mem hs hr).symm
        rw [hmap]
        exact (hperm.map _).symm
      · unfold State.left
        split_ifs <;> simp
    · refine ⟨2, fun n hn => ?_⟩
      rw [hused n hn, h.sum_live hs]
      split_ifs with hroom
      · rfl
      · rw [not_or] at hroom
        rw [(hfull.resolve_left hroom.1).resolve_right hroom.2]
    · refine ⟨fl.length + 1, fun n hn => ⟨_, hs.heap.memUsed hn, ?_⟩⟩
      have hsum := hs.heap.sum_le
      have hle : s.total w.order ≤ ∑ r ∈ s.live, s.size r := by
        rw [State.total, ← List.sum_toFinset _ h.nodup]
        apply Finset.sum_le_sum_of_subset
        intro r hr
        exact h.live r (List.mem_toFinset.mp hr)
      rw [h.sum_live hs]
      omega
    · exact h.again_swept hs hw

end Copied

theorem Copied.reachable_eq {w : Walk Int} {t : State} (h : Copied s w t)
    (hw : s.search = .ok w) : s.reachable = w.order.toFinset := by
  have hsearch := search_searched hw
  ext r
  rw [List.mem_toFinset, hsearch.mem_order, State.mem_reachable]
  constructor
  · exact fun hr => hr.2
  · exact fun hr => ⟨h.live r ((hsearch.mem_order r).mpr hr), hr⟩

theorem Copied.total_reachable (h : Copied s w t) (hw : s.search = .ok w) :
    ∑ r ∈ s.reachable, s.size r = s.total w.order := by
  rw [h.reachable_eq hw, List.sum_toFinset _ h.nodup]
  rfl

/-- Nothing is lost when nothing is reached, when what is reached fills the half, and when
more than a header is left of it. -/
theorem collectGarbage_accounts (hs : Vacating s fl) (hnull : NoNull s) :
    ∃ enough, ∀ n ≥ enough, ∃ s', collectGarbage n s = .ok ((), s') ∧
      (Accounted s s' ↔ s.reachable = ∅ ∨ ∑ r ∈ s.reachable, s.size r = s.half ∨
        ∑ r ∈ s.reachable, s.size r + 24 < s.half) := by
  obtain ⟨w, hw⟩ := hnull.search hs
  obtain ⟨enough, hcollect⟩ := collectGarbage_of_search hs hw
  refine ⟨enough, fun n hn => ?_⟩
  obtain ⟨t, ht, hcopied⟩ := hcollect n hn
  refine ⟨_, ht, ?_⟩
  rw [hcopied.accounted_iff hs hw, hcopied.total_reachable hw, hcopied.reachable_eq hw,
    List.toFinset_eq_empty_iff]

theorem nested_vacating : Vacating nested [176] where
  heap := nested_heap
  pool_pos := by decide
  pool_end := by decide
  halfway := by decide
  header := by decide
  vacated := by decide +kernel
  roots := by decide +kernel

theorem nested_search : nested.search = .ok ⟨[0, 1, 2], [0, 1, 2]⟩ := by decide +kernel

theorem collectGarbage_accounts_nested :
    ∃ enough, ∀ n ≥ enough, ∃ s', collectGarbage n nested = .ok ((), s') ∧
      (Accounted nested s' ↔ nested.reachable = ∅ ∨
        ∑ r ∈ nested.reachable, nested.size r = nested.half ∨
        ∑ r ∈ nested.reachable, nested.size r + 24 < nested.half) :=
  collectGarbage_accounts nested_vacating (.of_search nested_vacating nested_search)

/-- The integer, which is copied last, takes 16 bytes more than its size. -/
theorem collection_loses_rest : ¬ ∀ (s : State) (fl : List Nat), Vacating s fl → NoNull s →
    ∃ enough, ∀ n ≥ enough, ∃ s', collectGarbage n s = .ok ((), s') ∧ Accounted s s' := by
  intro h
  have hnull := NoNull.of_search nested_vacating nested_search
  obtain ⟨enough, haccounts⟩ := h nested [176] nested_vacating hnull
  obtain ⟨enough', hcollect⟩ := collectGarbage_of_search nested_vacating nested_search
  obtain ⟨s', hs', haccounted⟩ := haccounts (max enough enough') (Nat.le_max_left _ _)
  obtain ⟨t, ht, hcopied⟩ := hcollect (max enough enough') (Nat.le_max_right _ _)
  obtain rfl : s' = t.swept := congrArg Prod.snd (Except.ok.inj (hs'.symm.trans ht))
  have hfull := (hcopied.accounted_iff nested_vacating nested_search).mp haccounted
  revert hfull
  decide +kernel

end CS24.Subpython
