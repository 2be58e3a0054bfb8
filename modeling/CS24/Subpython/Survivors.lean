import CS24.Subpython.Collector

/-!
# The heap after a collection

The values that can be reached from the globals are the only ones left. They are a heap
again, now in the other half, so that a further collection can follow; it makes the same
search.
-/

namespace CS24.Subpython
open Machine Mem Walk

variable {s t : State} {fl : List Nat} {w : Walk Int} {r u : Int}

def State.left (s : State) (w : Walk Int) : List Nat :=
  if w.order = [] ∨ s.total w.order + 24 < s.half then [s.toSpace + s.total w.order] else []

theorem lookup_map {f : Nat → Nat} (h0 : f 0 = 0) (l : List Nat) (r : Int) :
    lookup (l.map f) r = f (lookup l r) := by
  unfold lookup
  split_ifs
  · rw [List.getD_eq_getElem?_getD, List.getD_eq_getElem?_getD, List.getElem?_map]
    cases l[r.toNat]? with
    | none => exact h0.symm
    | some a => rfl
  · exact h0.symm

theorem search_searched (h : s.search = .ok w) :
    Searched s.successors s.Room s.roots w := visitAll_searched h

namespace Copied
variable (h : Copied s w t) (hs : Vacating s fl)
include h hs

theorem addr_swept (r : Int) : t.swept.addr r = if r ∈ w.order then t.addr r else 0 := by
  have hzero : ¬isPoolAddress t 0 := by
    have hpos := hs.toSpace_pos
    rw [h.isPoolAddress_iff]
    omega
  have haddr : t.swept.addr r = if isPoolAddress t (t.addr r) then t.addr r else 0 :=
    lookup_map (f := fun a => if isPoolAddress t a then a else 0) (if_neg hzero) t.refTable r
  rw [haddr]
  by_cases hr : r ∈ w.order
  · have hbounds := h.bounds hs hr
    have hfits := h.fits
    have hsize := hs.size_ge (h.live r hr)
    rw [if_pos hr, if_pos (h.isPoolAddress_iff.mpr (by omega))]
  · rw [if_neg hr]
    by_cases hlive : r ∈ s.live
    · exact if_neg (h.not_isPoolAddress hs hlive hr)
    · have h0 : s.addr r = 0 := by
        by_contra hne
        exact hlive (State.mem_live.mpr hne)
      rw [h.old_addr r hr, h0]
      exact if_neg hzero

theorem live_swept : t.swept.live = w.order.toFinset := by
  ext r
  rw [State.mem_live, h.addr_swept hs, List.mem_toFinset]
  by_cases hr : r ∈ w.order
  · rw [if_pos hr]
    have hbounds := h.bounds hs hr
    have hpos := hs.toSpace_pos
    exact ⟨fun _ => hr, fun _ => by omega⟩
  · rw [if_neg hr]
    exact ⟨fun hne => absurd rfl hne, fun hr' => absurd hr' hr⟩

theorem mem_live_swept : r ∈ t.swept.live ↔ r ∈ w.order := by
  rw [h.live_swept hs, List.mem_toFinset]

theorem addr_of_mem (hr : r ∈ w.order) : t.swept.addr r = t.addr r := by
  rw [h.addr_swept hs, if_pos hr]

theorem copy_swept (hr : r ∈ w.order) :
    CopyOf s.mem t.swept.mem (s.addr r) (t.swept.addr r) := by
  rw [h.addr_of_mem hs hr]
  exact h.copy r hr

theorem size_swept (hr : r ∈ w.order) : t.swept.size r = s.size r :=
  (h.copy_swept hs hr).valueSize_eq (hs.size_ge (h.live r hr))

theorem fields_swept (hr : r ∈ w.order) : t.swept.fields r = s.fields r :=
  (h.copy_swept hs hr).fields_eq (hs.extent_le (h.live r hr))

theorem total_swept {l : List Int} (hl : ∀ r ∈ l, r ∈ w.order) :
    t.swept.total l = s.total l := by
  unfold State.total
  congr 1
  exact List.map_congr_left fun r hr => h.size_swept hs (hl r hr)

omit hs in
theorem half_swept : t.swept.half = s.half := by
  change t.actualSize / 2 = s.actualSize / 2
  rw [h.rest]

omit hs in
theorem fromSpace_swept : t.swept.fromSpace = s.toSpace := by
  change (if t.f then t.halfwayPoint else t.pool) = _
  rw [h.rest]
  unfold State.toSpace
  cases s.f <;> rfl

omit hs in
theorem globals_swept : t.swept.globals = s.globals := by
  change t.globals = _
  rw [h.rest]

theorem free_bounds {b : Nat} (hb : b ∈ s.left w) : b = s.toSpace + s.total w.order ∧
    valueSize t.mem b = s.half - s.total w.order ∧ 24 ≤ s.half - s.total w.order := by
  have hfree := h.free
  have hheader := hs.header
  unfold State.left at hb
  split_ifs at hb hfree with hroom
  · obtain rfl := List.mem_singleton.mp hb
    refine ⟨rfl, hfree.size, ?_⟩
    rcases hroom with hnil | hlt
    · rw [hnil, State.total_nil]
      omega
    · omega
  · exact absurd hb List.not_mem_nil

omit hs in
theorem chain_left : Chain t.mem t.freeList (s.left w) := by
  have hfree := h.free
  unfold State.left
  split_ifs at hfree ⊢ with hroom
  · exact ⟨hfree.head, hfree.pos, hfree.type, hfree.next⟩
  · exact hfree

theorem vacating (hw : s.search = .ok w) : Vacating t.swept (s.left w) := by
  have hsearch := search_searched hw
  have hpos := hs.toSpace_pos
  have hend := hs.toSpace_end
  have hfits := h.fits
  have hmem := fun r => h.mem_live_swept hs (r := r)
  have hpool : t.swept.memoryPool = s.toSpace := h.memoryPool
  have hsize : t.swept.memorySize = s.half := h.memorySize
  have hreach : ∀ r ∈ w.order, ∀ x ∈ s.fields r, IsSpecial x ∨ x ∈ w.order := by
    intro r hr x hx
    by_cases hspecial : IsSpecial x
    · exact .inl hspecial
    · right
      obtain ⟨g, hg, hgr⟩ := (hsearch.mem_order r).mp hr
      apply (hsearch.mem_order x).mpr
      exact ⟨g, hg, hgr.tail (List.mem_filter.mpr ⟨hx, by simpa using hspecial⟩)⟩
  have hbounds : ∀ r ∈ w.order, s.toSpace ≤ t.swept.addr r ∧
      t.swept.addr r + t.swept.size r ≤ s.toSpace + s.total w.order := by
    intro r hr
    rw [h.addr_of_mem hs hr, h.size_swept hs hr]
    exact h.bounds hs hr
  have hin : ∀ b ∈ s.left w, InPool t.swept b := by
    intro b hb
    obtain ⟨hb, hfree, hge⟩ := h.free_bounds hs hb
    have hfree' : valueSize t.swept.mem b = s.half - s.total w.order := hfree
    unfold InPool
    omega
  constructor
  · constructor
    · omega
    · omega
    · exact fun r hr => State.table_of_live hr
    · intro r hr
      have hr' := (hmem r).mp hr
      have hge := hs.size_ge (h.live r hr')
      have hext := (h.copy_swept hs hr').extent_eq (hs.extent_le (h.live r hr'))
      have hle := hs.extent_le (h.live r hr')
      have hb := hbounds r hr'
      have hsz : valueSize t.swept.mem (t.swept.addr r) = s.size r := h.size_swept hs hr'
      have hsz' := h.size_swept hs hr'
      unfold InPool
      omega
    · exact hin
    · intro r hr u hu hne
      have hr' := (hmem r).mp hr
      have hu' := (hmem u).mp hu
      have hap := h.blocks_apart hs hr' hu' hne
      have hsz : valueSize t.swept.mem (t.swept.addr r) = s.size r := h.size_swept hs hr'
      have hsz' : valueSize t.swept.mem (t.swept.addr u) = s.size u := h.size_swept hs hu'
      rw [Apart, hsz, hsz', h.addr_of_mem hs hr', h.addr_of_mem hs hu']
      exact hap
    · intro r hr b hb
      obtain ⟨hb, -⟩ := h.free_bounds hs hb
      have hbd := hbounds r ((hmem r).mp hr)
      left
      change t.swept.addr r + t.swept.size r ≤ b
      omega
    · unfold State.left
      split_ifs
      · exact List.pairwise_singleton ..
      · exact List.Pairwise.nil
    · exact h.chain_left
    · intro r hr x hx
      have hr' := (hmem r).mp hr
      rw [h.fields_swept hs hr'] at hx
      exact (hreach r hr' x hx).imp_right (hmem x).mpr
  · change 0 < t.pool
    rw [h.rest]
    exact hs.pool_pos
  · change t.pool + t.actualSize < _
    rw [h.rest]
    exact hs.pool_end
  · rw [h.half_swept]
    change t.halfwayPoint = t.pool + _
    rw [h.rest]
    exact hs.halfway
  · rw [h.half_swept]
    exact hs.header
  · intro r hr
    have hbd := hbounds r ((hmem r).mp hr)
    rw [h.fromSpace_swept, h.half_swept]
    omega
  · intro entry hentry
    rw [h.globals_swept] at hentry
    by_cases hspecial : IsSpecial entry.2
    · exact .inl hspecial
    · right
      apply (hmem _).mpr
      apply (hsearch.mem_order _).mpr
      refine ⟨entry.2, List.mem_filter.mpr ⟨List.mem_map_of_mem hentry, ?_⟩, .refl⟩
      simpa using hspecial

theorem search_swept (hw : s.search = .ok w) : t.swept.search = .ok w := by
  have hsearch := search_searched hw
  have hvacating := h.vacating hs hw
  have hroots : t.swept.roots = s.roots := by
    unfold State.roots
    rw [h.globals_swept]
  have hcard : t.swept.live.card ≤ s.live.card := by
    apply Finset.card_le_card
    intro r hr
    exact h.live r ((h.mem_live_swept hs).mp hr)
  have hmono := visitAll_mono (search_ne_fuel hvacating) (Nat.add_le_add_right hcard 1)
  have hcongr : visitAll t.swept.successors t.swept.Room (s.live.card + 1) t.swept.roots
      Walk.empty = s.search := by
    rw [hroots]
    apply visitAll_congr (P := (· ∈ w.order))
    · intro u hu x hx
      obtain ⟨g, hg, hgu⟩ := (hsearch.mem_order u).mp hu
      exact (hsearch.mem_order x).mpr ⟨g, hg, hgu.tail hx⟩
    · intro u hu
      rw [State.successors, h.fields_swept hs hu, State.successors]
    · intro order u horder hu
      unfold State.Room
      rw [h.total_swept hs horder, h.half_swept, h.size_swept hs hu]
    · intro x hx
      exact (hsearch.mem_order x).mpr ⟨x, hx, .refl⟩
  rw [State.search, ← hmono, hcongr, hw]

end Copied

end CS24.Subpython
