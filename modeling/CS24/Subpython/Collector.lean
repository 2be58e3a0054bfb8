import CS24.Subpython.Collection

/-!
# The copying collector

`collect_garbage` is a depth-first search from the globals that copies each value when it
is reached first. It terminates, and it fails only when a value does not fit into what is
left of the to-space.
-/

namespace CS24.Subpython
open Machine Mem Walk

variable {s s' s'' : State} {fl : List Nat} {w w' base : Walk Int} {r x : Int}
  {m n size b rem width : Nat} {res : Except Failure (Walk Int)} {l : List Int}

theorem operateGlobal_special (h : IsSpecial r) : operateGlobal (n + 1) r s = .ok ((), s) :=
  congrFun (if_pos h) s

theorem operateGlobal_again (hr : ¬IsSpecial r) (hp : isPoolAddress s (s.addr r)) :
    operateGlobal (n + 1) r s = .ok ((),
      { s with mem := storeCount s.mem (s.addr r) (refCount s.mem (s.addr r) + 1) }) :=
  (congrFun (if_neg hr) s).trans (congrFun (if_pos hp) s)

theorem operateGlobal_full (hr : ¬IsSpecial r) (hp : ¬isPoolAddress s (s.addr r))
    (h0 : s.addr r ≠ 0) (hmalloc : mmMalloc n (s.size r) s = .ok (0, s')) :
    operateGlobal (n + 1) r s = .error .nullPointer := by
  apply (congrFun (if_neg hr) s).trans
  apply (congrFun (if_neg hp) s).trans
  apply (congrFun (if_neg h0) s).trans
  exact bind_of_ok hmalloc

theorem operateGlobal_store (hr : ¬IsSpecial r) (hp : ¬isPoolAddress s (s.addr r))
    (h0 : s.addr r ≠ 0) (hb : b ≠ 0)
    (hmalloc : mmMalloc n (s.size r) s = .ok (b, s.take b (s.size r) rem)) :
    operateGlobal (n + 1) r s =
      recurse n b (operateGlobal n) (s.place r b (s.size r) rem) := by
  apply (congrFun (if_neg hr) s).trans
  apply (congrFun (if_neg hp) s).trans
  apply (congrFun (if_neg h0) s).trans
  apply (bind_of_ok hmalloc).trans
  exact congrFun (if_neg hb) _

/-- The search goes on with the references `l` and ends with `res`; since `base`, which was
reached in the state `start`, it has only gone on. -/
structure Walking (s : State) (m : Nat) (res : Except Failure (Walk Int)) (base : Walk Int)
    (start : State) (l : List Int) (s' : State) (w : Walk Int) : Prop where
  copied : Copied s w s'
  result : visitAll s.successors s.Room m (l.filter fun x => ¬IsSpecial x) w = res
  valid : ∀ x ∈ l, IsSpecial x ∨ x ∈ s.live
  subset : base.order ⊆ w.order
  addr : ∀ u ∈ base.order, s'.addr u = start.addr u

/-- Fuel for the search from `w` on, when no value has more fields than `width`. -/
def Enough (s : State) (w : Walk Int) (width n : Nat) : Prop :=
  (s.live \ w.order.toFinset).card + width + 3 ≤ n

theorem Enough.mono (h : Enough s w width n) (hsub : w.order ⊆ w'.order) :
    Enough s w' width n := by
  have hle : (s.live \ w'.order.toFinset).card ≤ (s.live \ w.order.toFinset).card := by
    apply Finset.card_le_card
    apply Finset.sdiff_subset_sdiff le_rfl
    intro x hx
    exact List.mem_toFinset.mpr (hsub (List.mem_toFinset.mp hx))
  unfold Enough at h ⊢
  omega

theorem Enough.store {seen : List Int} (h : Enough s w width (n + 1)) (hr : r ∈ s.live)
    (hnew : r ∉ w.order) : Enough s ⟨w.order ++ [r], seen⟩ width n := by
  have hlt : (s.live \ (w.order ++ [r]).toFinset).card < (s.live \ w.order.toFinset).card := by
    apply Finset.card_lt_card
    apply Finset.ssubset_iff_of_subset _ |>.mpr
    · exact ⟨r, by simp [hr, hnew], by simp⟩
    · apply Finset.sdiff_subset_sdiff le_rfl
      rw [List.toFinset_append]
      exact Finset.subset_union_left
  unfold Enough at h
  change (s.live \ (w.order ++ [r]).toFinset).card + width + 3 ≤ n
  omega

/-- What `operate_global` does to a reference that is followed `m` levels deep. -/
def Follows (s : State) (width m : Nat) : Prop :=
  ∀ {r : Int} {w : Walk Int} {res : Except Failure (Walk Int)} {s' : State} {n : Nat},
    visit s.successors s.Room m r w = res → res ≠ .error .fuel → r ∈ s.live → ¬IsSpecial r →
    Copied s w s' → Enough s w width n →
    wp (operateGlobal n r) (fun e => e = .nullPointer ∧ res = .error .full)
      (fun _ s'' => ∃ w', res = .ok w' ∧ Copied s w' s'' ∧ w.order ⊆ w'.order ∧
        ∀ u ∈ w.order, s''.addr u = s'.addr u) s'

theorem Walking.step (hm : Follows s width m) (hres : res ≠ .error .fuel)
    (hn : Enough s base width n) (h : ∃ w, Walking s m res base s' (x :: l) s'' w) :
    wp (operateGlobal n x) (fun e => e = .nullPointer ∧ res = .error .full)
      (fun _ s'' => ∃ w, Walking s m res base s' l s'' w) s'' := by
  obtain ⟨w, hw⟩ := h
  have hvalid := fun y hy => hw.valid y (List.mem_cons_of_mem x hy)
  by_cases hx : IsSpecial x
  · obtain ⟨k, rfl⟩ : ∃ k, n = k + 1 := ⟨n - 1, by unfold Enough at hn; omega⟩
    apply wp_of_ok (operateGlobal_special hx)
    refine ⟨w, hw.copied, ?_, hvalid, hw.subset, hw.addr⟩
    have hresult := hw.result
    rwa [List.filter_cons_of_neg (by simpa using hx)] at hresult
  · have hlive := (hw.valid x List.mem_cons_self).resolve_left hx
    have hresult := hw.result
    rw [List.filter_cons_of_pos (by simpa using hx)] at hresult
    have hn' := hn.mono hw.subset
    cases hvisit : visit s.successors s.Room m x w with
    | error f =>
      rw [visitAll_cons_of_error hvisit] at hresult
      have hfollow := hm hvisit (hresult ▸ hres) hlive hx hw.copied hn'
      apply hfollow.mono
      · rintro a t ⟨w', hok, -⟩
        cases hok
      · rintro e ⟨he, hfull⟩
        exact ⟨he, hresult ▸ hfull⟩
    | ok u =>
      rw [visitAll_cons_of_ok hvisit] at hresult
      have hfollow := hm hvisit (fun h => by cases h) hlive hx hw.copied hn'
      apply hfollow.mono
      · rintro a t ⟨w', hok, hcopied, hsub, haddr⟩
        cases hok
        refine ⟨u, hcopied, hresult, hvalid, fun y hy => hsub (hw.subset hy), fun y hy => ?_⟩
        rw [haddr y (hw.subset hy), hw.addr y hy]
      · rintro e ⟨-, hfull⟩
        cases hfull

theorem Copied.not_isPoolAddress (h : Copied s w s') (hs : Vacating s fl) (hr : r ∈ s.live)
    (hnew : r ∉ w.order) : ¬isPoolAddress s' (s'.addr r) := by
  have hapart := hs.apart hr
  have hsize := hs.size_ge hr
  rw [h.isPoolAddress_iff, h.old_addr r hnew]
  omega

theorem Copied.size_old (h : Copied s w s') (hs : Vacating s fl) (hr : r ∈ s.live)
    (hnew : r ∉ w.order) : s'.size r = s.size r := by
  have hsize := hs.size_ge hr
  rw [State.size, h.old_addr r hnew]
  exact valueSize_congr ((h.old r hr hnew).mono (by omega) (by omega))

theorem Copied.mmMalloc_null (h : Copied s w s') (hs : Vacating s fl)
    (hroom : ¬s.Room w.order r) : ∃ t, mmMalloc (n + 2) (s.size r) s' = .ok (0, t) := by
  have hfree := h.free
  have hend := hs.toSpace_end
  have hsize := h.memorySize
  have hfits := h.fits
  split_ifs at hfree with hfront
  · have hsmall : s.half - s.total w.order < s.size r := by
      by_contra hge
      exact hroom ⟨hfront, by omega⟩
    exact Subpython.mmMalloc_null (bestFitFrom_small hfree hsmall)
      (memUsed_one hfree (by omega) (by omega))
  · exact Subpython.mmMalloc_null (bestFitFrom_end hfree) (memUsed_empty hfree)

theorem follows (hs : Vacating s fl) (hwidth : ∀ r ∈ s.live, (s.fields r).length ≤ width)
    (m : Nat) : Follows s width m := by
  induction m with
  | zero =>
    rintro r w res s' n rfl hres
    exact absurd rfl hres
  | succ m ih =>
    intro r w res s' n hvisit hres hr hspecial h hn
    obtain ⟨n, rfl⟩ : ∃ k, n = k + 3 := ⟨n - 3, by unfold Enough at hn; omega⟩
    have hends := hs.toSpace_end
    have hstart := hs.toSpace_pos
    by_cases hmem : r ∈ w.order
    · rw [visit_succ_of_mem hmem] at hvisit
      subst hvisit
      have hbounds := h.bounds hs hmem
      have hfits := h.fits
      have hsize := hs.size_ge hr
      have hpool : isPoolAddress s' (s'.addr r) := h.isPoolAddress_iff.mpr (by omega)
      exact wp_of_ok (operateGlobal_again hspecial hpool)
        ⟨_, rfl, h.again hs hmem, List.Subset.refl _, fun _ _ => rfl⟩
    · have hpool := h.not_isPoolAddress hs hr hmem
      have h0 : s'.addr r ≠ 0 := by
        rw [h.old_addr r hmem]
        exact State.mem_live.mp hr
      have hsize := h.size_old hs hr hmem
      by_cases hroom : s.Room w.order r
      · rw [visit_succ_of_room hmem hroom] at hvisit
        have hfree := h.free
        rw [if_pos hroom.1] at hfree
        have hfits := hroom.2
        have hmalloc := mmMalloc_one (n := n) hfree (show s.size r ≤ _ by omega) (by omega)
        have hstore := operateGlobal_store hspecial hpool h0 hfree.pos (hsize.symm ▸ hmalloc)
        rw [hsize] at hstore
        have hnext := h.store hs hr hmem hroom
        obtain ⟨h0', hlt⟩ := hs.heap.table r hr
        have hself : (s'.place r (s.toSpace + s.total w.order) (s.size r)
            (s.half - s.total w.order)).addr r = s.toSpace + s.total w.order :=
          State.addr_place_self h0' (h.length.symm ▸ hlt)
        have hother : ∀ u ∈ w.order, (s'.place r (s.toSpace + s.total w.order) (s.size r)
            (s.half - s.total w.order)).addr u = s'.addr u :=
          fun u hu => State.addr_place_ne h0' fun hur => hmem (hur ▸ hu)
        rw [wp, hstore]
        generalize s'.place r (s.toSpace + s.total w.order) (s.size r)
          (s.half - s.total w.order) = s₂ at hnext hself hother ⊢
        generalize s.toSpace + s.total w.order = b at hself ⊢
        have hmem₁ : r ∈ w.order ++ [r] := List.mem_append_right _ (List.mem_singleton_self r)
        have hcopy := hnext.copy r hmem₁
        rw [hself] at hcopy
        have hfields : fields s₂.mem b = s.fields r := hcopy.fields_eq (hs.extent_le hr)
        have hextent : extent s₂.mem b = extent s.mem (s.addr r) :=
          hcopy.extent_eq (hs.extent_le hr)
        have hJ : ∀ l s'', (∃ u, Walking s m res ⟨w.order ++ [r], w.seen ++ [r]⟩ s₂ l s'' u) →
            Agree s₂.mem s''.mem (b + 24) (b + extent s₂.mem b) := by
          rintro l s'' ⟨u, hu⟩ x hlo hhi
          have hcopy' := hu.copied.copy r (hu.subset hmem₁)
          rw [hu.addr r hmem₁, hself] at hcopy'
          have hle := hs.extent_le hr
          rw [hextent] at hhi
          obtain ⟨i, rfl⟩ : ∃ i, x = b + i := ⟨x - b, by omega⟩
          rw [hcopy'.rest i (by omega) (by unfold State.size at hle; omega),
            hcopy.rest i (by omega) (by unfold State.size at hle; omega)]
        have hwalk := recurse_spec (n := n + 2) (g := operateGlobal (n + 2)) hJ
          (fun x l s'' hl => Walking.step ih hres (hn.store hr hmem) hl)
          (hfields ▸ ⟨_, hnext, hvisit, hs.heap.closed r hr, List.Subset.refl _, fun _ _ => rfl⟩)
          (.inr (by
            have hle := hwidth r hr
            unfold Enough at hn
            rw [hfields]
            omega))
        apply hwalk.post
        rintro a s'' ⟨u, hu⟩
        refine ⟨u, hu.result.symm, hu.copied, fun y hy => hu.subset (List.mem_append_left _ hy),
          fun y hy => ?_⟩
        rw [hu.addr y (List.mem_append_left _ hy), hother y hy]
      · rw [visit_succ_of_full hmem hroom] at hvisit
        subst hvisit
        obtain ⟨t, ht⟩ := h.mmMalloc_null (n := n) hs hroom
        rw [wp, operateGlobal_full hspecial hpool h0 (hsize.symm ▸ ht)]
        exact ⟨rfl, rfl⟩

theorem Heap.blocks_apart {L : Finset Int} {refs : Int → List Int} (h : Heap L refs fl s) :
    (L.toList.map s.addr ++ fl).Pairwise (Apart s.mem) := by
  apply List.pairwise_append.mpr
  refine ⟨List.pairwise_map.mpr ?_, h.chain_apart, ?_⟩
  · apply L.nodup_toList.imp_of_mem
    intro r u hr hu hne
    exact h.live_apart r (Finset.mem_toList.mp hr) u (Finset.mem_toList.mp hu) hne
  · intro a ha b hb
    obtain ⟨r, hr, rfl⟩ := List.mem_map.mp ha
    exact h.free_apart r (Finset.mem_toList.mp hr) b hb

theorem Heap.sum_le {L : Finset Int} {refs : Int → List Int} (h : Heap L refs fl s) :
    ∑ r ∈ L, s.size r + (fl.map (valueSize s.mem)).sum ≤ s.memorySize := by
  have hin : ∀ b ∈ L.toList.map s.addr ++ fl,
      s.memoryPool ≤ b ∧ b + valueSize s.mem b ≤ s.memoryPool + s.memorySize := by
    intro b hb
    rcases List.mem_append.mp hb with hb | hb
    · obtain ⟨r, hr, rfl⟩ := List.mem_map.mp hb
      have hlive := (h.live r (Finset.mem_toList.mp hr)).1
      exact ⟨hlive.1, hlive.2.1⟩
    · have hfree := h.free b hb
      exact ⟨hfree.1, hfree.2.1⟩
  have hsum := sum_le_of_apart h.blocks_apart hin
  rw [List.map_append, List.sum_append, List.map_map, Nat.add_sub_cancel_left] at hsum
  exact (Finset.sum_map_toList L s.size).symm ▸ hsum

theorem Heap.memUsed {L : Finset Int} {refs : Int → List Int} (h : Heap L refs fl s)
    (hn : fl.length < n) : Subpython.memUsed n s =
      .ok (s.memorySize - (fl.map (valueSize s.mem)).sum, s) := by
  have hsum := h.sum_le
  have hend := h.pool_end
  have hle : (fl.map (valueSize s.mem)).sum ≤ s.memorySize := by omega
  have hlt : s.memorySize < 2 ^ 64 := by omega
  exact memUsedFrom_chain h.chain hn hle hlt

def State.search (s : State) : Except Failure (Walk Int) :=
  visitAll s.successors s.Room (s.live.card + 1) s.roots Walk.empty

theorem search_ne_fuel (hs : Vacating s fl) : s.search ≠ .error .fuel := by
  apply visitAll_ne_fuel (L := s.live)
  · intro u hu x hx
    obtain ⟨hx, hspecial⟩ := List.mem_filter.mp hx
    exact (hs.heap.closed u hu x hx).resolve_left (by simpa using hspecial)
  · intro x hx
    obtain ⟨hx, hspecial⟩ := List.mem_filter.mp hx
    obtain ⟨entry, hentry, rfl⟩ := List.mem_map.mp hx
    exact (hs.roots entry hentry).resolve_left (by simpa using hspecial)
  · have hle : (s.live \ (Walk.empty : Walk Int).order.toFinset).card ≤ s.live.card :=
      Finset.card_le_card Finset.sdiff_subset
    omega

def State.swept (s : State) : State :=
  { s with refTable := s.refTable.map fun a => if isPoolAddress s a then a else 0 }

theorem forM_globals {globals : List (String × Int)} (hs : Vacating s fl)
    (hwidth : ∀ r ∈ s.live, (s.fields r).length ≤ width) (hres : res ≠ .error .fuel)
    (hn : Enough s Walk.empty width n)
    (h : ∃ w, Walking s m res Walk.empty s' (globals.map Prod.snd) s'' w) :
    wp (globals.forM fun entry => wrapper n entry.1 entry.2)
      (fun e => e = .nullPointer ∧ res = .error .full)
      (fun _ t => ∃ w, res = .ok w ∧ Copied s w t) s'' := by
  induction globals generalizing s'' with
  | nil =>
    obtain ⟨w, hw⟩ := h
    exact ⟨w, hw.result.symm, hw.copied⟩
  | cons entry globals ih =>
    have hstep := Walking.step (follows hs hwidth m) hres hn h
    exact hstep.bind fun _ t ht => ih ht

theorem collectGarbage_spec (hs : Vacating s fl) : ∃ enough, ∀ n ≥ enough,
    wp (collectGarbage n) (fun e => e = .nullPointer ∧ s.search = .error .full)
      (fun _ s' => ∃ w t, s.search = .ok w ∧ Copied s w t ∧ s' = t.swept) s := by
  let width := s.live.sup fun u => (s.fields u).length
  have hwidth : ∀ r ∈ s.live, (s.fields r).length ≤ width := fun r hr =>
    Finset.le_sup (f := fun u => (s.fields u).length) hr
  refine ⟨s.live.card + width + fl.length + 3, fun n hn => ?_⟩
  have hused := hs.heap.memUsed (n := n) (by omega)
  rw [collectGarbage, wp_bind_of_ok hused, wp_bind, wp_modify, wp_bind, wp_reads]
  have hinit : ∀ {Q : PUnit → State → Prop} {E : Stop → Prop},
      wp (mmInit (s.actualSize / 2) (if !s.f then s.halfwayPoint else s.pool)) E Q
        { s with f := !s.f } ↔ Q ⟨⟩ s.initialized := by
    intro Q E
    have hspace : (if !s.f then s.halfwayPoint else s.pool) = s.toSpace := by
      unfold State.toSpace
      cases s.f <;> rfl
    rw [hspace]
    rfl
  dsimp only [id]
  rw [wp_bind, hinit, foreachGlobal, wp_bind, wp_bind, wp_reads]
  have hn' : Enough s Walk.empty width n := by
    have hle : (s.live \ (Walk.empty : Walk Int).order.toFinset).card ≤ s.live.card :=
      Finset.card_le_card Finset.sdiff_subset
    unfold Enough
    omega
  have hvalid : ∀ x ∈ s.globals.map Prod.snd, IsSpecial x ∨ x ∈ s.live := by
    intro x hx
    obtain ⟨entry, hentry, rfl⟩ := List.mem_map.mp hx
    exact hs.roots entry hentry
  have hloop := forM_globals (n := n) hs hwidth (search_ne_fuel hs) hn'
    ⟨Walk.empty, .initial hs, rfl, hvalid, List.Subset.refl _, fun _ _ => rfl⟩
  apply hloop.post
  rintro a t ⟨w, hw, ht⟩
  rw [wp_modify]
  exact ⟨w, t, hw, ht, rfl⟩

theorem collectGarbage_of_search (hs : Vacating s fl) (hw : s.search = .ok w) :
    ∃ enough, ∀ n ≥ enough, ∃ t, collectGarbage n s = .ok ((), t.swept) ∧ Copied s w t := by
  obtain ⟨enough, hcollect⟩ := collectGarbage_spec hs
  refine ⟨enough, fun n hn => ?_⟩
  have hsafe : wp (collectGarbage n) (fun _ => False)
      (fun _ s' => ∃ v t, s.search = .ok v ∧ Copied s v t ∧ s' = t.swept) s := by
    apply (hcollect n hn).mono (fun _ _ hq => hq)
    rintro e ⟨-, hfull⟩
    rw [hw] at hfull
    cases hfull
  obtain ⟨⟨⟩, s', hs', v, t, hv, hcopied, rfl⟩ := hsafe.returns
  obtain rfl : w = v := Except.ok.inj (hw.symm.trans hv)
  exact ⟨t, hs', hcopied⟩

/-- No call of `mm_malloc` in the collection returns null. -/
def NoNull (s : State) : Prop := ∀ enough, ∃ n ≥ enough, collectGarbage n s ≠ .error .nullPointer

theorem NoNull.search (hs : Vacating s fl) (h : NoNull s) : ∃ w, s.search = .ok w := by
  obtain ⟨enough, hcollect⟩ := collectGarbage_spec hs
  cases hw : s.search with
  | ok w => exact ⟨w, rfl⟩
  | error f =>
    exfalso
    obtain ⟨n, hn, hne⟩ := h enough
    have hrun := hcollect n hn
    cases hresult : collectGarbage n s with
    | error e =>
      obtain ⟨rfl, -⟩ := hrun.error hresult
      exact hne hresult
    | ok p =>
      obtain ⟨w, t, hok, -⟩ := hrun.ok hresult
      rw [hw] at hok
      cases hok

theorem NoNull.of_search (hs : Vacating s fl) (hw : s.search = .ok w) : NoNull s := by
  intro enough
  obtain ⟨enough', hcollect⟩ := collectGarbage_of_search hs hw
  obtain ⟨t, ht, -⟩ := hcollect (max enough enough') (Nat.le_max_right _ _)
  refine ⟨max enough enough', Nat.le_max_left _ _, ?_⟩
  rw [ht]
  intro h
  cases h

end CS24.Subpython
