import CS24.Subpython.Accounting

/-!
# What a collection preserves

Every value that can be reached from the globals is found under its old reference, with the
same type, size and contents, and its count is the number of references to it from globals
and from the values that are left. All other references are gone.
-/

namespace CS24.Subpython
open Machine Mem RefCount Walk

variable {s t : State} {fl : List Nat} {w : Walk Int} {r : Int} {n : Nat}

/-- The heap of `s'` is the part of the heap of `s` that can be reached from the globals. -/
structure Preserved (s s' : State) : Prop where
  survives : ∀ r ∈ s.reachable, deref r s' = .ok (s'.addr r, s') ∧
    s.toSpace ≤ s'.addr r ∧ s'.addr r + s'.size r ≤ s.toSpace + s.half
  type : ∀ r ∈ s.reachable, typeOf s'.mem (s'.addr r) = typeOf s.mem (s.addr r)
  size : ∀ r ∈ s.reachable, s'.size r = s.size r
  payload : ∀ r ∈ s.reachable, ∀ i, 24 ≤ i → i < s.size r →
    s'.mem (s'.addr r + i) = s.mem (s.addr r + i)
  count : ∀ r ∈ s.reachable,
    s'.count r = (s.globals.map Prod.snd).count r + occurrences s.reachable s.fields r
  others : ∀ r, r ∉ s.reachable → s'.addr r = 0
  apart : ∀ r ∈ s.reachable, ∀ u ∈ s.reachable, r ≠ u →
    Apart s'.mem (s'.addr r) (s'.addr u)

theorem not_isSpecial_of_live (hr : r ∈ s.live) : ¬IsSpecial r := by
  have h0 := (State.table_of_live hr).1
  unfold IsSpecial nullRef tombstoneRef
  omega

theorem length_fields_le (m : Mem) (v : Nat) : 4 * (fields m v).length ≤ extent m v := by
  unfold fields extent
  split
  · simp
  · simp
  · rw [List.length_map, List.length_range]
    omega
  · simp

theorem count_filter_special {l : List Int} (hr : ¬IsSpecial r) :
    (l.filter fun x => ¬IsSpecial x).count r = l.count r :=
  List.count_filter (by simpa using hr)

namespace Copied
variable (h : Copied s w t) (hs : Vacating s fl)
include h

theorem count_seen (hw : s.search = .ok w) (hr : r ∈ w.order) : w.seen.count r =
    (s.globals.map Prod.snd).count r + occurrences w.order.toFinset s.fields r := by
  have hspecial := not_isSpecial_of_live (h.live r hr)
  rw [(search_searched hw).seen.count_eq, List.count_append, List.count_flatMap, State.roots,
    count_filter_special hspecial, occurrences, List.sum_toFinset _ h.nodup]
  congr 2
  apply List.map_congr_left
  intro u _
  exact count_filter_special hspecial

include hs

theorem occurrences_le : 4 * occurrences w.order.toFinset s.fields r ≤ s.half := by
  have hsum : 4 * occurrences w.order.toFinset s.fields r ≤ s.total w.order := by
    rw [occurrences, State.total, ← List.sum_toFinset _ h.nodup, Finset.mul_sum]
    apply Finset.sum_le_sum
    intro u hu
    have hlive := h.live u (List.mem_toFinset.mp hu)
    have hcount : (s.fields u).count r ≤ (s.fields u).length := List.count_le_length
    have hlength : 4 * (s.fields u).length ≤ extent s.mem (s.addr u) := length_fields_le _ _
    have hextent := hs.extent_le hlive
    omega
  exact hsum.trans h.fits

theorem preserved (hw : s.search = .ok w) (hvars : s.globals.length < 2 ^ 60) :
    Preserved s t.swept := by
  have hheap := (h.vacating hs hw).heap
  have hmem : ∀ r, r ∈ s.reachable ↔ r ∈ w.order := fun r => by
    rw [h.reachable_eq hw, List.mem_toFinset]
  have hlive : ∀ r, r ∈ s.reachable → r ∈ t.swept.live := fun r hr =>
    (h.mem_live_swept hs).mpr ((hmem r).mp hr)
  constructor
  · intro r hr
    have hr' := (hmem r).mp hr
    have hbounds := h.bounds hs hr'
    have hfits := h.fits
    refine ⟨deref_eq hheap (hlive r hr), ?_⟩
    rw [h.addr_of_mem hs hr', h.size_swept hs hr']
    omega
  · exact fun r hr => (h.copy_swept hs ((hmem r).mp hr)).typeOf_eq
  · exact fun r hr => h.size_swept hs ((hmem r).mp hr)
  · exact fun r hr i hlo hhi => (h.copy_swept hs ((hmem r).mp hr)).rest i (by omega) hhi
  · intro r hr
    have hr' := (hmem r).mp hr
    have hcount : t.swept.count r = w.seen.count r % 2 ^ 64 := by
      rw [State.count, h.addr_of_mem hs hr']
      exact h.count r hr'
    have hglobals : (s.globals.map Prod.snd).count r ≤ (s.globals.map Prod.snd).length :=
      List.count_le_length
    have hoccurrences := h.occurrences_le hs (r := r)
    have hend := hs.toSpace_end
    rw [List.length_map] at hglobals
    rw [hcount, h.count_seen hw hr', h.reachable_eq hw, Nat.mod_eq_of_lt (by omega)]
  · intro r hr
    rw [h.addr_swept hs, if_neg fun hr' => hr ((hmem r).mpr hr')]
  · exact fun r hr u hu hne => hheap.live_apart r (hlive r hr) u (hlive u hu) hne

end Copied

/-- The collector keeps what can be reached. The array of globals has entries of 16 bytes. -/
theorem collectGarbage_preserves (hs : Vacating s fl) (hvars : s.globals.length < 2 ^ 60)
    (hnull : NoNull s) :
    ∃ enough, ∀ n ≥ enough, ∃ s', collectGarbage n s = .ok ((), s') ∧ Preserved s s' := by
  obtain ⟨w, hw⟩ := hnull.search hs
  obtain ⟨enough, hcollect⟩ := collectGarbage_of_search hs hw
  refine ⟨enough, fun n hn => ?_⟩
  obtain ⟨t, ht, hcopied⟩ := hcollect n hn
  exact ⟨_, ht, hcopied.preserved hs hw hvars⟩

theorem collectGarbage_preserves_nested : ∃ enough, ∀ n ≥ enough, ∃ s',
    collectGarbage n nested = .ok ((), s') ∧ Preserved nested s' :=
  collectGarbage_preserves nested_vacating (by decide)
    (.of_search nested_vacating nested_search)

end CS24.Subpython
