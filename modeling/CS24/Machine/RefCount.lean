import Mathlib

/-!
# Reference counts

A finite graph whose nodes list their successors, with repetitions. Counts are exact
when each is the number of occurrences of the node in these lists plus the number of
references to it from outside. A node of count zero can be taken out: the references it
held then come from outside. When the references from outside change, the garbage is
the least set of counted nodes to which no reference leads from outside of it.
-/

namespace CS24.Machine.RefCount

variable {ι : Type*} [DecidableEq ι] {L L' : Finset ι} {succ succ' : ι → List ι}
  {count count' ext ext' : ι → Nat} {r u v x : ι}

def occurrences (L : Finset ι) (succ : ι → List ι) (x : ι) : Nat := ∑ u ∈ L, (succ u).count x

def Exact (L : Finset ι) (succ : ι → List ι) (count ext : ι → Nat) : Prop :=
  ∀ x ∈ L, count x = ext x + occurrences L succ x

def plus (ext : ι → Nat) (l : List ι) : ι → Nat := fun x => ext x + l.count x

theorem plus_apply (ext : ι → Nat) (l : List ι) (x : ι) : plus ext l x = ext x + l.count x := rfl

@[simp] theorem plus_nil (ext : ι → Nat) : plus ext [] = ext := rfl

theorem plus_plus (ext : ι → Nat) (l l' : List ι) : plus (plus ext l) l' = plus ext (l ++ l') := by
  funext x
  rw [plus_apply, plus_apply, plus_apply, List.count_append]
  omega

theorem plus_perm {l l' : List ι} (h : l.Perm l') (ext : ι → Nat) : plus ext l = plus ext l' := by
  funext x
  rw [plus_apply, plus_apply, h.count_eq]

theorem occurrences_congr (h : ∀ u ∈ L, succ' u = succ u) (x : ι) :
    occurrences L succ' x = occurrences L succ x :=
  Finset.sum_congr rfl fun u hu => by rw [h u hu]

theorem occurrences_erase (hr : r ∈ L) (x : ι) :
    occurrences L succ x = (succ r).count x + occurrences (L.erase r) succ x :=
  (Finset.add_sum_erase L (fun u => (succ u).count x) hr).symm

theorem occurrences_insert (hr : r ∉ L) (x : ι) :
    occurrences (insert r L) succ x = (succ r).count x + occurrences L succ x :=
  Finset.sum_insert hr

theorem occurrences_eq_zero : occurrences L succ x = 0 ↔ ∀ u ∈ L, x ∉ succ u := by
  simp [occurrences, Finset.sum_eq_zero_iff, List.count_eq_zero]

theorem occurrences_update (hr : r ∈ L) (h : ∀ u ∈ L, u ≠ r → succ' u = succ u) (x : ι) :
    occurrences L succ' x + (succ r).count x = occurrences L succ x + (succ' r).count x := by
  have hrest : occurrences (L.erase r) succ' x = occurrences (L.erase r) succ x :=
    occurrences_congr (fun u hu => h u (Finset.mem_of_mem_erase hu) (Finset.ne_of_mem_erase hu)) x
  rw [occurrences_erase hr, occurrences_erase hr, hrest]
  omega

theorem Exact.congr (h : Exact L succ count ext) (hs : ∀ u ∈ L, succ' u = succ u)
    (hc : ∀ u ∈ L, count' u = count u) (he : ∀ u ∈ L, ext' u = ext u) :
    Exact L succ' count' ext' := by
  intro x hx
  rw [hc x hx, he x hx, occurrences_congr hs, h x hx]

theorem Exact.decrement (h : Exact L succ count (plus ext [r]))
    (hc : ∀ u ∈ L, count' u = if u = r then count r - 1 else count u) :
    Exact L succ count' ext := by
  intro x hx
  have hx' := h x hx
  rw [plus_apply] at hx'
  rw [hc x hx]
  by_cases hxr : x = r
  · subst hxr
    rw [if_pos rfl, hx', List.count_singleton_self]
    omega
  · rw [if_neg hxr, hx', List.count_eq_zero_of_not_mem (by simpa using hxr), Nat.add_zero]

theorem Exact.increment (h : Exact L succ count ext)
    (hc : ∀ u ∈ L, count' u = if u = r then count r + 1 else count u) :
    Exact L succ count' (plus ext [r]) := by
  intro x hx
  have hx' := h x hx
  rw [hc x hx, plus_apply]
  by_cases hxr : x = r
  · subst hxr
    rw [if_pos rfl, hx', List.count_singleton_self]
    omega
  · rw [if_neg hxr, hx', List.count_eq_zero_of_not_mem (by simpa using hxr), Nat.add_zero]

theorem Exact.exchange {l : List ι} (h : Exact L succ count ext) (hr : r ∈ L)
    (hc : ∀ x ∈ L, ext x + (succ r).count x = ext' x + l.count x) :
    Exact L (Function.update succ r l) count ext' := by
  intro x hx
  have hupdate : occurrences L (Function.update succ r l) x + (succ r).count x =
      occurrences L succ x + (Function.update succ r l r).count x :=
    occurrences_update hr (fun u _ hne => Function.update_of_ne hne l succ) x
  rw [Function.update_self] at hupdate
  have hx' := h x hx
  have hcx := hc x hx
  omega

theorem Exact.count_pos {l : List ι} (h : Exact L succ count (plus ext l)) (hr : r ∈ L)
    (hl : r ∈ l) : 0 < count r := by
  have hpos := List.count_pos_iff.mpr hl
  rw [h r hr, plus_apply]
  omega

theorem Exact.last (h : Exact L succ count (plus ext [r])) (hr : r ∈ L) (h1 : count r = 1) :
    ext r = 0 ∧ ∀ u ∈ L, r ∉ succ u := by
  have hx := h r hr
  rw [plus_apply, List.count_singleton_self] at hx
  exact ⟨by omega, occurrences_eq_zero.mp (by omega)⟩

theorem Exact.remove (h : Exact L succ count ext) (hr : r ∈ L) :
    Exact (L.erase r) succ count (plus ext (succ r)) := by
  intro x hx
  rw [h x (Finset.mem_of_mem_erase hx), occurrences_erase hr, plus_apply]
  omega

theorem Exact.insert (h : Exact L succ count (plus ext (succ r))) (hr : r ∉ L)
    (h0 : count r = ext r + (succ r).count r + occurrences L succ r) :
    Exact (insert r L) succ count ext := by
  intro x hx
  rw [occurrences_insert hr]
  rcases Finset.mem_insert.mp hx with rfl | hx
  · omega
  · rw [h x hx, plus_apply]
    omega

inductive Garbage (L : Finset ι) (succ : ι → List ι) (count ext : ι → Nat) : ι → Prop where
  | intro {v : ι} : v ∈ L → 0 < count v → ext v = 0 →
      (∀ u ∈ L, v ∈ succ u → Garbage L succ count ext u) → Garbage L succ count ext v

omit [DecidableEq ι] in
theorem Garbage.mem (h : Garbage L succ count ext v) : v ∈ L := by
  cases h with
  | intro hv _ _ _ => exact hv

omit [DecidableEq ι] in
theorem Garbage.ext_eq_zero (h : Garbage L succ count ext v) : ext v = 0 := by
  cases h with
  | intro _ _ hext _ => exact hext

theorem Garbage.of_subset (h : Garbage L' succ count' ext' v) (hL : L' ⊆ L)
    (hgone : ∀ u ∈ L, u ∉ L' → Garbage L succ count ext u) (hc : ∀ u ∈ L', count' u ≤ count u)
    (he : ∀ u, ext' u = 0 → ext u = 0) : Garbage L succ count ext v := by
  induction h with
  | intro hv hcount hext _ ih =>
    refine .intro (hL hv) (hcount.trans_le (hc _ hv)) (he _ hext) fun u hu hmem => ?_
    by_cases hu' : u ∈ L'
    · exact ih u hu' hmem
    · exact hgone u hu hu'

theorem Garbage.not_mem (h : Garbage L succ count ext v) (hL : L' ⊆ L)
    (hexact : Exact L' succ count' ext) (hpos : ∀ u ∈ L', 0 < count u → 0 < count' u) :
    v ∉ L' := by
  induction h with
  | @intro v _ hcount hext _ ih =>
    intro hv
    have hpos' := hpos v hv hcount
    have hoccur : occurrences L' succ v = 0 :=
      occurrences_eq_zero.mpr fun u hu hmem => ih u (hL hu) hmem hu
    rw [hexact v hv, hext, hoccur] at hpos'
    omega

/-- The sets of nodes with `r`, if the count of `r` drops to zero, and with each node that is
referred to, if all references to it come from the set. -/
def Closed (L : Finset ι) (succ : ι → List ι) (count ext : ι → Nat) (r : ι) (S : Set ι) : Prop :=
  (count r = 1 → r ∈ S) ∧
    ∀ v ∈ L, 0 < occurrences L succ v → ext v = 0 → (∀ u ∈ L, v ∈ succ u → u ∈ S) → v ∈ S

theorem isLeast_garbage (h : Exact L succ count (plus ext [r])) (hr : r ∈ L) :
    IsLeast {S | Closed L succ count ext r S} {v | Garbage L succ count ext v} := by
  constructor
  · constructor
    · intro h1
      obtain ⟨hext, hunref⟩ := h.last hr h1
      exact .intro hr (by omega) hext fun u hu hmem => absurd hmem (hunref u hu)
    · intro v hv hocc hext hall
      have hcount := h v hv
      exact .intro hv (by omega) hext hall
  · intro S hS v hv
    induction hv with
    | @intro v hv hpos hext hall ih =>
      by_cases hocc : 0 < occurrences L succ v
      · exact hS.2 v hv hocc hext ih
      · -- only the reference from outside is counted
        have hcount := h v hv
        rw [plus_apply, hext] at hcount
        have hvr : v = r := by
          by_contra hne
          rw [List.count_eq_zero_of_not_mem (by simpa using hne)] at hcount
          omega
        subst hvr
        rw [List.count_singleton_self] at hcount
        exact hS.1 (by omega)

end CS24.Machine.RefCount
