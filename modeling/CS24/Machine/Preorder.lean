import Mathlib

/-!
# Depth-first search with a place for each node

A search from some roots of a graph stores each node when it arrives there first, as long as
there is room for it, and then goes on with the successors of the node. It keeps the nodes
in the order in which they were stored and all arrivals. The search ends; the nodes stored
are those that can be reached, and at each of them it arrives once for each root and for
each occurrence in a list of successors.
-/

namespace CS24.Machine

structure Walk (ι : Type*) where
  order : List ι
  seen : List ι
  deriving DecidableEq

inductive Walk.Failure where
  | fuel
  | full
  deriving DecidableEq

namespace Walk

variable {ι : Type*} (succ : ι → List ι) (room : List ι → ι → Prop)

def empty : Walk ι := ⟨[], []⟩

def Reaches (r x : ι) : Prop := Relation.ReflTransGen (fun u v => v ∈ succ u) r x

/-- From `w` to `w'` the search arrived at the nodes `l` from outside. -/
structure Visited (w : Walk ι) (l : List ι) (w' : Walk ι) (new : List ι) : Prop where
  order : w'.order = w.order ++ new
  seen : w'.seen.Perm (w.seen ++ l ++ new.flatMap succ)
  nodup : w.order.Nodup → w'.order.Nodup
  stored : w.seen ⊆ w.order → w'.seen ⊆ w'.order
  reached : ∀ x ∈ new, ∃ r ∈ l, Reaches succ r x
  room : ∀ before x after, new = before ++ x :: after → room (w.order ++ before) x

section
variable {succ room} {w w' w'' : Walk ι} {l l' new new' : List ι} {r x : ι}

theorem Visited.refl (w : Walk ι) : Visited succ room w [] w [] where
  order := (List.append_nil _).symm
  seen := by simp
  nodup := id
  stored := id
  reached := by simp
  room := by simp

theorem Visited.trans (h : Visited succ room w l w' new)
    (h' : Visited succ room w' l' w'' new') :
    Visited succ room w (l ++ l') w'' (new ++ new') where
  order := by rw [h'.order, h.order, List.append_assoc]
  seen := by
    apply h'.seen.trans
    rw [List.flatMap_append]
    have hleft := (h.seen.append_right l').append_right (new'.flatMap succ)
    apply hleft.trans
    simp only [List.append_assoc]
    apply List.Perm.append_left
    apply List.Perm.append_left
    rw [← List.append_assoc, ← List.append_assoc]
    exact List.perm_append_comm.append_right _
  nodup hw := h'.nodup (h.nodup hw)
  stored hw := h'.stored (h.stored hw)
  reached x hx := by
    rcases List.mem_append.mp hx with hx | hx
    · obtain ⟨r, hr, hreach⟩ := h.reached x hx
      exact ⟨r, List.mem_append_left _ hr, hreach⟩
    · obtain ⟨r, hr, hreach⟩ := h'.reached x hx
      exact ⟨r, List.mem_append_right _ hr, hreach⟩
  room before x after hsplit := by
    rcases List.append_eq_append_iff.mp hsplit with ⟨mid, hbefore, hnew'⟩ | ⟨mid, hnew, hmid⟩
    · have hroom := h'.room mid x after hnew'
      rwa [h.order, List.append_assoc, ← hbefore] at hroom
    · cases mid with
      | nil =>
        have hroom := h'.room [] x after hmid.symm
        rwa [h.order, List.append_nil, hnew, List.append_nil] at hroom
      | cons y mid =>
        obtain ⟨rfl, hafter⟩ := List.cons.inj hmid
        exact h.room before x mid hnew

theorem Visited.again (h : r ∈ w.order) :
    Visited succ room w [r] ⟨w.order, w.seen ++ [r]⟩ [] where
  order := (List.append_nil _).symm
  seen := by simp
  nodup := id
  stored hw := List.append_subset.mpr ⟨hw, by simpa using h⟩
  reached := by simp
  room := by simp

theorem Visited.store (h : r ∉ w.order) (hroom : room w.order r)
    (hrest : Visited succ room ⟨w.order ++ [r], w.seen ++ [r]⟩ (succ r) w' new) :
    Visited succ room w [r] w' (r :: new) where
  order := by rw [hrest.order, List.append_assoc, List.singleton_append]
  seen := by
    rw [List.flatMap_cons, ← List.append_assoc]
    exact hrest.seen
  nodup hw := hrest.nodup (List.nodup_append.mpr
    ⟨hw, List.nodup_singleton r, fun x hx y hy => by
      rintro rfl
      exact h (List.mem_singleton.mp hy ▸ hx)⟩)
  stored hw := hrest.stored (List.append_subset.mpr
    ⟨List.Subset.trans hw (List.subset_append_left ..), List.subset_append_right ..⟩)
  reached x hx := by
    refine ⟨r, List.mem_singleton_self r, ?_⟩
    rcases List.mem_cons.mp hx with rfl | hx
    · exact .refl
    · obtain ⟨y, hy, hreach⟩ := hrest.reached x hx
      exact .head hy hreach
  room before x after hsplit := by
    cases before with
    | nil =>
      obtain ⟨rfl, -⟩ := List.cons.inj hsplit
      rwa [List.append_nil]
    | cons y before =>
      obtain ⟨rfl, hnew⟩ := List.cons.inj hsplit
      have hnext := hrest.room before x after hnew
      rwa [List.append_assoc, List.singleton_append] at hnext

end

variable [DecidableEq ι]

theorem Visited.card_le {succ : ι → List ι} {room : List ι → ι → Prop} {w w' : Walk ι}
    {l new : List ι} {L : Finset ι} (h : Visited succ room w l w' new) :
    (L \ w'.order.toFinset).card ≤ (L \ w.order.toFinset).card := by
  apply Finset.card_le_card
  apply Finset.sdiff_subset_sdiff le_rfl
  rw [h.order, List.toFinset_append]
  exact Finset.subset_union_left

variable [∀ order r, Decidable (room order r)]

def visit : Nat → ι → Walk ι → Except Failure (Walk ι)
  | 0, _, _ => .error .fuel
  | n + 1, r, w =>
    if r ∈ w.order then .ok ⟨w.order, w.seen ++ [r]⟩
    else if room w.order r then
      (succ r).foldlM (fun w x => visit n x w) ⟨w.order ++ [r], w.seen ++ [r]⟩
    else .error .full

def visitAll (n : Nat) (l : List ι) (w : Walk ι) : Except Failure (Walk ι) :=
  l.foldlM (fun w x => visit succ room n x w) w

section
variable {succ room} {w w' : Walk ι} {l new : List ι} {r x : ι} {n : Nat} {f : Failure}

theorem visit_succ_of_mem (h : r ∈ w.order) :
    visit succ room (n + 1) r w = .ok ⟨w.order, w.seen ++ [r]⟩ := if_pos h

theorem visit_succ_of_room (h : r ∉ w.order) (hroom : room w.order r) :
    visit succ room (n + 1) r w =
      visitAll succ room n (succ r) ⟨w.order ++ [r], w.seen ++ [r]⟩ := by
  rw [visit, if_neg h, if_pos hroom]
  rfl

theorem visit_succ_of_full (h : r ∉ w.order) (hroom : ¬room w.order r) :
    visit succ room (n + 1) r w = .error .full := by
  rw [visit, if_neg h, if_neg hroom]

theorem visitAll_cons : visitAll succ room n (x :: l) w =
    visit succ room n x w >>= visitAll succ room n l := List.foldlM_cons ..

theorem visitAll_cons_of_ok (h : visit succ room n x w = .ok w') :
    visitAll succ room n (x :: l) w = visitAll succ room n l w' := by
  rw [visitAll_cons, h]
  rfl

theorem visitAll_cons_of_error (h : visit succ room n x w = .error f) :
    visitAll succ room n (x :: l) w = .error f := by
  rw [visitAll_cons, h]
  rfl

theorem visitAll_visited_of (hvisit : ∀ x w w', visit succ room n x w = .ok w' →
      ∃ new, Visited succ room w [x] w' new) (h : visitAll succ room n l w = .ok w') :
    ∃ new, Visited succ room w l w' new := by
  induction l generalizing w with
  | nil =>
    cases h
    exact ⟨[], .refl _⟩
  | cons x l ih =>
    cases hx : visit succ room n x w with
    | error f =>
      rw [visitAll_cons_of_error hx] at h
      cases h
    | ok u =>
      rw [visitAll_cons_of_ok hx] at h
      obtain ⟨new, hnew⟩ := hvisit x w u hx
      obtain ⟨new', hnew'⟩ := ih h
      exact ⟨new ++ new', hnew.trans hnew'⟩

theorem visit_visited (h : visit succ room n r w = .ok w') :
    ∃ new, Visited succ room w [r] w' new := by
  induction n generalizing r w w' with
  | zero => cases h
  | succ n ih =>
    by_cases hr : r ∈ w.order
    · rw [visit_succ_of_mem hr] at h
      cases h
      exact ⟨[], .again hr⟩
    · by_cases hroom : room w.order r
      · rw [visit_succ_of_room hr hroom] at h
        obtain ⟨new, hnew⟩ := visitAll_visited_of (fun x w w' hx => ih hx) h
        exact ⟨r :: new, hnew.store hr hroom⟩
      · rw [visit_succ_of_full hr hroom] at h
        cases h

theorem visitAll_visited (h : visitAll succ room n l w = .ok w') :
    ∃ new, Visited succ room w l w' new := visitAll_visited_of (fun _ _ _ => visit_visited) h

variable {L : Finset ι}

theorem visitAll_ne_fuel_of (hvisit : ∀ x ∈ L, ∀ w : Walk ι,
      (L \ w.order.toFinset).card < n → visit succ room n x w ≠ .error .fuel)
    (hl : ∀ x ∈ l, x ∈ L) (hn : (L \ w.order.toFinset).card < n) :
    visitAll succ room n l w ≠ .error .fuel := by
  induction l generalizing w with
  | nil =>
    intro h
    cases h
  | cons x l ih =>
    have hx := hvisit x (hl x List.mem_cons_self) w hn
    cases hw : visit succ room n x w with
    | error f =>
      rw [visitAll_cons_of_error hw, ← hw]
      exact hx
    | ok u =>
      obtain ⟨new, hnew⟩ := visit_visited hw
      rw [visitAll_cons_of_ok hw]
      exact ih (fun y hy => hl y (List.mem_cons_of_mem x hy)) (hnew.card_le.trans_lt hn)

theorem visit_ne_fuel (hL : ∀ u ∈ L, ∀ x ∈ succ u, x ∈ L) (hr : r ∈ L)
    (hn : (L \ w.order.toFinset).card < n) : visit succ room n r w ≠ .error .fuel := by
  induction n generalizing r w with
  | zero => omega
  | succ n ih =>
    by_cases hmem : r ∈ w.order
    · rw [visit_succ_of_mem hmem]
      intro h
      cases h
    · by_cases hroom : room w.order r
      · rw [visit_succ_of_room hmem hroom]
        apply visitAll_ne_fuel_of (fun x hx w hw => ih hx hw) (hL r hr)
        have hlt : (L \ (w.order ++ [r]).toFinset).card < (L \ w.order.toFinset).card := by
          apply Finset.card_lt_card
          apply Finset.ssubset_iff_of_subset _ |>.mpr
          · refine ⟨r, ?_, ?_⟩
            · simp [hr, hmem]
            · simp
          · apply Finset.sdiff_subset_sdiff le_rfl
            rw [List.toFinset_append]
            exact Finset.subset_union_left
        exact Nat.lt_of_lt_of_le hlt (Nat.le_of_lt_succ hn)
      · rw [visit_succ_of_full hmem hroom]
        intro h
        cases h

theorem visitAll_ne_fuel (hL : ∀ u ∈ L, ∀ x ∈ succ u, x ∈ L) (hl : ∀ x ∈ l, x ∈ L)
    (hn : (L \ w.order.toFinset).card < n) : visitAll succ room n l w ≠ .error .fuel :=
  visitAll_ne_fuel_of (fun _ hx _ hw => visit_ne_fuel hL hx hw) hl hn

theorem visitAll_mono_of (hvisit : ∀ x w, visit succ room n x w ≠ .error .fuel →
      visit succ room (n + 1) x w = visit succ room n x w)
    (h : visitAll succ room n l w ≠ .error .fuel) :
    visitAll succ room (n + 1) l w = visitAll succ room n l w := by
  induction l generalizing w with
  | nil => rfl
  | cons x l ih =>
    have hx := hvisit x w
    cases hw : visit succ room n x w with
    | error f =>
      rw [visitAll_cons_of_error hw] at h ⊢
      rw [hw] at hx
      exact visitAll_cons_of_error (hx h)
    | ok u =>
      rw [visitAll_cons_of_ok hw] at h ⊢
      rw [hw] at hx
      have hnext := hx fun hfuel => by cases hfuel
      rw [visitAll_cons_of_ok hnext, ih h]

theorem visit_mono_succ (h : visit succ room n r w ≠ .error .fuel) :
    visit succ room (n + 1) r w = visit succ room n r w := by
  induction n generalizing r w with
  | zero => exact absurd rfl h
  | succ n ih =>
    by_cases hr : r ∈ w.order
    · rw [visit_succ_of_mem hr, visit_succ_of_mem hr]
    · by_cases hroom : room w.order r
      · rw [visit_succ_of_room hr hroom] at h ⊢
        rw [visit_succ_of_room hr hroom]
        exact visitAll_mono_of (fun x w hx => ih hx) h
      · rw [visit_succ_of_full hr hroom, visit_succ_of_full hr hroom]

theorem visitAll_mono {m : Nat} (h : visitAll succ room n l w ≠ .error .fuel) (hm : n ≤ m) :
    visitAll succ room m l w = visitAll succ room n l w := by
  induction hm with
  | refl => rfl
  | step _ ih =>
    rw [← ih] at h ⊢
    exact visitAll_mono_of (fun _ _ hx => visit_mono_succ hx) h

section
variable {succ' : ι → List ι} {room' : List ι → ι → Prop}
  [∀ order r, Decidable (room' order r)] {P : ι → Prop}

theorem visitAll_congr_of (hvisit : ∀ x w, P x → (∀ u ∈ w.order, P u) →
      visit succ' room' n x w = visit succ room n x w ∧
        ∀ w', visit succ room n x w = .ok w' → ∀ u ∈ w'.order, P u)
    (hl : ∀ x ∈ l, P x) (hw : ∀ u ∈ w.order, P u) :
    visitAll succ' room' n l w = visitAll succ room n l w ∧
      ∀ w', visitAll succ room n l w = .ok w' → ∀ u ∈ w'.order, P u := by
  induction l generalizing w with
  | nil =>
    refine ⟨rfl, fun w' h => ?_⟩
    cases h
    exact hw
  | cons x l ih =>
    obtain ⟨heq, hkeep⟩ := hvisit x w (hl x List.mem_cons_self) hw
    cases hx : visit succ room n x w with
    | error f =>
      rw [hx] at heq
      rw [visitAll_cons_of_error hx, visitAll_cons_of_error heq]
      exact ⟨rfl, fun w' h => by cases h⟩
    | ok u =>
      rw [hx] at heq
      rw [visitAll_cons_of_ok hx, visitAll_cons_of_ok heq]
      exact ih (fun y hy => hl y (List.mem_cons_of_mem x hy)) (hkeep u hx)

theorem visit_congr (hP : ∀ u, P u → ∀ x ∈ succ u, P x) (hsucc : ∀ u, P u → succ' u = succ u)
    (hroom : ∀ order u, (∀ v ∈ order, P v) → P u → (room' order u ↔ room order u))
    (hr : P r) (hw : ∀ u ∈ w.order, P u) :
    visit succ' room' n r w = visit succ room n r w ∧
      ∀ w', visit succ room n r w = .ok w' → ∀ u ∈ w'.order, P u := by
  induction n generalizing r w with
  | zero => exact ⟨rfl, fun w' h => by cases h⟩
  | succ n ih =>
    have hiff := hroom w.order r hw hr
    by_cases hmem : r ∈ w.order
    · rw [visit_succ_of_mem hmem, visit_succ_of_mem hmem]
      refine ⟨rfl, fun w' h => ?_⟩
      cases h
      exact hw
    · by_cases hfits : room w.order r
      · rw [visit_succ_of_room hmem hfits, visit_succ_of_room hmem (hiff.mpr hfits), hsucc r hr]
        apply visitAll_congr_of (fun x w hx hw => ih hx hw) (hP r hr)
        intro u hu
        rcases List.mem_append.mp hu with hu | hu
        · exact hw u hu
        · exact List.mem_singleton.mp hu ▸ hr
      · rw [visit_succ_of_full hmem hfits, visit_succ_of_full hmem fun h => hfits (hiff.mp h)]
        exact ⟨rfl, fun w' h => by cases h⟩

theorem visitAll_congr (hP : ∀ u, P u → ∀ x ∈ succ u, P x)
    (hsucc : ∀ u, P u → succ' u = succ u)
    (hroom : ∀ order u, (∀ v ∈ order, P v) → P u → (room' order u ↔ room order u))
    (hl : ∀ x ∈ l, P x) :
    visitAll succ' room' n l empty = visitAll succ room n l empty :=
  (visitAll_congr_of (fun _ _ hx hw => visit_congr hP hsucc hroom hx hw) hl
    fun _ hu => absurd hu List.not_mem_nil).1

end

structure Searched (succ : ι → List ι) (room : List ι → ι → Prop) (roots : List ι)
    (w : Walk ι) : Prop where
  nodup : w.order.Nodup
  seen : w.seen.Perm (roots ++ w.order.flatMap succ)
  mem_order : ∀ x, x ∈ w.order ↔ ∃ r ∈ roots, Reaches succ r x
  room : ∀ before x after, w.order = before ++ x :: after → room before x

theorem visitAll_searched (h : visitAll succ room n l empty = .ok w) :
    Searched succ room l w := by
  obtain ⟨new, hnew⟩ := visitAll_visited h
  have horder : w.order = new := hnew.order
  subst horder
  have hseen : w.seen.Perm (l ++ w.order.flatMap succ) := hnew.seen
  have hstored : ∀ x ∈ l ++ w.order.flatMap succ, x ∈ w.order := fun x hx =>
    hnew.stored (List.nil_subset _) (hseen.mem_iff.mpr hx)
  refine ⟨hnew.nodup List.nodup_nil, hseen, fun x => ⟨hnew.reached x, ?_⟩, hnew.room⟩
  rintro ⟨r, hr, hreach⟩
  induction hreach with
  | refl => exact hstored r (List.mem_append_left _ hr)
  | @tail u v _ hv hu =>
    exact hstored v (List.mem_append_right _ (List.mem_flatMap.mpr ⟨u, hu, hv⟩))

end

end Walk

end CS24.Machine
