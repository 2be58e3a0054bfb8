import Mathlib

/-!
# Linked lists in memory

Nodes are found by their addresses, and 0 is the null pointer. A chain follows one link
from node to node to the end; a segment of a doubly linked list has links both ways. Each
is about the nodes it names only, so it survives changes elsewhere.
-/

namespace CS24.Machine.Linked

/-- The nodes from `a` to the end of a singly linked list. -/
def Chain (next : Nat → Option Nat) : Nat → List Nat → Prop
  | a, [] => a = 0
  | a, p :: l => a = p ∧ p ≠ 0 ∧ ∃ b, next p = some b ∧ Chain next b l

/-- Nodes in a row of a doubly linked list, between the nodes `before` and `after`. -/
def Segment (prev next : Nat → Option Nat) : Nat → List Nat → Nat → Prop
  | _, [], _ => True
  | before, p :: l, after =>
    p ≠ 0 ∧ prev p = some before ∧ next p = some (l.headD after) ∧ Segment prev next p l after

variable {prev prev' next next' : Nat → Option Nat} {a b p q before after : Nat}
  {l l' xs ys : List Nat}

theorem Chain.congr (h : Chain next a l) (hn : ∀ q ∈ l, next' q = next q) : Chain next' a l := by
  induction l generalizing a with
  | nil => exact h
  | cons p l ih =>
    obtain ⟨rfl, h0, b, hb, hrest⟩ := h
    exact ⟨rfl, h0, b, (hn a (by simp)).trans hb, ih hrest fun q hq => hn q (by simp [hq])⟩

theorem Chain.mem_some (h : Chain next a l) (hq : q ∈ l) : q ≠ 0 ∧ ∃ b, next q = some b := by
  induction l generalizing a with
  | nil => simp at hq
  | cons p l ih =>
    obtain ⟨rfl, h0, b, hb, hrest⟩ := h
    rcases List.mem_cons.mp hq with rfl | hq
    · exact ⟨h0, b, hb⟩
    · exact ih hrest hq

theorem Chain.zero_iff (h : Chain next a l) : a = 0 ↔ l = [] := by
  cases l with
  | nil => exact iff_of_true h rfl
  | cons p l =>
    obtain ⟨rfl, h0, -⟩ := h
    exact iff_of_false h0 (by simp)

theorem Chain.unique (h : Chain next a l) (h' : Chain next a l') : l = l' := by
  induction l generalizing a l' with
  | nil =>
    cases l' with
    | nil => rfl
    | cons p l' =>
      obtain ⟨rfl, h0, -⟩ := h'
      exact absurd h h0
  | cons p l ih =>
    obtain ⟨rfl, h0, b, hb, hrest⟩ := h
    cases l' with
    | nil => exact absurd h' h0
    | cons q l' =>
      obtain ⟨rfl, -, c, hc, hrest'⟩ := h'
      obtain rfl : b = c := Option.some.inj (hb.symm.trans hc)
      rw [ih hrest hrest']

theorem Chain.suffix (h : Chain next a (xs ++ q :: ys)) : Chain next q (q :: ys) := by
  induction xs generalizing a with
  | nil => exact h.1 ▸ h
  | cons p xs ih =>
    obtain ⟨-, -, b, -, hrest⟩ := h
    exact ih hrest

theorem Chain.nodup (h : Chain next a l) : l.Nodup := by
  induction l generalizing a with
  | nil => exact List.nodup_nil
  | cons p l ih =>
    obtain ⟨ha, -, b, -, hrest⟩ := id h
    refine List.nodup_cons.mpr ⟨fun hp => ?_, ih hrest⟩
    obtain ⟨xs, ys, rfl⟩ := List.append_of_mem hp
    have hsame := (ha ▸ h).unique hrest.suffix
    have hlength := congrArg List.length hsame
    simp at hlength
    omega

theorem Chain.concat (h : Chain next a (l ++ [p])) (h0 : q ≠ 0)
    (hother : ∀ r ∈ l, next' r = next r) (hlast : next' p = some q) (hnew : next' q = some 0) :
    Chain next' a (l ++ [p, q]) := by
  induction l generalizing a with
  | nil =>
    obtain ⟨rfl, ha, -⟩ := h
    exact ⟨rfl, ha, q, hlast, rfl, h0, 0, hnew, rfl⟩
  | cons r l ih =>
    obtain ⟨rfl, ha, b, hb, hrest⟩ := h
    exact ⟨rfl, ha, b, (hother a (by simp)).trans hb, ih hrest fun r hr => hother r (by simp [hr])⟩

theorem Segment.congr (h : Segment prev next before l after) (hp : ∀ q ∈ l, prev' q = prev q)
    (hn : ∀ q ∈ l, next' q = next q) : Segment prev' next' before l after := by
  induction l generalizing before with
  | nil => trivial
  | cons p l ih =>
    obtain ⟨h0, hprev, hnext, hrest⟩ := h
    exact ⟨h0, (hp p (by simp)).trans hprev, (hn p (by simp)).trans hnext,
      ih hrest (fun q hq => hp q (by simp [hq])) fun q hq => hn q (by simp [hq])⟩

theorem Segment.mem_ne_zero (h : Segment prev next before l after) (hq : q ∈ l) : q ≠ 0 := by
  induction l generalizing before with
  | nil => simp at hq
  | cons p l ih =>
    rcases List.mem_cons.mp hq with rfl | hq
    · exact h.1
    · exact ih h.2.2.2 hq

theorem getLastD_append_cons (xs zs : List Nat) (z d : Nat) :
    (xs ++ z :: zs).getLastD d = zs.getLastD z := by
  induction xs generalizing d with
  | nil => rw [List.nil_append, List.getLastD_cons]
  | cons x xs ih => rw [List.cons_append, List.getLastD_cons, ih]

theorem getLastD_mem_cons (zs : List Nat) (z : Nat) : zs.getLastD z ∈ z :: zs := by
  induction zs generalizing z with
  | nil => simp
  | cons x xs ih =>
    rw [List.getLastD_cons]
    exact List.mem_cons_of_mem _ (ih x)

theorem segment_append : Segment prev next before (xs ++ ys) after ↔
    Segment prev next before xs (ys.headD after) ∧
      Segment prev next (xs.getLastD before) ys after := by
  induction xs generalizing before with
  | nil => simp [Segment]
  | cons p xs ih =>
    have hhead : (xs ++ ys).headD after = xs.headD (ys.headD after) := by cases xs <;> rfl
    have hlast : (p :: xs).getLastD before = xs.getLastD p := by
      rw [List.getLastD_cons]
    rw [List.cons_append, Segment, Segment, ih, hhead, hlast]
    tauto

theorem Segment.set_before (h : Segment prev next before (p :: l) after)
    (hprev : prev' p = some b) (hother : ∀ q ∈ l, prev' q = prev q)
    (hnext : ∀ q ∈ p :: l, next' q = next q) : Segment prev' next' b (p :: l) after :=
  ⟨h.1, hprev, (hnext p (by simp)).trans h.2.2.1,
    h.2.2.2.congr hother fun q hq => hnext q (by simp [hq])⟩

theorem Segment.set_after (h : Segment prev next before (l ++ [p]) after)
    (hnext : next' p = some b) (hother : ∀ q ∈ l, next' q = next q)
    (hprev : ∀ q ∈ l ++ [p], prev' q = prev q) : Segment prev' next' before (l ++ [p]) b := by
  obtain ⟨hl, h0, hback, -⟩ := segment_append.mp h
  refine segment_append.mpr ⟨hl.congr (fun q hq => hprev q (by simp [hq])) hother, h0, ?_, hnext,
    trivial⟩
  exact (hprev p (by simp)).trans hback

end CS24.Machine.Linked
