import CS24.Proxy.Cache
import CS24.Machine.Linked

/-!
# The representation of the cache

The queue is a doubly linked list, and the bins of the hash table are chains of the same
nodes. Each half of an operation changes the links of one of the two; the other half, the
keys and the values stay as they are.
-/

namespace CS24.Proxy
open Machine Linked

variable {s s' s'' : State} {queue l : List Nat} {chains : Nat → List Nat} {n p q b k v : Nat}
  {x : Node} {f : Node → Node} {E : Stop → Prop}
  {Q : Unit → State → Prop}

def State.prev (s : State) (p : Nat) : Option Nat := (s.nodes p).map Node.prev
def State.next (s : State) (p : Nat) : Option Nat := (s.nodes p).map Node.next
def State.hashNext (s : State) (p : Nat) : Option Nat := (s.nodes p).map Node.hashTableNext
def State.key (s : State) (p : Nat) : Nat := ((s.nodes p).map Node.key).getD 0
def State.value (s : State) (p : Nat) : Nat := ((s.nodes p).map Node.value).getD 0

def State.bin (s : State) (p : Nat) : Nat := hash (s.strings (s.key p))

def State.valueLength (s : State) (p : Nat) : Nat := (s.buffers (s.value p)).length

def State.set (s : State) (p : Nat) (x : Node) : State :=
  { s with nodes := Function.update s.nodes p (some x) }

theorem nodes_set_self : (s.set p x).nodes p = some x := Function.update_self ..

theorem nodes_set_ne (h : q ≠ p) : (s.set p x).nodes q = s.nodes q := Function.update_of_ne h ..

theorem prev_set_ne (h : q ≠ p) : (s.set p x).prev q = s.prev q :=
  congrArg _ (nodes_set_ne h)

theorem next_set_ne (h : q ≠ p) : (s.set p x).next q = s.next q :=
  congrArg _ (nodes_set_ne h)

theorem prev_set_self : (s.set p x).prev p = some x.prev := congrArg _ nodes_set_self

theorem next_set_self : (s.set p x).next p = some x.next := congrArg _ nodes_set_self

theorem hashNext_set_self : (s.set p x).hashNext p = some x.hashTableNext :=
  congrArg _ nodes_set_self

theorem hashNext_set_ne (h : q ≠ p) : (s.set p x).hashNext q = s.hashNext q :=
  congrArg _ (nodes_set_ne h)

theorem deref_eq (h : s.nodes p = some x) : deref p s = .ok (x, s) := by
  have hread : (reads fun s => s.nodes p : M _) s = .ok (s.nodes p, s) := rfl
  rw [deref, bind_of_ok hread, h]
  rfl

theorem deref_none (h : s.nodes p = none) : deref p s = .error .badPointer := by
  have hread : (reads fun s => s.nodes p : M _) s = .ok (s.nodes p, s) := rfl
  rw [deref, bind_of_ok hread, h]
  rfl

theorem assign_eq (h : s.nodes p = some x) : assign p f s = .ok ((), s.set p (f x)) := by
  rw [assign, bind_of_ok (deref_eq h)]
  rfl

structure Relinked (s s' : State) : Prop where
  content : ∀ p, (s'.nodes p).map (fun n => (n.key, n.value)) =
    (s.nodes p).map fun n => (n.key, n.value)
  strings : s'.strings = s.strings
  buffers : s'.buffers = s.buffers
  size : s'.size = s.size

theorem Relinked.refl : Relinked s s := ⟨fun _ => rfl, rfl, rfl, rfl⟩

theorem Relinked.trans (h : Relinked s s') (h' : Relinked s' s'') : Relinked s s'' :=
  ⟨fun p => (h'.content p).trans (h.content p), h'.strings.trans h.strings,
    h'.buffers.trans h.buffers, h'.size.trans h.size⟩

theorem Relinked.isSome (h : Relinked s s') (p : Nat) :
    (s'.nodes p).isSome = (s.nodes p).isSome := by
  have hc := congrArg Option.isSome (h.content p)
  rwa [Option.isSome_map, Option.isSome_map] at hc

theorem Relinked.key (h : Relinked s s') (p : Nat) : s'.key p = s.key p := by
  have hc := congrArg (Option.map Prod.fst) (h.content p)
  rw [Option.map_map, Option.map_map] at hc
  exact congrArg (fun o : Option Nat => o.getD 0) hc

theorem Relinked.value (h : Relinked s s') (p : Nat) : s'.value p = s.value p := by
  have hc := congrArg (Option.map Prod.snd) (h.content p)
  rw [Option.map_map, Option.map_map] at hc
  exact congrArg (fun o : Option Nat => o.getD 0) hc

theorem Relinked.bin (h : Relinked s s') (p : Nat) : s'.bin p = s.bin p := by
  rw [State.bin, State.bin, h.key, h.strings]

theorem Relinked.valueLength (h : Relinked s s') (p : Nat) :
    s'.valueLength p = s.valueLength p := by
  rw [State.valueLength, State.valueLength, h.value, h.buffers]

/-- The queue is the doubly linked list of these nodes. -/
structure Queue (s : State) (queue : List Nat) : Prop where
  links : Segment s.prev s.next 0 queue 0
  front : s.front = queue.headD 0
  back : s.back = queue.getLastD 0
  nodup : queue.Nodup
  size : s.queueSize = queue.length

structure SameTable (s s' : State) : Prop where
  hashNext : ∀ p, s'.hashNext p = s.hashNext p
  arr : s'.arr = s.arr

theorem SameTable.trans (h : SameTable s s') (h' : SameTable s' s'') : SameTable s s'' :=
  ⟨fun p => (h'.hashNext p).trans (h.hashNext p), h'.arr.trans h.arr⟩

structure OnlyLinks (s s' : State) : Prop where
  content : ∀ p, (s'.nodes p).map (fun n => (n.key, n.value)) =
    (s.nodes p).map fun n => (n.key, n.value)
  hashNext : ∀ p, s'.hashNext p = s.hashNext p
  rest : s' = { s with nodes := s'.nodes }

theorem OnlyLinks.refl : OnlyLinks s s := ⟨fun _ => rfl, fun _ => rfl, rfl⟩

theorem OnlyLinks.trans (h : OnlyLinks s s') (h' : OnlyLinks s' s'') : OnlyLinks s s'' :=
  ⟨fun p => (h'.content p).trans (h.content p), fun p => (h'.hashNext p).trans (h.hashNext p), by
    rw [h'.rest, h.rest]⟩

theorem OnlyLinks.set (hp : s.nodes p = some x) {y : Node} (hk : y.key = x.key)
    (hv : y.value = x.value) (hh : y.hashTableNext = x.hashTableNext) :
    OnlyLinks s (s.set p y) := by
  refine ⟨fun q => ?_, fun q => ?_, rfl⟩
  · by_cases hq : q = p
    · rw [hq, nodes_set_self, hp, Option.map_some, Option.map_some, hk, hv]
    · rw [nodes_set_ne hq]
  · by_cases hq : q = p
    · rw [hq, hashNext_set_self, hh, State.hashNext, hp]
      rfl
    · exact hashNext_set_ne hq

theorem OnlyLinks.relinked (h : OnlyLinks s s') (front back queueSize : Nat) :
    Relinked s { s' with front := front, back := back, queueSize := queueSize } :=
  ⟨h.content, by rw [h.rest], by rw [h.rest], by rw [h.rest]⟩

theorem OnlyLinks.sameTable (h : OnlyLinks s s') (front back queueSize : Nat) :
    SameTable s { s' with front := front, back := back, queueSize := queueSize } :=
  ⟨h.hashNext, by rw [h.rest]⟩

theorem exists_node_of_prev {a : Nat} (h : s.prev p = some a) :
    ∃ x, s.nodes p = some x ∧ x.prev = a :=
  Option.map_eq_some_iff.mp h

theorem Queue.exists_node (h : Queue s queue) {xs ys : List Nat} (hq : queue = xs ++ p :: ys) :
    ∃ x, s.nodes p = some x ∧ x.prev = xs.getLastD 0 ∧ x.next = ys.headD 0 := by
  have hseg := h.links
  rw [hq] at hseg
  obtain ⟨-, -, hprev, hnext, -⟩ := segment_append.mp hseg
  obtain ⟨x, hx, hp⟩ := exists_node_of_prev hprev
  refine ⟨x, hx, hp, ?_⟩
  rw [State.next, hx] at hnext
  exact Option.some.inj hnext

theorem next_set_of_eq (hp : s.nodes p = some x) {y : Node} (hn : y.next = x.next) (q : Nat) :
    (s.set p y).next q = s.next q := by
  by_cases hq : q = p
  · rw [hq, next_set_self, hn, State.next, hp]
    rfl
  · exact next_set_ne hq

theorem prev_set_of_eq (hp : s.nodes p = some x) {y : Node} (hn : y.prev = x.prev) (q : Nat) :
    (s.set p y).prev q = s.prev q := by
  by_cases hq : q = p
  · rw [hq, prev_set_self, hn, State.prev, hp]
    rfl
  · exact prev_set_ne hq

theorem assign_front {a : Nat} (hseg : Segment s.prev s.next 0 (a :: l) 0)
    (hnodup : (p :: a :: l).Nodup) (h0 : p ≠ 0) (hp : s.prev p = some 0)
    (hn : s.next p = some a) :
    ∃ s', assign a (fun m => { m with prev := p }) s = .ok ((), s') ∧
      Segment s'.prev s'.next 0 (p :: a :: l) 0 ∧ OnlyLinks s s' := by
  obtain ⟨hpl, hal, -⟩ := by simpa only [List.nodup_cons] using hnodup
  obtain ⟨y, hy, -⟩ := exists_node_of_prev hseg.2.1
  have hnext := next_set_of_eq hy (y := { y with prev := p }) rfl
  refine ⟨_, assign_eq hy, ⟨h0, ?_, (hnext p).trans hn, ?_⟩, .set hy rfl rfl rfl⟩
  · have hpa : p ≠ a := fun hpa => hpl (by simp [hpa])
    rw [prev_set_ne hpa, hp]
  · refine hseg.set_before prev_set_self (fun q hq => ?_) fun q _ => hnext q
    have hqa : q ≠ a := fun hqa => hal (hqa ▸ hq)
    rw [prev_set_ne hqa]

theorem enqueue_spec (h : Queue s queue) (hp : s.nodes p = some x) (h0 : p ≠ 0)
    (hprev : x.prev = 0) (hnew : p ∉ queue) (hsize : queue.length + 1 < 2 ^ 64) :
    wp (enqueue p) E (fun _ s' => Queue s' (p :: queue) ∧ Relinked s s' ∧ SameTable s s') s := by
  have hassign := assign_eq (f := fun m => { m with next := s.front }) hp
  generalize hs₁ : s.set p { x with next := s.front } = s₁ at hassign
  have hlinks₁ : OnlyLinks s s₁ := hs₁ ▸ .set hp rfl rfl rfl
  have hp₁ : s₁.prev p = some 0 := by rw [← hs₁, prev_set_self, ← hprev]
  have hn₁ : s₁.next p = some (queue.headD 0) := by rw [← hs₁, next_set_self, ← h.front]
  have hother : ∀ q ∈ queue, q ≠ p := fun q hq hqp => hnew (hqp ▸ hq)
  have hseg₁ : Segment s₁.prev s₁.next 0 queue 0 := by
    rw [← hs₁]
    exact h.links.congr (fun q hq => prev_set_ne (hother q hq)) fun q hq =>
      next_set_ne (hother q hq)
  have hlength : (s.queueSize + 1) % 2 ^ 64 = (p :: queue).length := by
    rw [h.size, Nat.mod_eq_of_lt hsize, List.length_cons]
  have hnodup : (p :: queue).Nodup := List.nodup_cons.mpr ⟨hnew, h.nodup⟩
  rw [enqueue, wp_bind, wp_reads, wp_bind_of_ok hassign, wp_bind, wp_ite]
  constructor
  · intro hback
    have hnil : queue = [] := by
      by_contra hne
      have hmem := List.getLast_mem hne
      rw [h.back, List.getLastD_eq_getLast?, List.getLast?_eq_some_getLast hne] at hback
      exact h.links.mem_ne_zero hmem hback
    subst hnil
    have hsize₁ : s₁.queueSize = s.queueSize := by rw [hlinks₁.rest]
    rw [wp_modify, wp_modify, hsize₁, hlength]
    exact ⟨⟨⟨h0, hp₁, hn₁, trivial⟩, rfl, rfl, hnodup, rfl⟩, hlinks₁.relinked _ _ _,
      hlinks₁.sameTable _ _ _⟩
  · intro hback
    cases queue with
    | nil => exact absurd h.back hback
    | cons a l =>
      have hfront : s.front = a := h.front
      obtain ⟨s₂, hassign₂, hseg₂, hlinks₂⟩ := assign_front hseg₁ hnodup h0 hp₁ hn₁
      have hlinks := hlinks₁.trans hlinks₂
      have hback₂ : s₂.back = s.back := by rw [hlinks.rest]
      have hsize₂ : s₂.queueSize = s.queueSize := by rw [hlinks.rest]
      rw [hfront, wp_bind_of_ok hassign₂, wp_modify, wp_modify, hsize₂, hlength]
      refine ⟨⟨hseg₂, rfl, ?_, hnodup, rfl⟩, hlinks.relinked _ _ _, hlinks.sameTable _ _ _⟩
      rw [hback₂, h.back, List.getLastD_cons, List.getLastD_cons, List.getLastD_cons]

theorem unlink_spec {a : Nat} {xs ys : List Nat} (h : Queue s (xs ++ a :: p :: ys))
    (hp : s.nodes p = some x) {c : M Unit}
    (hc : ∀ s', Relinked s s' → SameTable s s' → s'.queueSize = s.queueSize →
      s'.nodes p = some x → Segment s'.prev s'.next 0 (xs ++ a :: ys) 0 →
      s'.back = (xs ++ a :: ys).getLastD 0 → wp c E Q s') :
    wp (do
      assign x.prev fun m => { m with next := x.next }
      (if x.next ≠ 0 then assign x.next fun m => { m with prev := x.prev } else pure ())
      (if p = s.back then do
        modify fun s => { s with back := x.prev }
        assign x.prev fun m => { m with next := 0 }
      else pure ())
      c) E Q s := by
  have hsplit : xs ++ a :: p :: ys = (xs ++ [a]) ++ p :: ys := by simp
  obtain ⟨x', hx', hprev, hnext⟩ := h.exists_node hsplit
  obtain rfl : x' = x := Option.some.inj (hx'.symm.trans hp)
  rw [List.getLastD_concat] at hprev
  have hnodup := h.nodup
  simp only [List.nodup_append, List.nodup_cons, List.mem_cons, not_or] at hnodup
  obtain ⟨hxs, ⟨⟨hap, hays⟩, hpys, hys⟩, hdisj⟩ := hnodup
  have haxs : a ∉ xs := fun ha => hdisj a ha a (by simp) rfl
  have hpxs : p ∉ xs := fun hp => hdisj p hp p (by simp) rfl
  have hseg := h.links
  rw [hsplit] at hseg
  obtain ⟨hleft, h0, -, -, hright⟩ := segment_append.mp hseg
  obtain ⟨-, ha0, hback, -⟩ := segment_append.mp hleft
  obtain ⟨y, hy, -⟩ := exists_node_of_prev hback
  -- the node before now leads to the node after
  have hassign₁ := assign_eq (f := fun m => { m with next := x'.next }) hy
  generalize hs₁ : s.set a { y with next := x'.next } = s₁ at hassign₁
  have hlinks₁ : OnlyLinks s s₁ := hs₁ ▸ .set hy rfl rfl rfl
  have hprev₁ : ∀ q, s₁.prev q = s.prev q := hs₁ ▸ prev_set_of_eq hy rfl
  have hp₁ : s₁.nodes p = some x' := by rw [← hs₁, nodes_set_ne (Ne.symm hap), hp]
  have hleft₁ : Segment s₁.prev s₁.next 0 (xs ++ [a]) (ys.headD 0) := by
    refine hleft.set_after ?_ (fun q hq => ?_) fun q _ => hprev₁ q
    · rw [← hs₁, next_set_self, hnext]
    · have hqa : q ≠ a := fun hqa => haxs (hqa ▸ hq)
      rw [← hs₁, next_set_ne hqa]
  have hright₁ : Segment s₁.prev s₁.next p ys 0 := by
    refine hright.congr (fun q _ => hprev₁ q) fun q hq => ?_
    have hqa : q ≠ a := fun hqa => hays (hqa ▸ hq)
    rw [← hs₁, next_set_ne hqa]
  rw [hprev, wp_bind_of_ok hassign₁, hnext]
  cases ys with
  | nil =>
    have hlast : p = s.back := by
      rw [h.back, hsplit, List.getLastD_concat]
    obtain ⟨w, hw, -⟩ := exists_node_of_prev (segment_append.mp hleft₁).2.2.1
    have hassign₂ : assign a (fun m => { m with next := 0 }) { s₁ with back := a } =
        .ok ((), { s₁.set a { w with next := 0 } with back := a }) := assign_eq hw
    have hprev₂ := prev_set_of_eq hw (y := { w with next := 0 }) rfl
    have hnext₂ : (s₁.set a { w with next := 0 }).next a = some 0 := next_set_self
    have hother₂ : ∀ q ∈ xs, (s₁.set a { w with next := 0 }).next q = s₁.next q := fun q hq =>
      next_set_ne fun hqa => haxs (hqa ▸ hq)
    have hp₂ : (s₁.set a { w with next := 0 }).nodes p = some x' :=
      (nodes_set_ne (Ne.symm hap)).trans hp₁
    have hlinks₂ : OnlyLinks s₁ (s₁.set a { w with next := 0 }) := .set hw rfl rfl rfl
    generalize s₁.set a { w with next := 0 } = s₂ at *
    have hlinks := hlinks₁.trans hlinks₂
    rw [if_neg (by simp), wp_bind, wp_pure, if_pos hlast, wp_bind, wp_bind, wp_modify]
    refine wp_of_ok hassign₂ (hc _ (hlinks.relinked _ _ _) (hlinks.sameTable _ _ _) ?_ hp₂ ?_ ?_)
    · rw [hlinks.rest]
    · exact hleft₁.set_after hnext₂ hother₂ fun q _ => hprev₂ q
    · exact (List.getLastD_concat ..).symm
  | cons z zs =>
    have hback : s.back = zs.getLastD z := by
      rw [h.back, hsplit, getLastD_append_cons, List.getLastD_cons]
    have hlast : p ≠ s.back := by
      intro hpb
      rw [hback] at hpb
      exact hpys (hpb ▸ getLastD_mem_cons zs z)
    have hpz : p ≠ z := fun hpz => hpys (by simp [hpz])
    have hnew : a ∉ xs := haxs
    obtain ⟨w, hw, -⟩ := exists_node_of_prev hright₁.2.1
    have hassign₂ := assign_eq (f := fun m => { m with prev := a }) hw
    generalize hs₂ : s₁.set z { w with prev := a } = s₂ at hassign₂
    have hlinks₂ : OnlyLinks s₁ s₂ := hs₂ ▸ .set hw rfl rfl rfl
    have hlinks := hlinks₁.trans hlinks₂
    have hnext₂ : ∀ q, s₂.next q = s₁.next q := hs₂ ▸ next_set_of_eq hw rfl
    have hzleft : ∀ q ∈ xs ++ [a], q ≠ z := by
      intro q hq hqz
      rcases List.mem_append.mp hq with hq | hq
      · exact hdisj q hq z (by simp) hqz
      · exact hays (by simp [← List.mem_singleton.mp hq, hqz])
    have hzs : z ∉ zs := (List.nodup_cons.mp hys).1
    rw [if_pos (show (z :: zs).headD 0 ≠ 0 from hright₁.1), List.headD_cons,
      wp_bind_of_ok hassign₂, if_neg hlast, wp_bind, wp_pure]
    refine hc s₂ (hlinks.relinked _ _ _) (hlinks.sameTable _ _ _) ?_ ?_ ?_ ?_
    · rw [hlinks.rest]
    · rw [← hs₂, nodes_set_ne hpz, hp₁]
    · rw [show xs ++ a :: z :: zs = (xs ++ [a]) ++ z :: zs by simp]
      refine segment_append.mpr ⟨?_, ?_⟩
      · refine hleft₁.congr (fun q hq => ?_) fun q _ => hnext₂ q
        rw [← hs₂, prev_set_ne (hzleft q hq)]
      · rw [List.getLastD_concat]
        refine hright₁.set_before ?_ (fun q hq => ?_) fun q _ => hnext₂ q
        · rw [← hs₂, prev_set_self]
        · have hqz : q ≠ z := fun hqz => hzs (hqz ▸ hq)
          rw [← hs₂, prev_set_ne hqz]
    · rw [hlinks.rest]
      rw [getLastD_append_cons, List.getLastD_cons, ← hback]

theorem nodup_move {xs ys : List Nat} (h : (xs ++ p :: ys).Nodup) : (p :: (xs ++ ys)).Nodup :=
  (List.perm_middle.nodup_iff).mp h

theorem queueUpdate_spec {xs ys : List Nat} (h : Queue s (xs ++ p :: ys)) :
    wp (queueUpdate p) E
      (fun _ s' => Queue s' (p :: (xs ++ ys)) ∧ Relinked s s' ∧ SameTable s s') s := by
  have hnodup := nodup_move h.nodup
  rcases List.eq_nil_or_concat xs with rfl | ⟨zs, a, rfl⟩
  · have hfront : p = s.front := h.front.symm
    rw [queueUpdate, wp_bind, wp_reads, if_pos hfront]
    exact ⟨h, OnlyLinks.refl.relinked _ _ _, OnlyLinks.refl.sameTable _ _ _⟩
  rw [List.concat_eq_append] at h hnodup ⊢
  rw [List.append_assoc, List.cons_append, List.nil_append] at h hnodup ⊢
  have h0 : p ≠ 0 := h.links.mem_ne_zero (by simp)
  obtain ⟨x, hx, -⟩ := h.exists_node (show zs ++ a :: p :: ys = (zs ++ [a]) ++ p :: ys by simp)
  have hfront : p ≠ s.front := by
    rw [h.front]
    have hnot := (List.nodup_cons.mp hnodup).1
    cases zs with
    | nil => exact fun hpa => hnot (List.mem_cons.mpr (.inl hpa))
    | cons z zs => exact fun hpz => hnot (List.mem_cons.mpr (.inl hpz))
  rw [queueUpdate, wp_bind, wp_reads, if_neg hfront, wp_bind_of_ok (deref_eq hx)]
  refine unlink_spec h hx fun s₁ hlinked₁ htable₁ hsize₁ hx₁ hseg₁ hback₁ => ?_
  have hother : ∀ q ∈ zs ++ a :: ys, q ≠ p := fun q hq hqp =>
    (List.nodup_cons.mp hnodup).1 (hqp ▸ hq)
  have hlinks₂ : OnlyLinks s₁ (s₁.set p { x with next := s.front, prev := 0 }) :=
    .set hx₁ rfl rfl rfl
  have hassign₂ := assign_eq (f := fun m => { m with next := s.front, prev := 0 }) hx₁
  have hseg₂ : Segment (s₁.set p { x with next := s.front, prev := 0 }).prev
      (s₁.set p { x with next := s.front, prev := 0 }).next 0 (zs ++ a :: ys) 0 :=
    hseg₁.congr (fun q hq => prev_set_ne (hother q hq)) fun q hq => next_set_ne (hother q hq)
  have hp₂ : (s₁.set p { x with next := s.front, prev := 0 }).prev p = some 0 := prev_set_self
  have hn₂ : (s₁.set p { x with next := s.front, prev := 0 }).next p = some s.front :=
    next_set_self
  generalize s₁.set p { x with next := s.front, prev := 0 } = s₂ at *
  have hfront' : s.front = (zs ++ a :: ys).headD 0 := by
    rw [h.front]
    cases zs <;> rfl
  obtain ⟨b, l, hbl⟩ := List.exists_cons_of_ne_nil (show zs ++ a :: ys ≠ [] by simp)
  rw [hbl] at hseg₂ hnodup hfront'
  obtain ⟨s₃, hassign₃, hseg₃, hlinks₃⟩ :=
    assign_front hseg₂ hnodup h0 hp₂ (hn₂.trans (congrArg some hfront'))
  rw [wp_bind_of_ok hassign₂, hfront', List.headD_cons, wp_bind_of_ok hassign₃, wp_modify, hbl]
  have hlinks := hlinks₂.trans hlinks₃
  have hback : s₃.back = (b :: l).getLastD 0 := by
    rw [← hbl, ← hback₁, hlinks.rest]
  have hsize : s₃.queueSize = (p :: b :: l).length := by
    have hlength : (p :: b :: l).length = (zs ++ a :: p :: ys).length := by
      rw [← hbl]
      simp
      omega
    rw [hlength, ← h.size, ← hsize₁, hlinks.rest]
  refine ⟨⟨hseg₃, rfl, ?_, hnodup, hsize⟩, hlinked₁.trans (hlinks.relinked _ _ _),
    htable₁.trans (hlinks.sameTable _ _ _)⟩
  exact hback

end CS24.Proxy
