import CS24.Proxy.Eviction

/-!
# The order of the queue

A call of `enqueue` or `queue_update` moves one node to the front, so the queue lists its
nodes by their last move. `dequeue` is to take away the node at the back, and never does.
-/

namespace CS24.Proxy
open Machine Linked

variable {s s' : State} {queue l : List Nat} {p q : Nat} {x : Node} {f : Node → Node}

/-- Only nodes of `l` changed. -/
def KeepsOutside (l : List Nat) (s s' : State) : Prop := ∀ q ∉ l, s'.nodes q = s.nodes q

theorem KeepsOutside.trans {s'' : State} (h : KeepsOutside l s s') (h' : KeepsOutside l s' s'') :
    KeepsOutside l s s'' :=
  fun q hq => (h' q hq).trans (h q hq)

theorem assign_keeps {s₀ : State} (h : KeepsOutside l s₀ s) (hp : p ∈ l) :
    wp (assign p f) (fun _ => True) (fun _ s' => KeepsOutside l s₀ s') s := by
  refine wp_assign trivial fun x _ => h.trans fun q hq => ?_
  have hqp : q ≠ p := fun hqp => hq (hqp ▸ hp)
  exact nodes_set_ne hqp

theorem front_mem (h : Queue s queue) (hback : s.back ≠ 0) : s.front ∈ queue := by
  cases queue with
  | nil => exact absurd h.back hback
  | cons a l =>
    rw [h.front]
    exact List.mem_cons_self

theorem enqueue_keeps (h : Queue s queue) :
    wp (enqueue p) (fun _ => True) (fun _ s' => KeepsOutside (p :: queue) s s') s := by
  rw [enqueue, wp_bind, wp_reads]
  refine (assign_keeps (f := fun m => { m with next := s.front }) (fun _ _ => rfl)
    (List.mem_cons_self (a := p) (l := queue))).bind fun _ s₁ hs₁ => ?_
  rw [wp_bind, wp_ite]
  constructor
  · intro _
    rw [wp_modify, wp_modify]
    exact hs₁
  · intro hback
    have hfront : s.front ∈ p :: queue := List.mem_cons_of_mem p (front_mem h hback)
    refine (assign_keeps (f := fun m => { m with prev := p }) hs₁ hfront).bind fun _ s₂ hs₂ => ?_
    rw [wp_modify, wp_modify]
    exact hs₂

theorem queueUpdate_keeps {xs ys : List Nat} (h : Queue s (xs ++ p :: ys)) :
    wp (queueUpdate p) (fun _ => True) (fun _ s' => KeepsOutside (xs ++ p :: ys) s s') s := by
  obtain ⟨x, hx, hprev, hnext⟩ := h.exists_node rfl
  rw [queueUpdate, wp_bind, wp_reads, wp_ite]
  refine ⟨fun _ _ _ => rfl, fun hfront => ?_⟩
  have hprev_mem : x.prev ∈ xs ++ p :: ys := by
    cases xs with
    | nil => exact absurd h.front.symm hfront
    | cons a xs =>
      rw [hprev, List.getLastD_cons]
      exact List.mem_append_left _ (getLastD_mem_cons xs a)
  have hfront_mem : s.front ∈ xs ++ p :: ys := by
    rw [h.front]
    cases xs <;> exact List.mem_cons_self
  rw [wp_bind_of_ok (deref_eq hx)]
  refine (assign_keeps (f := fun m => { m with next := x.next }) (fun _ _ => rfl)
    hprev_mem).bind fun _ s₁ hs₁ => ?_
  have hafter : wp (if x.next ≠ 0 then assign x.next fun m => { m with prev := x.prev }
      else pure ()) (fun _ => True) (fun _ s' => KeepsOutside (xs ++ p :: ys) s s') s₁ := by
    rw [wp_ite]
    refine ⟨fun hne => ?_, fun _ => hs₁⟩
    refine assign_keeps hs₁ ?_
    cases ys with
    | nil => exact absurd hnext hne
    | cons a ys =>
      rw [hnext]
      exact List.mem_append_right _ (List.mem_cons_of_mem _ List.mem_cons_self)
  refine hafter.bind fun _ s₂ hs₂ => ?_
  have hback : wp (if p = s.back then do
      modify fun s => { s with back := x.prev }
      assign x.prev fun m => { m with next := 0 }
    else pure ()) (fun _ => True) (fun _ s' => KeepsOutside (xs ++ p :: ys) s s') s₂ := by
    rw [wp_ite]
    refine ⟨fun _ => ?_, fun _ => hs₂⟩
    rw [wp_bind, wp_modify]
    exact assign_keeps (s := { s₂ with back := x.prev }) hs₂ hprev_mem
  refine hback.bind fun _ s₃ hs₃ => ?_
  refine (assign_keeps (f := fun m => { m with next := s.front, prev := 0 }) hs₃
    (List.mem_append_right xs List.mem_cons_self)).bind fun _ s₄ hs₄ => ?_
  refine (assign_keeps (f := fun m => { m with prev := p }) hs₄ hfront_mem).bind
    fun _ s₅ hs₅ => ?_
  rw [wp_modify]
  exact hs₅

inductive Call where
  /-- `init_node(key, value)`, where `malloc` returns `node` -/
  | initNode (node key value : Nat)
  | enqueue (node : Nat)
  | queueUpdate (node : Nat)
deriving DecidableEq

def Call.perform : Call → M Unit
  | .initNode node key value => Proxy.initNode node key value
  | .enqueue node => Proxy.enqueue node
  | .queueUpdate node => Proxy.queueUpdate node

def Call.moved : Call → Option Nat
  | .initNode .. => none
  | .enqueue node | .queueUpdate node => some node

/-- After `calls`, only a fresh node is enqueued and only a node of the queue is updated. -/
def Call.Allowed (calls : List Call) : Call → Prop
  | .initNode .. => True
  | .enqueue node => (∃ key value, .initNode node key value ∈ calls) ∧ .enqueue node ∉ calls
  | .queueUpdate node => .enqueue node ∈ calls

/-- The states after the calls of a run that starts with `init_queue`. -/
inductive Run (strings : Nat → List UInt8) (buffers : Nat → Buffer) : List Call → State → Prop where
  | init : Run strings buffers [] (initCache strings buffers)
  | step {calls : List Call} {c : Call} {s s' : State} : Run strings buffers calls s →
      c.Allowed calls → c.perform s = .ok ((), s') → Run strings buffers (calls ++ [c]) s'

def lastMove (calls : List Call) (p : Nat) : Nat :=
  calls.length - calls.reverse.findIdx fun c => c.moved = some p

variable {calls : List Call} {c : Call}

theorem lastMove_concat_self (hc : c.moved = some p) :
    lastMove (calls ++ [c]) p = calls.length + 1 := by
  rw [lastMove, List.reverse_append, List.reverse_singleton, List.singleton_append,
    List.findIdx_cons]
  simp [hc]

theorem lastMove_concat_of_ne (hc : c.moved ≠ some p) :
    lastMove (calls ++ [c]) p = lastMove calls p := by
  rw [lastMove, List.reverse_append, List.reverse_singleton, List.singleton_append,
    List.findIdx_cons]
  simp [hc, lastMove]

theorem lastMove_le (calls : List Call) (p : Nat) : lastMove calls p ≤ calls.length :=
  Nat.sub_le _ _

/-- The nodes that were enqueued, the one moved last first. -/
structure ByLastMove (calls : List Call) (queue : List Nat) : Prop where
  mem : ∀ p, p ∈ queue ↔ .enqueue p ∈ calls
  order : queue.Pairwise fun p q => lastMove calls q < lastMove calls p

theorem ByLastMove.move (h : ByLastMove calls queue) (hc : c.moved = some p)
    (hl : l.Sublist queue) (hp : p ∉ l)
    (hmem : ∀ q, q ∈ p :: l ↔ .enqueue q ∈ calls ++ [c]) : ByLastMove (calls ++ [c]) (p :: l) := by
  have hother : ∀ q ∈ l, lastMove (calls ++ [c]) q = lastMove calls q := by
    intro q hq
    refine lastMove_concat_of_ne fun hcq => hp ?_
    obtain rfl : p = q := Option.some.inj (hc.symm.trans hcq)
    exact hq
  refine ⟨hmem, List.pairwise_cons.mpr ⟨fun q hq => ?_, ?_⟩⟩
  · rw [lastMove_concat_self hc, hother q hq]
    exact Nat.lt_succ_of_le (lastMove_le calls q)
  · refine (h.order.sublist hl).imp_of_mem fun {a b} ha hb hab => ?_
    rw [hother a ha, hother b hb]
    exact hab

structure Recent (calls : List Call) (s : State) (queue : List Nat) : Prop where
  row : Queue s queue
  byMove : ByLastMove calls queue
  address : ∀ p, (s.nodes p).isSome → 0 < p ∧ p < 2 ^ 64
  fresh : ∀ p k v, .initNode p k v ∈ calls → .enqueue p ∉ calls →
    ∃ x, s.nodes p = some x ∧ x.prev = 0

theorem initNode_effect {k v : Nat} : wp (initNode p k v) (fun _ => True)
    (fun _ s' => s.nodes p = none ∧ 0 < p ∧ p < 2 ^ 64 ∧ s' = s.set p ⟨0, 0, 0, k, v⟩) s := by
  rw [initNode, wp_bind, wp_reads, wp_ite]
  refine ⟨fun _ => trivial, fun hok => ?_⟩
  simp only [not_or, Nat.not_le] at hok
  rw [wp_modify]
  exact ⟨by simpa using hok.2.2, Nat.pos_of_ne_zero hok.1, hok.2.1, rfl⟩

theorem Recent.initNode {k v : Nat} (h : Recent calls s queue)
    (hrun : Proxy.initNode p k v s = .ok ((), s')) :
    Recent (calls ++ [.initNode p k v]) s' queue := by
  obtain ⟨hnone, h0, hlt, rfl⟩ := initNode_effect.ok hrun
  have hp : p ∉ queue := fun hp => by simpa [hnone] using h.row.isSome hp
  have hother : ∀ q ∈ queue, q ≠ p := fun q hq hqp => hp (hqp ▸ hq)
  have hmove : ∀ q, lastMove (calls ++ [.initNode p k v]) q = lastMove calls q :=
    fun q => lastMove_concat_of_ne (by simp [Call.moved])
  refine ⟨⟨?_, h.row.front, h.row.back, h.row.nodup, h.row.size⟩, ⟨fun q => ?_, ?_⟩, fun q hq => ?_,
    fun q k' v' hinit hqueue => ?_⟩
  · exact h.row.links.congr (fun q hq => prev_set_ne (hother q hq)) fun q hq =>
      next_set_ne (hother q hq)
  · simp [h.byMove.mem q]
  · simp only [hmove]
    exact h.byMove.order
  · by_cases hqp : q = p
    · exact hqp ▸ ⟨h0, hlt⟩
    · rw [nodes_set_ne hqp] at hq
      exact h.address q hq
  · by_cases hqp : q = p
    · rw [hqp]
      exact ⟨_, nodes_set_self, rfl⟩
    · rw [nodes_set_ne hqp]
      refine h.fresh q k' v' ?_ fun hq => hqueue (List.mem_append_left _ hq)
      simpa [hqp] using hinit

theorem Recent.of_keeps (h : Recent calls s queue) (hrow : Queue s' l)
    (hmove : ByLastMove (calls ++ [c]) l) (hlinks : Relinked s s') (hkeeps : KeepsOutside l s s')
    (hc : ∀ q k v, c ≠ .initNode q k v) : Recent (calls ++ [c]) s' l := by
  refine ⟨hrow, hmove, fun q hq => h.address q (hlinks.isSome q ▸ hq), fun q k v hinit hqueue => ?_⟩
  have hq : q ∉ l := fun hq => hqueue ((hmove.mem q).mp hq)
  rw [hkeeps q hq]
  refine h.fresh q k v ?_ fun hq => hqueue (List.mem_append_left _ hq)
  rcases List.mem_append.mp hinit with hinit | hinit
  · exact hinit
  · exact absurd (List.mem_singleton.mp hinit).symm (hc q k v)

theorem Recent.enqueue (h : Recent calls s queue) (hp : (Call.enqueue p).Allowed calls) :
    ∃ s', Proxy.enqueue p s = .ok ((), s') ∧ Recent (calls ++ [.enqueue p]) s' (p :: queue) := by
  obtain ⟨⟨k, v, hinit⟩, hnew⟩ := hp
  obtain ⟨x, hx, hprev⟩ := h.fresh p k v hinit hnew
  have hpq : p ∉ queue := fun hp => hnew ((h.byMove.mem p).mp hp)
  have haddress : 0 < p ∧ p < 2 ^ 64 := h.address p (by simp [hx])
  have hnodup : (p :: queue).Nodup := List.nodup_cons.mpr ⟨hpq, h.row.nodup⟩
  have hlength : (p :: queue).length < 2 ^ 64 := length_lt_of_address hnodup fun q hq => by
    rcases List.mem_cons.mp hq with rfl | hq
    · exact haddress
    · exact h.address q (h.row.isSome hq)
  obtain ⟨⟨⟩, s', hs', hrow, hlinks, -⟩ :=
    (enqueue_spec h.row hx (by omega) hprev hpq hlength).returns
  refine ⟨s', hs', h.of_keeps hrow ?_ hlinks ((enqueue_keeps h.row).ok hs') (by simp)⟩
  refine h.byMove.move rfl (List.Sublist.refl _) hpq fun q => ?_
  simp [h.byMove.mem q, or_comm]

theorem Recent.queueUpdate (h : Recent calls s queue) (hp : (Call.queueUpdate p).Allowed calls) :
    ∃ s' l, Proxy.queueUpdate p s = .ok ((), s') ∧ Recent (calls ++ [.queueUpdate p]) s' l := by
  obtain ⟨xs, ys, rfl⟩ := List.append_of_mem ((h.byMove.mem p).mpr hp)
  obtain ⟨⟨⟩, s', hs', hrow, hlinks, -⟩ := (queueUpdate_spec h.row).returns
  have hperm : (xs ++ p :: ys).Perm (p :: (xs ++ ys)) := List.perm_middle
  have hkeeps : KeepsOutside (p :: (xs ++ ys)) s s' := fun q hq =>
    (queueUpdate_keeps h.row).ok hs' q fun hmem => hq (hperm.mem_iff.mp hmem)
  refine ⟨s', _, hs', h.of_keeps hrow ?_ hlinks hkeeps (by simp)⟩
  have hsub : (xs ++ ys).Sublist (xs ++ p :: ys) :=
    (List.Sublist.refl xs).append (List.sublist_cons_self p ys)
  refine h.byMove.move rfl hsub (List.nodup_cons.mp (nodup_move h.row.nodup)).1 fun q => ?_
  rw [← hperm.mem_iff, h.byMove.mem q]
  simp

theorem Run.recent {strings : Nat → List UInt8} {buffers : Nat → Buffer}
    (h : Run strings buffers calls s) : ∃ queue, Recent calls s queue := by
  induction h with
  | init =>
    refine ⟨[], (initCache_represents strings buffers).row, ⟨by simp, List.Pairwise.nil⟩,
      fun p hp => ?_, by simp⟩
    cases hp
  | @step calls c s s' _ hc hrun ih =>
    obtain ⟨queue, h⟩ := ih
    cases c with
    | initNode p k v => exact ⟨queue, h.initNode hrun⟩
    | enqueue p =>
      obtain ⟨s'', hs'', h'⟩ := h.enqueue hc
      obtain ⟨-, rfl⟩ := Prod.mk.inj (Except.ok.inj (hs''.symm.trans hrun))
      exact ⟨_, h'⟩
    | queueUpdate p =>
      obtain ⟨s'', l, hs'', h'⟩ := h.queueUpdate hc
      obtain ⟨-, rfl⟩ := Prod.mk.inj (Except.ok.inj (hs''.symm.trans hrun))
      exact ⟨l, h'⟩

/-- In every run the queue is a doubly linked list of the nodes that were enqueued, the most
recently moved first, and the next call on the queue returns. -/
theorem queue_by_recency {strings : Nat → List UInt8} {buffers : Nat → Buffer}
    (h : Run strings buffers calls s) :
    (∃ queue, Queue s queue ∧ ByLastMove calls queue) ∧
    (∀ p, (Call.enqueue p).Allowed calls → ∃ s', enqueue p s = .ok ((), s')) ∧
    ∀ p, (Call.queueUpdate p).Allowed calls → ∃ s', queueUpdate p s = .ok ((), s') := by
  obtain ⟨queue, h⟩ := h.recent
  refine ⟨⟨queue, h.row, h.byMove⟩, fun p hp => ?_, fun p hp => ?_⟩
  · obtain ⟨s', hs', -⟩ := h.enqueue hp
    exact ⟨s', hs'⟩
  · obtain ⟨s', -, hs', -⟩ := h.queueUpdate hp
    exact ⟨s', hs'⟩

def twoInserted : List Call :=
  [.initNode 16 1 1, .initNode 32 2 2, .enqueue 16, .enqueue 32, .queueUpdate 16]

theorem queue_by_recency_two : ∃ s queue, Queue s queue ∧ ByLastMove twoInserted queue := by
  have h₀ : Run oneByteKeys largeBuffers [] _ := .init
  have h₁ := h₀.step (c := .initNode 16 1 1) trivial rfl
  have h₂ := h₁.step (c := .initNode 32 2 2) trivial rfl
  have h₃ := h₂.step (c := .enqueue 16) ⟨⟨1, 1, by decide⟩, by decide⟩ rfl
  have h₄ := h₃.step (c := .enqueue 32) ⟨⟨2, 2, by decide⟩, by decide⟩ rfl
  have hs := h₄.step (c := .queueUpdate 16) (show Call.enqueue 16 ∈ _ by decide) rfl
  obtain ⟨queue, hqueue⟩ := (queue_by_recency hs).1
  exact ⟨_, queue, hqueue⟩

/-- `dequeue` returns the node at the back and leaves the others in their order. -/
def DequeuesBack (s : State) (queue : List Nat) : Prop :=
  ∃ s', dequeue s = .ok (queue.getLastD 0, s') ∧ Queue s' queue.dropLast

theorem dequeue_single (h : Queue s [p]) : dequeue s = .ok (p, { s with front := 0 }) := by
  have hfront : s.front = p := h.front
  have hback : s.back = p := h.back
  have h0 : p ≠ 0 := h.links.1
  change (if s.back = 0 then pure 0 else if s.front = s.back then _ else _ : M Nat) s = _
  rw [if_neg (by rwa [hback]), if_pos (by rw [hfront, hback])]
  exact congrArg (fun a => Except.ok (a, _)) hfront

theorem dequeue_more {xs : List Nat} (h : Queue s (xs ++ [q, p])) :
    wp dequeue (fun _ => False) (fun a s' => a = q ∧ s'.back = p) s := by
  obtain ⟨x, hx, hprev, -⟩ := h.exists_node (show xs ++ [q, p] = (xs ++ [q]) ++ p :: [] by simp)
  obtain ⟨y, hy, -⟩ := h.exists_node (show xs ++ [q, p] = xs ++ q :: [p] from rfl)
  rw [List.getLastD_concat] at hprev
  have hback : s.back = p := by
    rw [h.back, getLastD_append_cons]
    rfl
  have hne : s.front ≠ s.back := by
    have hnodup := h.nodup
    rw [hback, h.front]
    cases xs with
    | nil =>
      intro hqp
      simp [show q = p from hqp] at hnodup
    | cons a xs =>
      intro hap
      simp [show a = p from hap] at hnodup
  have hp0 : p ≠ 0 := h.links.mem_ne_zero (by simp)
  have hq0 : q ≠ 0 := h.links.mem_ne_zero (by simp)
  rw [dequeue, wp_bind, wp_reads, if_neg (by rwa [hback]), if_neg hne, hback,
    wp_bind_of_ok (deref_eq hx), hprev]
  dsimp only
  rw [if_pos hq0, wp_bind_of_ok (assign_eq hy), wp_bind, wp_modify, wp_pure]
  exact ⟨rfl, hback⟩

/-- `dequeue` leaves `queue->back` at the node that is to go, so it takes away the wrong node
or leaves a queue that is not empty. -/
theorem dequeue_keeps_back (h : Queue s queue) (hne : queue ≠ []) : ¬ DequeuesBack s queue := by
  rintro ⟨s', hs', h'⟩
  rcases List.eq_nil_or_concat queue with rfl | ⟨xs, p, rfl⟩
  · exact hne rfl
  rw [List.concat_eq_append] at *
  rcases List.eq_nil_or_concat xs with rfl | ⟨xs, q, rfl⟩
  · rw [List.nil_append] at *
    have hback : s.back = p := h.back
    rw [dequeue_single h] at hs'
    obtain ⟨-, rfl⟩ := Prod.mk.inj (Except.ok.inj hs')
    exact h.links.1 (hback.symm.trans h'.back)
  · rw [List.concat_eq_append, List.append_assoc, List.cons_append, List.nil_append] at *
    obtain ⟨a, s'', hs'', ha, -⟩ := (dequeue_more h).returns
    rw [hs'] at hs''
    obtain ⟨hlast, -⟩ := Prod.mk.inj (Except.ok.inj hs'')
    rw [ha, getLastD_append_cons] at hlast
    have hnodup : [q, p].Nodup := (List.nodup_append.mp h.nodup).2.1
    have hpq : p = q := hlast
    simp [hpq] at hnodup

def twoNodes : State :=
  { initCache oneByteKeys largeBuffers with
    nodes := fun p => if p = 32 then some ⟨0, 16, 0, 2, 2⟩ else
      if p = 16 then some ⟨32, 0, 0, 1, 1⟩ else none
    queueSize := 2
    front := 32
    back := 16 }

theorem twoNodes_queue : Queue twoNodes [32, 16] :=
  ⟨⟨by decide, rfl, rfl, by decide, rfl, rfl, trivial⟩, rfl, rfl, by decide, rfl⟩

theorem dequeue_keeps_back_two : Queue twoNodes [32, 16] ∧ ¬ DequeuesBack twoNodes [32, 16] :=
  ⟨twoNodes_queue, dequeue_keeps_back twoNodes_queue (by decide)⟩

/-- The first call returns the node at the front, the second one returns it again. -/
theorem dequeue_twoNodes : ∃ s queue, queue ≠ [] ∧ Queue s queue ∧ ¬ DequeuesBack s queue := by
  refine ⟨twoNodes, [32, 16], by decide, twoNodes_queue, ?_⟩
  rintro ⟨s', hs', -⟩
  have hrun : wp dequeue (fun _ => False) (fun a _ => a = 32) twoNodes := by decide
  exact absurd (hrun.ok hs') (by decide)

end CS24.Proxy
