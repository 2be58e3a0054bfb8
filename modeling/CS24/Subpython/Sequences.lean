import CS24.Subpython.Slots

/-!
# Lists as sequences

A list and the caller of its operations. The elements behave as a sequence under index, index
assignment and index deletion, whatever else the release of an element frees: an operation that
raises an exception changes nothing else, and another one leaves the sequence in the first slots
of the array and `NULL_REF` in the rest, with exact counts.
-/

namespace CS24.Subpython
open Machine Mem RefCount

variable {s s' : State} {fl fl' : List Nat} {ext ext' : Int → Nat}
  {list array x r : Int} {elements front back rest : List Int} {i k n : Nat} {E : Stop → Prop}

/-- What a subscript may be. -/
inductive Subscript where
  | integer (i : Int)
  | bool (b : Bool)
  | other

/-- The index of a subscript in Python, where a bool is an integer. -/
def Subscript.index : Subscript → Option Int
  | .integer i => some i
  | .bool b => some (if b then 1 else 0)
  | .other => none

/-- The index of a subscript that has to be of the type of integers. -/
def Subscript.integerIndex : Subscript → Option Int
  | .integer i => some i
  | .bool _ | .other => none

def position (length : Nat) (i : Int) : Option Nat :=
  let idx := if i < 0 then i + length else i
  if idx < 0 ∨ length ≤ idx then none else some idx.toNat

/-- A call of one of the three operations -/
inductive Call where
  | get (subscr : Int)
  | set (subscr value : Int)
  | del (subscr : Int)

namespace Call

def subscr : Call → Int
  | get subscr | set subscr _ | del subscr => subscr

def references (list : Int) : Call → List Int
  | get subscr | del subscr => [list, subscr]
  | set subscr value => [list, subscr, value]

/-- What a call returns; `NULL_REF` stands for nothing. -/
def answer (elements : List Int) (p : Nat) : Call → Int
  | get _ => elements.getD p nullRef
  | set .. | del _ => nullRef

def change (elements : List Int) (p : Nat) : Call → List Int
  | get _ => elements
  | set _ value => elements.set p value
  | del _ => elements.eraseIdx p

/-- A call on a sequence, at an index that is not there if the subscript is of a wrong type. -/
def perform (elements : List Int) (index : Option Int) (call : Call) :
    Except ExceptionType (Int × List Int) :=
  match index with
  | none => .error .typeError
  | some i =>
    match position elements.length i with
    | none => .error .indexError
    | some p => .ok (call.answer elements p, call.change elements p)

/-- The elements after a call. -/
def after (elements : List Int) (index : Option Int) (call : Call) : List Int :=
  match call.perform elements index with
  | .ok (_, elements') => elements'
  | .error _ => elements

/-- The call of the interpreter's function -/
def run (n obj : Nat) : Call → M Int
  | get subscr => listSubscrGet obj subscr
  | set subscr value => do
    listSubscrSet n obj subscr value
    pure nullRef
  | del subscr => do
    listSubscrDel n obj subscr
    pure nullRef

end Call

theorem position_lt {length : Nat} {i : Int} {p : Nat} (h : position length i = some p) :
    p < length := by
  unfold position at h
  dsimp only at h
  split_ifs at h with hout
  · obtain rfl := Option.some.inj h
    omega
  · obtain rfl := Option.some.inj h
    omega

theorem split_at (h : i < elements.length) :
    ∃ front x back, elements = front ++ x :: back ∧ front.length = i := by
  refine ⟨elements.take i, elements[i], elements.drop (i + 1), ?_, ?_⟩
  · rw [List.getElem_cons_drop, List.take_append_drop]
  · rw [List.length_take]
    omega

theorem getElem?_middle : (front ++ x :: rest)[front.length]? = some x := by
  rw [List.getElem?_append_right le_rfl, Nat.sub_self]
  rfl

theorem set_middle (y : Int) : (front ++ x :: rest).set front.length y = front ++ y :: rest := by
  rw [List.set_append_right _ _ le_rfl, Nat.sub_self]
  rfl

theorem eraseIdx_middle : (front ++ x :: rest).eraseIdx front.length = front ++ rest := by
  rw [List.eraseIdx_append_of_length_le le_rfl, Nat.sub_self]
  rfl

/-- The elements are in the first slots of the array, and the other `k` slots are `NULL_REF`. -/
structure IsList (s : State) (fl : List Nat) (ext : Int → Nat) (list array : Int)
    (elements : List Int) (k : Nat) : Prop where
  at_ : ArrayAt s fl ext list array elements.length (elements ++ List.replicate k nullRef)
    (elements ++ List.replicate k nullRef)
  real : ∀ x ∈ elements, ¬ IsSpecial x

/-- The subscript that a reference leads to. -/
def State.subscript (s : State) (ref : Int) : Subscript :=
  match typeOf s.mem (s.addr ref) with
  | some .integer => .integer (integerValue s.mem (s.addr ref)).toInt
  | some .bool => .bool (s.addr ref == s.addr s.trueRef)
  | _ => .other

/-- The caller holds references to the list, the subscript and the value. -/
def Held (s : State) (ext : Int → Nat) (list : Int) (call : Call) : Prop :=
  ∀ r ∈ call.references list, r ∈ s.live ∧ 0 < ext r ∧ r < 2 ^ 31

def owned (ext : Int → Nat) (result : Int) : Int → Nat :=
  if IsSpecial result then ext else plus ext [result]

/-- The call of the interpreter did what the call on the sequence does. -/
def Refines (s : State) (ext : Int → Nat) (list array : Int) (k : Nat)
    (outcome : Except ExceptionType (Int × List Int)) (result : Int) (s' : State) : Prop :=
  match outcome with
  | .error type =>
    result = nullRef ∧ ∃ message, s' = { s with exception := some (type, message) }
  | .ok (answer, elements) =>
    result = answer ∧ (∃ fl' k', k ≤ k' ∧ IsList s' fl' (owned ext result) list array elements k') ∧
      Frame list array s s' ∧ ∀ u ∈ s.live, 0 < ext u → u ∈ s'.live

theorem Call.perform_out {call : Call} {i : Int} (h : position elements.length i = none) :
    call.perform elements (some i) = .error .indexError := by
  unfold Call.perform
  dsimp only
  rw [h]

theorem Call.perform_in {call : Call} {i : Int} {p : Nat}
    (h : position elements.length i = some p) :
    call.perform elements (some i) = .ok (call.answer elements p, call.change elements p) := by
  unfold Call.perform
  dsimp only
  rw [h]

theorem Heap.with_exception {L : Finset Int} {refs : Int → List Int} (h : Heap L refs fl s)
    (e : Option (ExceptionType × String)) : Heap L refs fl { s with exception := e } :=
  ⟨h.pool_pos, h.pool_end, h.table, h.live, h.free, h.live_apart, h.free_apart, h.chain_apart,
    h.chain, h.closed⟩

theorem not_special_of_live {L : Finset Int} {refs : Int → List Int} (h : Heap L refs fl s)
    (hx : x ∈ L) : ¬ IsSpecial x := by
  have h0 := (h.table x hx).1
  rintro (rfl | rfl)
  · exact absurd h0 (by decide)
  · exact absurd h0 (by decide)

theorem count_null {L : Finset Int} {refs : Int → List Int} (h : Heap L refs fl s) (hx : x ∈ L) :
    [nullRef].count x = 0 := by
  apply List.count_eq_zero_of_not_mem
  intro hmem
  exact not_special_of_live h hx (.inl (List.mem_singleton.mp hmem))

theorem ArrayAt.swap {size y z : Int} {slots : List Int}
    (h : ArrayAt s fl ext list array size slots (front ++ y :: rest))
    (hz : IsSpecial z ∨ z ∈ s.live)
    (hc : ∀ v ∈ s.live, ext v + [y].count v = ext' v + [z].count v) :
    ArrayAt s fl ext' list array size slots (front ++ z :: rest) := by
  have hmiddle : ∀ w v : Int, (front ++ w :: rest).count v =
      front.count v + ([w].count v + rest.count v) := by
    intro w v
    rw [List.count_append, ← List.singleton_append, List.count_append]
  apply h.recount
  · intro v hv
    have hswap := hc v hv
    rw [hmiddle, hmiddle]
    omega
  · intro v hv
    have hclosed := h.heap.closed array h.array_live v
    rw [Function.update_self] at hclosed
    rcases List.mem_append.mp hv with hv | hv
    · exact hclosed (List.mem_append_left _ hv)
    · rcases List.mem_cons.mp hv with rfl | hv
      · exact hz
      · exact hclosed (List.mem_append_right _ (List.mem_cons_of_mem _ hv))

namespace IsList

theorem live (h : IsList s fl ext list array elements k) (hx : x ∈ elements) : x ∈ s.live := by
  have hclosed := h.at_.heap.closed array h.at_.array_live x
  rw [Function.update_self] at hclosed
  exact (hclosed (List.mem_append_left _ hx)).resolve_left (h.real x hx)

theorem listCoerceSubscript_ok (h : IsList s fl ext list array elements k) (r : Int) :
    listCoerceSubscript (s.addr list) (s.addr r) s =
      match (s.subscript r).integerIndex with
      | none => .ok (0, { s with
          exception := some (.typeError, "list indices must be integers") })
      | some i =>
        match position elements.length i with
        | none => .ok (0, { s with exception := some (.indexError, "list index out of bounds") })
        | some p => .ok ((p : Int), s) := by
  rw [listCoerceSubscript, bind_of_ok (reads_eq _), State.subscript]
  by_cases htype : typeOf s.mem (s.addr r) = some .integer
  · rw [if_neg (not_not.mpr htype), htype]
    dsimp only [Subscript.integerIndex]
    rw [h.at_.size_eq, position]
    split_ifs with hneg hout hout
    · rfl
    · refine congrArg (fun z : Int => Except.ok (z, s)) ?_
      omega
    · rfl
    · refine congrArg (fun z : Int => Except.ok (z, s)) ?_
      omega
  · rw [if_pos htype]
    have hindex : Subscript.integerIndex (match typeOf s.mem (s.addr r) with
        | some .integer => .integer (integerValue s.mem (s.addr r)).toInt
        | some .bool => .bool (s.addr r == s.addr s.trueRef)
        | _ => .other) = none := by
      split
      · contradiction
      · rfl
      · rfl
    rw [hindex]
    rfl

theorem wp_subscripted {α : Type} {a : α} {f : Int → M α} {Q : α → State → Prop}
    (h : IsList s fl ext list array elements k) (hr : r ∈ s.live) (hnone : s.exception = none)
    (htype : (s.subscript r).integerIndex = none →
      ∀ message, Q a { s with exception := some (.typeError, message) })
    (hindex : ∀ i, (s.subscript r).integerIndex = some i → position elements.length i = none →
      ∀ message, Q a { s with exception := some (.indexError, message) })
    (hf : ∀ i front x back, (s.subscript r).integerIndex = some i →
      position elements.length i = some front.length → elements = front ++ x :: back →
      wp (f front.length) E Q s) :
    wp (listCoerce (s.addr list) >>= fun _ => deref r >>= fun v =>
      listCoerceSubscript (s.addr list) v >>= fun idx =>
        exceptionOccurred >>= fun failed => if failed then pure a else f idx) E Q s := by
  have hcoerce : listCoerce (s.addr list) s = .ok ((), s) :=
    coerce_ok h.at_.list_type (List.mem_singleton_self _)
  rw [wp_bind_of_ok hcoerce, wp_bind_of_ok (deref_eq h.at_.heap hr)]
  have hsubscript := h.listCoerceSubscript_ok r
  cases hi : (s.subscript r).integerIndex with
  | none =>
    rw [hi] at hsubscript
    rw [wp_bind_of_ok hsubscript]
    exact htype hi _
  | some i =>
    rw [hi] at hsubscript
    dsimp only at hsubscript
    cases hp : position elements.length i with
    | none =>
      rw [hp] at hsubscript
      rw [wp_bind_of_ok hsubscript]
      exact hindex i hi hp _
    | some p =>
      rw [hp] at hsubscript
      have hoccurred : exceptionOccurred s = .ok (false, s) := by
        change Except.ok (s.exception.isSome, s) = _
        rw [hnone]
        rfl
      obtain ⟨front, x, back, helements, rfl⟩ := split_at (position_lt hp)
      rw [wp_bind_of_ok hsubscript, wp_bind_of_ok hoccurred]
      exact hf i front x back hi hp helements

theorem around (h : IsList s fl ext list array (front ++ x :: back) k) :
    ArrayAt s fl ext list array (front ++ x :: back).length
      (front ++ x :: (back ++ List.replicate k nullRef))
      (front ++ x :: (back ++ List.replicate k nullRef)) := by
  have hat := h.at_
  rw [List.append_assoc, List.cons_append] at hat
  exact hat

theorem taken (h : IsList s fl ext list array (front ++ x :: back) k) :
    ArrayAt s fl (plus ext [x]) list array (front ++ x :: back).length
      (front ++ x :: (back ++ List.replicate k nullRef))
      (front ++ nullRef :: (back ++ List.replicate k nullRef)) := by
  apply h.around.swap (.inl (.inl rfl))
  intro y hy
  rw [plus_apply, count_null h.at_.heap hy, Nat.add_zero]

theorem get_spec (h : IsList s fl ext list array (front ++ x :: back) k)
    (hroom : E .outOfFuel ∨ s.count x + 1 < 2 ^ 64) :
    wp (do
      let array ← listRefarray (s.addr list)
      let result ← readSlot array front.length
      incref result
      pure result) E (Refines s ext list array k (.ok (x, front ++ x :: back))) s := by
  have hx : x ∈ s.live := h.live (by simp)
  have hat := h.around
  rw [wp_bind_of_ok hat.listRefarray_ok, wp_bind_of_ok (hat.readSlot_ok getElem?_middle)]
  refine (hat.incref_spec hx hroom).bind fun _ s' ⟨hat', hframe, hlive⟩ => ?_
  have howned : owned ext x = plus ext [x] := if_neg (h.real x (by simp))
  refine ⟨rfl, ⟨fl, k, le_rfl, ?_, h.real⟩, hframe, fun u hu _ => hlive ▸ hu⟩
  rw [howned, List.append_assoc, List.cons_append]
  exact hat'

theorem set_spec {value : Int} (h : IsList s fl ext list array (front ++ x :: back) k)
    (hlist : 0 < ext list) (hvalue : value ∈ s.live) (hheld : 0 < ext value)
    (hmax : value < 2 ^ 31) (hfuel : Fuel E s.live s n)
    (hroom : E .outOfFuel ∨ s.count value + 1 < 2 ^ 64) :
    wp (do
      let array ← listRefarray (s.addr list)
      decref n (← readSlot array front.length)
      incref value
      writeSlot array front.length value) E
      (fun _ => Refines s ext list array k (.ok (nullRef, front ++ value :: back)) nullRef) s := by
  have hx : x ∈ s.live := h.live (by simp)
  have hreal := not_special_of_live h.at_.heap hvalue
  have h0 := (h.at_.heap.table value hvalue).1
  have hat := h.around
  rw [wp_bind_of_ok hat.listRefarray_ok, wp_bind_of_ok (hat.readSlot_ok getElem?_middle)]
  refine (h.taken.release_spec (.inr hx) hlist hfuel).bind
    fun _ s₁ ⟨⟨fl', hat₁⟩, hframe₁, hstay⟩ => ?_
  obtain ⟨hvalue₁, hcount₁⟩ := hstay value hvalue hheld
  refine (hat₁.incref_spec hvalue₁ (hroom.imp_right fun hlt => by omega)).bind
    fun _ s₂ ⟨hat₂, hframe₂, hlive₂⟩ => ?_
  have hat₃ : ArrayAt s₂ fl' ext list array (front ++ x :: back).length
      (front ++ x :: (back ++ List.replicate k nullRef))
      (front ++ value :: (back ++ List.replicate k nullRef)) := by
    apply hat₂.swap (.inr (hlive₂ ▸ hvalue₁))
    intro y hy
    rw [plus_apply, count_null hat₂.heap hy, Nat.add_zero]
  have haddr : s₂.addr array = s.addr array :=
    (hframe₂.addr array hat₂.array_live).trans (hframe₁.addr array hat₁.array_live)
  have hi : front.length < (front ++ x :: (back ++ List.replicate k nullRef)).length := by
    rw [List.length_append, List.length_cons]
    omega
  have hwrite : wp (writeSlot (s₂.addr array) front.length value) E _ s₂ :=
    hat₃.writeSlot_spec hi (by omega) hmax
  rw [haddr] at hwrite
  refine hwrite.post fun _ s₃ ⟨hat₄, hframe₃, hlive₃⟩ => ?_
  rw [set_middle] at hat₄
  have hframe : Frame list array s s₂ := hframe₁.trans hframe₂ h.at_.heap (Finset.Subset.refl _)
  refine ⟨rfl, ⟨fl', k, le_rfl, ?_, ?_⟩, hframe.trans hframe₃ h.at_.heap (Finset.Subset.refl _),
    fun u hu hpos => ?_⟩
  · have howned : owned ext nullRef = ext := if_pos (.inl rfl)
    rw [howned, List.append_assoc, List.cons_append]
    have hlength : (front ++ value :: back).length = (front ++ x :: back).length := by simp
    rw [hlength]
    exact hat₄
  · intro y hy
    rcases List.mem_append.mp hy with hy | hy
    · exact h.real y (by simp [hy])
    · rcases List.mem_cons.mp hy with rfl | hy
      · exact hreal
      · exact h.real y (by simp [hy])
  · rw [hlive₃, hlive₂]
    exact (hstay u hu hpos).1

theorem del_spec (h : IsList s fl ext list array (front ++ x :: back) k) (hlist : 0 < ext list)
    (hfuel : Fuel E s.live s n) :
    wp (do
      let array ← listRefarray (s.addr list)
      modifyMem fun m => storeSizeField m (s.addr list) (sizeField m (s.addr list) - 1)
      decref n (← readSlot array front.length)
      let m ← reads State.mem
      let size := (sizeField m (s.addr list)).toNat
      shiftSlots array size (size - front.length)
      writeSlot array size nullRef) E
      (fun _ => Refines s ext list array k (.ok (nullRef, front ++ back)) nullRef) s := by
  have hx : x ∈ s.live := h.live (by simp)
  have hlength : ((front ++ x :: back).length : Int) = (front.length + back.length : Nat) + 1 := by
    simp only [List.length_append, List.length_cons]
    omega
  have hat := h.taken
  rw [hlength] at hat
  rw [wp_bind_of_ok h.around.listRefarray_ok]
  refine (hat.resize_spec (by omega)).bind fun _ s₁ ⟨hat₁, hframe₁, hlive₁, hfuel₁⟩ => ?_
  have haddr₁ : s₁.addr array = s.addr array := hframe₁.addr array hat₁.array_live
  have hread := hat₁.readSlot_ok getElem?_middle
  rw [haddr₁] at hread
  rw [wp_bind_of_ok hread]
  refine (hat₁.release_spec (.inr (hlive₁ ▸ hx)) hlist (hfuel₁ n hfuel)).bind
    fun _ s₂ ⟨⟨fl', hat₂⟩, hframe₂, hstay⟩ => ?_
  have haddr₂ : s₂.addr array = s.addr array :=
    (hframe₂.addr array hat₂.array_live).trans haddr₁
  have hlist₂ : s₂.addr list = s.addr list :=
    (hframe₂.addr list hat₂.list_live).trans (hframe₁.addr list hat₁.list_live)
  have hsize₂ : (sizeField s₂.mem (s.addr list)).toNat = front.length + back.length := by
    rw [← hlist₂, hat₂.size_eq]
    rfl
  rw [wp_bind, wp_reads]
  dsimp only
  rw [hsize₂, Nat.add_sub_cancel_left]
  obtain ⟨y, s₃, hshift, hat₃, hframe₃, hlive₃, haddr₃⟩ := hat₂.shiftSlots_spec
  rw [haddr₂] at hshift
  rw [wp_bind_of_ok hshift]
  have hi : front.length + back.length <
      (front ++ (back ++ y :: List.replicate k nullRef)).length := by
    simp only [List.length_append, List.length_cons]
    omega
  have hwrite : wp (writeSlot (s₃.addr array) (front.length + back.length) nullRef) E _ s₃ :=
    hat₃.writeSlot_spec hi (by decide) (by decide)
  rw [haddr₃, haddr₂] at hwrite
  refine hwrite.post fun _ s₄ ⟨hat₄, hframe₄, hlive₄⟩ => ?_
  have hslots : (front ++ (back ++ y :: List.replicate k nullRef)).set
      (front.length + back.length) nullRef = front ++ back ++ List.replicate (k + 1) nullRef := by
    rw [← List.append_assoc, ← List.length_append, set_middle, List.replicate_succ]
  rw [hslots] at hat₄
  have hperm : (front ++ nullRef :: (back ++ List.replicate k nullRef)).Perm
      (front ++ back ++ List.replicate (k + 1) nullRef) := by
    rw [List.replicate_succ, List.append_assoc]
    exact List.Perm.append_left front List.perm_middle.symm
  have hat₅ : ArrayAt s₄ fl' ext list array (front.length + back.length : Nat)
      (front ++ back ++ List.replicate (k + 1) nullRef)
      (front ++ back ++ List.replicate (k + 1) nullRef) := by
    apply hat₄.recount
    · intro v _
      rw [hperm.count_eq]
    · intro v hv
      have hclosed := hat₄.heap.closed array hat₄.array_live v
      rw [Function.update_self] at hclosed
      exact hclosed (hperm.mem_iff.mpr hv)
  have hframe := ((hframe₁.trans hframe₂ h.at_.heap (Finset.Subset.refl _)).trans hframe₃
    h.at_.heap (Finset.Subset.refl _)).trans hframe₄ h.at_.heap (Finset.Subset.refl _)
  refine ⟨rfl, ⟨fl', k + 1, by omega, ?_, ?_⟩, hframe, fun u hu hpos => ?_⟩
  · have howned : owned ext nullRef = ext := if_pos (.inl rfl)
    rw [howned, List.length_append]
    exact hat₅
  · intro v hv
    rcases List.mem_append.mp hv with hv | hv
    · exact h.real v (by simp [hv])
    · exact h.real v (by simp [hv])
  · rw [hlive₄, hlive₃]
    exact (hstay u (hlive₁ ▸ hu) hpos).1

attribute [local irreducible] wp in
theorem run_spec (h : IsList s fl ext list array elements k) (hnone : s.exception = none)
    {call : Call} (hheld : Held s ext list call) (hfuel : Fuel E s.live s n)
    (hroom : E .outOfFuel ∨ ∀ r ∈ s.live, s.count r + 1 < 2 ^ 64) :
    wp (call.run n (s.addr list)) E (Refines s ext list array k
      (call.perform elements (s.subscript call.subscr).integerIndex)) s := by
  have htype : (s.subscript call.subscr).integerIndex = none → ∀ message,
      Refines s ext list array k (call.perform elements (s.subscript call.subscr).integerIndex)
        nullRef { s with exception := some (.typeError, message) } := by
    intro hi message
    rw [hi]
    exact ⟨rfl, message, rfl⟩
  have hindex : ∀ i, (s.subscript call.subscr).integerIndex = some i →
      position elements.length i = none → ∀ message, Refines s ext list array k
        (call.perform elements (s.subscript call.subscr).integerIndex) nullRef
        { s with exception := some (.indexError, message) } := by
    intro i hi hp message
    rw [hi, Call.perform_out hp]
    exact ⟨rfl, message, rfl⟩
  cases call with
  | get subscr =>
    have hsubscr := (hheld subscr (by simp [Call.references])).1
    dsimp only [Call.subscr] at htype hindex ⊢
    rw [Call.run, listSubscrGet]
    refine wp_subscripted h hsubscr hnone htype hindex fun i front x back hi hp helements => ?_
    rw [helements] at h
    rw [hi, Call.perform_in hp, helements]
    have hx : x ∈ s.live := h.live (by simp)
    rw [Int.toNat_natCast, Call.answer, Call.change, List.getD_eq_getElem?_getD,
      getElem?_middle]
    have hroomx : E .outOfFuel ∨ s.count x + 1 < 2 ^ 64 := hroom.imp_right fun hlt => hlt x hx
    exact h.get_spec hroomx
  | set subscr value =>
    have hlist := (hheld list (by simp [Call.references])).2.1
    have hsubscr := (hheld subscr (by simp [Call.references])).1
    obtain ⟨hvalue, hpos, hmax⟩ := hheld value (by simp [Call.references])
    dsimp only [Call.subscr] at htype hindex ⊢
    rw [Call.run, listSubscrSet]
    refine wp.bind ?_ fun _ _ hrefines => (wp_pure nullRef).mpr hrefines
    refine wp_subscripted h hsubscr hnone htype hindex fun i front x back hi hp helements => ?_
    rw [helements] at h
    rw [hi, Call.perform_in hp, helements]
    rw [Int.toNat_natCast, Call.answer, Call.change, set_middle]
    exact h.set_spec hlist hvalue hpos hmax hfuel (hroom.imp_right fun hlt => hlt value hvalue)
  | del subscr =>
    have hlist := (hheld list (by simp [Call.references])).2.1
    have hsubscr := (hheld subscr (by simp [Call.references])).1
    dsimp only [Call.subscr] at htype hindex ⊢
    rw [Call.run, listSubscrDel]
    refine wp.bind ?_ fun _ _ hrefines => (wp_pure nullRef).mpr hrefines
    refine wp_subscripted h hsubscr hnone htype hindex fun i front x back hi hp helements => ?_
    rw [helements] at h
    rw [hi, Call.perform_in hp, helements]
    rw [Int.toNat_natCast, Call.answer, Call.change, eraseIdx_middle]
    exact h.del_spec hlist hfuel

end IsList

structure Elsewhere (list array : Int) (s s' : State) (ext' : Int → Nat) : Prop where
  heap : ∃ fl', Heap s'.live s'.fields fl' s'
  exact_ : Exact s'.live s'.fields s'.count ext'
  list_live : list ∈ s'.live
  list_type : typeOf s'.mem (s'.addr list) = typeOf s.mem (s.addr list)
  size : sizeField s'.mem (s'.addr list) = sizeField s.mem (s.addr list)
  values : listValues s'.mem (s'.addr list) = listValues s.mem (s.addr list)
  array_live : array ∈ s'.live
  array_type : typeOf s'.mem (s'.addr array) = typeOf s.mem (s.addr array)
  slots : s'.fields array = s.fields array

/-- The interpreter, the references from outside of the heap, and the sequence. -/
structure Config where
  state : State
  ext : Int → Nat
  elements : List Int

/-- A call on the list, whose subscript has the index that a function finds, and a call on the
sequence; or a step of other code. -/
inductive Step (index : Subscript → Option Int) (list array : Int) : Config → Config → Prop
  | call {c : Config} {n : Nat} {call : Call} {result : Int} {s' : State} :
    c.state.exception = none → Held c.state c.ext list call →
    call.run n (c.state.addr list) c.state = .ok (result, s') →
    Step index list array c ⟨s', owned c.ext result,
      call.after c.elements (index (c.state.subscript call.subscr))⟩
  | elsewhere {c : Config} {s' : State} {ext' : Int → Nat} :
    Elsewhere list array c.state s' ext' → Step index list array c ⟨s', ext', c.elements⟩

theorem Elsewhere.isList (h : Elsewhere list array s s' ext')
    (hs : IsList s fl ext list array elements k) :
    ∃ fl', IsList s' fl' ext' list array elements k := by
  obtain ⟨fl', hheap⟩ := h.heap
  have hslots : s'.fields array = elements ++ List.replicate k nullRef :=
    h.slots.trans hs.at_.slots_eq
  have hupdate : Function.update s'.fields array (elements ++ List.replicate k nullRef) =
      s'.fields := by
    rw [← hslots, Function.update_eq_self]
  refine ⟨fl', ⟨?_, ?_, h.list_live, ?_, ?_, ?_, h.array_live, ?_, hslots⟩, hs.real⟩
  · rw [hupdate]
    exact hheap
  · rw [hupdate]
    exact h.exact_
  · exact h.list_type.trans hs.at_.list_type
  · exact h.size.trans hs.at_.size_eq
  · exact h.values.trans hs.at_.values
  · exact h.array_type.trans hs.at_.array_type

theorem Refines.isList {call : Call} {index : Option Int} {result : Int}
    (h : Refines s ext list array k (call.perform elements index) result s')
    (hs : IsList s fl ext list array elements k) :
    ∃ fl' k', IsList s' fl' (owned ext result) list array (call.after elements index) k' := by
  unfold Call.after
  cases hperform : call.perform elements index with
  | error type =>
    rw [hperform] at h
    obtain ⟨rfl, message, rfl⟩ := h
    have howned : owned ext nullRef = ext := if_pos (.inl rfl)
    rw [howned]
    exact ⟨fl, k, ⟨⟨hs.at_.heap.with_exception _, hs.at_.exact_, hs.at_.list_live, hs.at_.list_type,
      hs.at_.size_eq, hs.at_.values, hs.at_.array_live, hs.at_.array_type, hs.at_.slots_eq⟩,
      hs.real⟩⟩
  | ok outcome =>
    rw [hperform] at h
    obtain ⟨-, ⟨fl', k', -, hlist⟩, -⟩ := h
    exact ⟨fl', k', hlist⟩

theorem Step.isList {c c' : Config} (h : Step Subscript.integerIndex list array c c')
    (hc : ∃ fl k, IsList c.state fl c.ext list array c.elements k) :
    ∃ fl k, IsList c'.state fl c'.ext list array c'.elements k := by
  obtain ⟨fl, k, hlist⟩ := hc
  cases h with
  | @call n call result s' hnone hheld hrun =>
    have hspec : wp (call.run n _) (fun _ => True) _ _ :=
      hlist.run_spec hnone hheld (.inl trivial) (.inl trivial)
    exact (hspec.ok hrun).isList hlist
  | elsewhere h =>
    obtain ⟨fl', hlist'⟩ := h.isList hlist
    exact ⟨fl', k, hlist'⟩

theorem IsList.runs (h : IsList s fl ext list array elements k) {c : Config}
    (hrun : Relation.ReflTransGen (Step Subscript.integerIndex list array) ⟨s, ext, elements⟩ c) :
    (∃ fl k, IsList c.state fl c.ext list array c.elements k) ∧
    ∀ call, c.state.exception = none → Held c.state c.ext list call →
      (∀ r ∈ c.state.live, c.state.count r + 1 < 2 ^ 64) →
      ∃ enough k, ∀ n ≥ enough, ∃ result s',
        call.run n (c.state.addr list) c.state = .ok (result, s') ∧
        Refines c.state c.ext list array k (call.perform c.elements
          (c.state.subscript call.subscr).integerIndex) result s' := by
  have hlist : ∃ fl k, IsList c.state fl c.ext list array c.elements k := by
    induction hrun with
    | refl => exact ⟨fl, k, h⟩
    | tail _ hstep ih => exact hstep.isList ih
  refine ⟨hlist, fun call hnone hheld hroom => ?_⟩
  obtain ⟨fl, k, hlist⟩ := hlist
  let width := c.state.live.sup fun u => (c.state.fields u).length
  refine ⟨c.state.live.card + width + 2, k, fun n hn => ?_⟩
  have hfuel : Fuel (fun _ => False) c.state.live c.state n :=
    .inr ⟨width, fun u hu => Finset.le_sup (f := fun u => (c.state.fields u).length) hu, hn⟩
  exact (hlist.run_spec hnone hheld hfuel (.inr hroom)).returns

end CS24.Subpython
