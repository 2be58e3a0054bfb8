import CS24.Subpython.Ordering
import CS24.Machine.Fuel

/-!
# Comparing values on the heap

A reference stands for a tree when following it through the heap finds the nodes of the tree;
parts of the tree may be shared. On two such references `compare` and `ref_eq` return with
enough fuel, what they return is the comparison of the trees, and they change nothing but the
exception.
-/

namespace CS24.Subpython
open Machine Mem

structure Refers (s : State) (ref : Int) (v : Nat) (type : ValueType) : Prop where
  deref : deref ref s = .ok (v, s)
  ne_zero : v ≠ 0
  type : typeOf s.mem v = some type

def HasString (m : Mem) : Nat → List UInt8 → Prop
  | a, [] => m a = 0
  | a, c :: rest => m a = c ∧ HasString m (a + 1) rest

/-- The reference stands for the tree. -/
inductive Denotes (s : State) : Int → Val → Prop where
  | none {v : Nat} : Refers s s.noneRef v .none → Denotes s s.noneRef .none
  | bool {b : Bool} {v : Nat} : Refers s (if b then s.trueRef else s.falseRef) v .bool →
      Denotes s (if b then s.trueRef else s.falseRef) (.bool b)
  | integer {ref : Int} {v : Nat} : Refers s ref v .integer →
      Denotes s ref (.integer (integerValue s.mem v))
  | string {ref : Int} {v : Nat} {str : CString} : Refers s ref v .string →
      HasString s.mem (v + 24) str.bytes → Denotes s ref (.string str)
  | list {ref : Int} {v array : Nat} {elements : List Val} : Refers s ref v .list →
      sizeField s.mem v = elements.length → Refers s (listValues s.mem v) array .refArray →
      elements.length ≤ capacity s.mem array →
      (∀ i x, elements[i]? = some x → Denotes s (slot s.mem array i) x) →
      Denotes s ref (.list elements)

/-- `init_singletons` made a value for `True` and another one for `False`. -/
def HasSingletons (s : State) : Prop :=
  ∃ t f, Refers s s.trueRef t .bool ∧ Refers s s.falseRef f .bool ∧ f ≠ t

def Val.type : Val → ValueType
  | .none => .none
  | .bool _ => .bool
  | .integer _ => .integer
  | .string _ => .string
  | .list _ => .list

/-- The result of a comparison: a number, or a `TypeError`. -/
def Answers (s : State) (o : Option Int) (result : Except Stop (Int × State)) : Prop :=
  match o with
  | some c => result = .ok (c, s)
  | none => ∃ message, result = .ok (0, { s with exception := some (.typeError, message) })

variable {s : State} {l r t : Int} {a b n k : Nat} {u v w : Val} {type type' : ValueType}

theorem assert_ok {p : Prop} [Decidable p] (h : p) : assert p s = .ok ((), s) := by
  rw [assert, if_pos h]
  rfl

theorem reads_eq {α : Type} (g : State → α) : reads g s = (.ok (g s, s) : Except Stop _) := rfl

theorem coerce_ok {types : List ValueType} (h : typeOf s.mem a = some type) (ht : type ∈ types) :
    coerce a types s = .ok ((), s) := by
  rw [coerce, bind_of_ok (reads_eq _)]
  exact assert_ok ⟨type, ht, h⟩

theorem tableIndex_ok (h : typeOf s.mem a = some type) (hne : type ≠ .refArray ∧ type ≠ .free) :
    tableIndex a s = .ok (type, s) := by
  rw [tableIndex, bind_of_ok (reads_eq _), h]
  obtain ⟨harray, hfree⟩ := hne
  cases type with
  | refArray => exact absurd rfl harray
  | free => exact absurd rfl hfree
  | none | bool | integer | string | list | dict => rfl

theorem Refers.mem_refTable (h : Refers s l a type) : a ∈ s.refTable := by
  have hderef := h.deref
  rw [Subpython.deref, bind_of_ok (reads_eq _)] at hderef
  obtain ⟨_, s₁, hassert, hderef⟩ := bind_eq_ok.mp hderef
  obtain ⟨_, s₂, hpool, hderef⟩ := bind_eq_ok.mp hderef
  obtain ⟨rfl, -⟩ := Prod.mk.inj (Except.ok.inj hderef)
  rw [assert] at hassert
  split_ifs at hassert with hrange
  · obtain ⟨h0, hlt⟩ := hrange
    have hindex : l.toNat < s.refTable.length := by
      have hlt' : l < s.refTable.length := hlt
      omega
    have hget : s.refTable.getD l.toNat 0 = s.refTable[l.toNat] := by
      rw [List.getD_eq_getElem?_getD, List.getElem?_eq_getElem hindex, Option.getD_some]
    rw [id, lookup, if_pos h0, hget]
    exact List.getElem_mem hindex
  · cases hassert

theorem readSlot_ok (h : Refers s l a .refArray) (hk : k < capacity s.mem a) :
    readSlot a k s = .ok (slot s.mem a k, s) := by
  have hpointer : checkPointer a .refArray s = .ok ((), s) := by
    rw [checkPointer, bind_of_ok (reads_eq _)]
    exact congrFun (if_pos ⟨h.ne_zero, h.mem_refTable, h.type⟩) s
  rw [readSlot, bind_of_ok hpointer, bind_of_ok (reads_eq _)]
  exact congrFun (if_pos hk) s

theorem compareError_answers (a b : Nat) (s : State) : Answers s none (compareError a b s) :=
  ⟨_, rfl⟩

theorem compare_succ (hl : Refers s l a type) (hr : Refers s r b type')
    (hne : type ≠ .refArray ∧ type ≠ .free) : compare (n + 1) l r s =
      (match fCmp n (compare n) type with
        | some f => if some type ≠ some type' then compareError a b else f a b
        | none => compareError a b) s := by
  cases hf : fCmp n (compare n) type <;>
    rw [compare, bind_of_ok hl.deref, bind_of_ok hr.deref, bind_of_ok (reads_eq _),
      bind_of_ok (tableIndex_ok hl.type hne), hl.type, hr.type, hf]

theorem refEq_succ (hl : Refers s l a type) (hr : Refers s r b type')
    (hne : type ≠ .refArray ∧ type ≠ .free) {f : Nat → Nat → M Bool}
    (hf : fEq n (refEq n) type = some f) : refEq (n + 1) l r s =
      (if some type ≠ some type' then pure false else f a b) s := by
  rw [refEq, bind_of_ok hl.deref, bind_of_ok hr.deref, bind_of_ok (reads_eq _), hl.type, hr.type]
  by_cases heq : some type ≠ some type'
  · exact (congrFun (if_pos heq) s).trans (congrFun (if_pos heq) s).symm
  · rw [if_neg heq, if_neg heq, bind_of_ok (tableIndex_ok hl.type hne), hf]

theorem stringFrom_ok {bytes : List UInt8} (h : HasString s.mem a bytes) (h0 : (0 : UInt8) ∉ bytes)
    (hn : bytes.length < n) : stringFrom n a s = .ok (bytes, s) := by
  induction bytes generalizing a n with
  | nil =>
    obtain ⟨n, rfl⟩ : ∃ k, n = k + 1 := ⟨n - 1, by rw [List.length_nil] at hn; omega⟩
    have hm : s.mem a = 0 := h
    rw [stringFrom, bind_of_ok (reads_eq _)]
    exact congrFun (if_pos hm) s
  | cons c bytes ih =>
    rw [List.length_cons] at hn
    obtain ⟨n, rfl⟩ : ∃ k, n = k + 1 := ⟨n - 1, by omega⟩
    obtain ⟨hm, hrest⟩ := h
    have hne : ¬ s.mem a = 0 := by
      rw [hm]
      rintro rfl
      exact h0 (List.mem_cons_self ..)
    have htail := ih (n := n) hrest (fun h => h0 (List.mem_cons_of_mem _ h)) (by omega)
    rw [stringFrom, bind_of_ok (reads_eq _)]
    rw [if_neg hne, bind_of_ok htail, hm]
    rfl

theorem stringOf_ok {str : CString} (h : typeOf s.mem a = some .string)
    (hstr : HasString s.mem (a + 24) str.bytes) (hn : str.bytes.length < n) :
    stringOf n a s = .ok (str.bytes, s) := by
  rw [stringOf, bind_of_ok (coerce_ok h (List.mem_singleton_self _))]
  exact stringFrom_ok hstr str.terminated hn

theorem integerOf_ok (h : typeOf s.mem a = some .integer) :
    integerOf a s = .ok (integerValue s.mem a, s) := by
  rw [integerOf, bind_of_ok (coerce_ok h (List.mem_singleton_self _))]
  rfl

theorem integerCmp_ok (ha : typeOf s.mem a = some .integer) (hb : typeOf s.mem b = some .integer) :
    integerCmp a b s = .ok ((if integerValue s.mem b < integerValue s.mem a then 1 else 0) -
      (if integerValue s.mem a < integerValue s.mem b then 1 else 0), s) := by
  rw [integerCmp, bind_of_ok (integerOf_ok ha), bind_of_ok (integerOf_ok hb)]
  rfl

theorem stringCmp_ok {x y : CString} (ha : typeOf s.mem a = some .string)
    (hb : typeOf s.mem b = some .string) (hxs : HasString s.mem (a + 24) x.bytes)
    (hys : HasString s.mem (b + 24) y.bytes) (hx : x.bytes.length < n) (hy : y.bytes.length < n) :
    stringCmp n a b s = .ok (strcmp x.bytes y.bytes, s) := by
  rw [stringCmp, bind_of_ok (stringOf_ok ha hxs hx), bind_of_ok (stringOf_ok hb hys hy)]
  rfl

theorem singletonBool_ok {t : Nat} (ht : Refers s s.trueRef t .bool)
    (h : typeOf s.mem a = some type) (hmem : type ∈ [ValueType.none, .bool]) :
    singletonBool a s = .ok (a == t, s) := by
  rw [singletonBool, bind_of_ok (coerce_ok h hmem), bind_of_ok (reads_eq _),
    bind_of_ok ht.deref]
  rfl

theorem singletonCmp_ok {t : Nat} (ht : Refers s s.trueRef t .bool)
    (ha : typeOf s.mem a = some type) (hb : typeOf s.mem b = some type)
    (hmem : type ∈ [ValueType.none, .bool]) : singletonCmp a b s =
      .ok ((if a == t then 1 else 0) - (if b == t then 1 else 0), s) := by
  rw [singletonCmp, bind_of_ok (coerce_ok ha hmem), bind_of_ok (reads_eq _),
    bind_of_ok (assert_ok (ha.trans hb.symm)), bind_of_ok (singletonBool_ok ht ha hmem),
    bind_of_ok (singletonBool_ok ht hb hmem)]
  rfl

theorem singletonEq_ok (ha : typeOf s.mem a = some type) (hb : typeOf s.mem b = some type)
    (hmem : type ∈ [ValueType.none, .bool]) : singletonEq a b s = .ok (a == b, s) := by
  rw [singletonEq, bind_of_ok (coerce_ok ha hmem), bind_of_ok (coerce_ok hb hmem)]
  rfl

theorem Denotes.refers (h : Denotes s l v) : ∃ a, Refers s l a v.type := by
  cases h with
  | none h | bool h | integer h | string h | list h => exact ⟨_, h⟩

theorem Val.type_ne (v : Val) : v.type ≠ .refArray ∧ v.type ≠ .free := by
  cases v <;> exact ⟨nofun, nofun⟩

theorem Val.cmp_of_type_ne (h : v.type ≠ w.type) : v.cmp w = .none := by
  cases v <;> cases w <;> first | rfl | exact absurd rfl h

theorem bool_eq {t f : Nat} (ht : Refers s s.trueRef t .bool)
    (hf : Refers s s.falseRef f .bool) {x : Bool}
    (h : Refers s (if x then s.trueRef else s.falseRef) a .bool) :
    a = if x then t else f := by
  cases x with
  | true =>
    have heq := h.deref.symm.trans ht.deref
    exact (Prod.mk.inj (Except.ok.inj heq)).1
  | false =>
    have heq := h.deref.symm.trans hf.deref
    exact (Prod.mk.inj (Except.ok.inj heq)).1

theorem compare_mismatch (hl : Denotes s l v) (hr : Denotes s r w) (h : v.type ≠ w.type) :
    Answers s (v.cmp w) (compare (n + 1) l r s) := by
  obtain ⟨a, ha⟩ := hl.refers
  obtain ⟨b, hb⟩ := hr.refers
  rw [compare_succ ha hb v.type_ne, Val.cmp_of_type_ne h]
  have hne : some v.type ≠ some w.type := fun heq => h (Option.some.inj heq)
  cases fCmp n (compare n) v.type with
  | none => exact compareError_answers a b s
  | some f =>
    dsimp only
    rw [if_pos hne]
    exact compareError_answers a b s

structure HasArray (s : State) (v array length : Nat) : Prop where
  type : typeOf s.mem v = some .list
  size : sizeField s.mem v = length
  room : length ≤ capacity s.mem array
  array : Refers s (listValues s.mem v) array .refArray

def lengthOrder (l r : Nat) : Int := (if r < l then 1 else 0) - (if l < r then 1 else 0)

theorem listRefarray_ok {array length : Nat} (h : HasArray s a array length) :
    listRefarray a s = .ok (array, s) := by
  rw [listRefarray, refarrayOf, bind_of_ok (reads_eq _), bind_of_ok h.array.deref,
    bind_of_ok (coerce_ok h.array.type (List.mem_singleton_self _))]
  rfl

section
variable {L R : List Val} {larray rarray m : Nat} {f : Int → Int → M Int}
  {g : Int → Int → M Bool}

theorem drop_step {i : Nat} (hk : k + 1 ≤ m) (hm : m ≤ L.length) (hi : i = m - (k + 1)) :
    ∃ x, L[i]? = some x ∧ L.drop i = x :: L.drop (m - k) := by
  have hlt : i < L.length := by omega
  have hnext : m - k = i + 1 := by omega
  exact ⟨L[i], List.getElem?_eq_getElem hlt, by rw [hnext]; exact List.drop_eq_getElem_cons hlt⟩

/-- What `list_cmp` makes of the result of its loop. -/
def afterLoop (L R : List Val) : Option Int → M Int
  | some comparison => pure comparison
  | none => pure (lengthOrder L.length R.length)

theorem drop_min_compare : lexCompare Val.cmp (L.drop (min L.length R.length))
    (R.drop (min L.length R.length)) = some (lengthOrder L.length R.length) := by
  rcases Nat.lt_trichotomy L.length R.length with h | h | h
  · rw [Nat.min_eq_left (Nat.le_of_lt h), List.drop_length, lengthOrder,
      if_neg (Nat.not_lt_of_gt h), if_pos h, List.drop_eq_getElem_cons h]
    rfl
  · rw [h, Nat.min_self, List.drop_length, ← h, List.drop_length, lengthOrder,
      if_neg (Nat.lt_irrefl _)]
    rfl
  · rw [Nat.min_eq_right (Nat.le_of_lt h), List.drop_length, lengthOrder, if_pos h,
      if_neg (Nat.not_lt_of_gt h), List.drop_eq_getElem_cons h]
    rfl

theorem listCmpFrom_answers (hexc : s.exception = none) (hl : Refers s l larray .refArray)
    (hr : Refers s r rarray .refArray) (hL : L.length ≤ capacity s.mem larray)
    (hR : R.length ≤ capacity s.mem rarray) (hm : m = min L.length R.length)
    (hf : ∀ i x y, L[i]? = some x → R[i]? = some y →
      Answers s (x.cmp y) (f (slot s.mem larray i) (slot s.mem rarray i) s)) (hk : k ≤ m) :
    Answers s (lexCompare Val.cmp (L.drop (m - k)) (R.drop (m - k)))
      ((listCmpFrom f larray rarray m k >>= afterLoop L R) s) := by
  induction k with
  | zero =>
    rw [Nat.sub_zero, hm, drop_min_compare]
    rfl
  | succ k ih =>
    generalize hi : m - (k + 1) = i
    obtain ⟨x, hx, hdropL⟩ := drop_step (L := L) hk (by omega) hi.symm
    obtain ⟨y, hy, hdropR⟩ := drop_step (L := R) hk (by omega) hi.symm
    have hlslot := readSlot_ok (k := i) hl (by omega)
    have hrslot := readSlot_ok (k := i) hr (by omega)
    have hxy := hf i x y hx hy
    have hloop : listCmpFrom f larray rarray m (k + 1) s = (do
        let comparison ← f (slot s.mem larray i) (slot s.mem rarray i)
        if ← exceptionOccurred then pure (some 0)
        else if comparison ≠ 0 then pure (some comparison)
        else listCmpFrom f larray rarray m k) s := by
      rw [listCmpFrom, hi, bind_of_ok hlslot, bind_of_ok hrslot]
    rw [hdropL, hdropR]
    cases hcmp : x.cmp y with
    | none =>
      rw [hcmp] at hxy
      obtain ⟨message, hresult⟩ := hxy
      rw [lexCompare_fail hcmp]
      rw [bind_of_ok hresult,
        bind_of_ok (show exceptionOccurred _ = .ok (true, _) from rfl)] at hloop
      exact ⟨message, bind_of_ok (hloop.trans (congrFun (if_pos rfl) _))⟩
    | some c =>
      rw [hcmp] at hxy
      have hresult : f (slot s.mem larray i) (slot s.mem rarray i) s = .ok (c, s) := hxy
      have hnone : exceptionOccurred s = .ok (false, s) := by
        rw [exceptionOccurred, reads_eq, hexc]
        rfl
      rw [bind_of_ok hresult, bind_of_ok hnone] at hloop
      have hloop' := hloop.trans (congrFun (if_neg Bool.false_ne_true) s)
      by_cases hc : c = 0
      · subst hc
        rw [lexCompare_zero hcmp, bind_congr_state (hloop'.trans (congrFun (if_neg (by decide)) s))]
        exact ih (by omega)
      · rw [lexCompare_differ hcmp hc]
        exact bind_of_ok (hloop'.trans (congrFun (if_pos hc) s))

theorem listCmp_answers (hexc : s.exception = none) (hl : HasArray s a larray L.length)
    (hr : HasArray s b rarray R.length) (hf : ∀ i x y, L[i]? = some x → R[i]? = some y →
      Answers s (x.cmp y) (f (slot s.mem larray i) (slot s.mem rarray i) s)) :
    Answers s (lexCompare Val.cmp L R) (listCmp f a b s) := by
  have hloop := listCmpFrom_answers (k := min L.length R.length) hexc hl.array hr.array hl.room
    hr.room rfl hf (Nat.le_refl _)
  rw [Nat.sub_self, List.drop_zero, List.drop_zero] at hloop
  have hmin : (if (L.length : Int) < R.length then (L.length : Int) else R.length).toNat =
      min L.length R.length := by
    split_ifs <;> omega
  have hcmp : listCmp f a b s =
      (listCmpFrom f larray rarray (min L.length R.length) (min L.length R.length) >>=
        afterLoop L R) s := by
    rw [listCmp, listCoerce, bind_of_ok (coerce_ok hl.type (List.mem_singleton_self _)), listCoerce,
      bind_of_ok (coerce_ok hr.type (List.mem_singleton_self _)), bind_of_ok (listRefarray_ok hl),
      bind_of_ok (listRefarray_ok hr), bind_of_ok (reads_eq _)]
    simp only [hl.size, hr.size, hmin]
    refine congrFun (congrArg (_ >>= ·) (funext fun o => ?_)) s
    cases o with
    | some c => rfl
    | none =>
      simp only [afterLoop, lengthOrder, Int.ofNat_lt]
  rw [hcmp]
  exact hloop

theorem listEqFrom_eq (hexc : s.exception = none) (hl : Refers s l larray .refArray)
    (hr : Refers s r rarray .refArray) (hL : L.length ≤ capacity s.mem larray)
    (hR : R.length ≤ capacity s.mem rarray) (hm : L.length = m) (hm' : R.length = m)
    (hg : ∀ i x y, L[i]? = some x → R[i]? = some y →
      g (slot s.mem larray i) (slot s.mem rarray i) s = .ok (x.cmp y == some 0, s)) (hk : k ≤ m) :
    listEqFrom g larray rarray m k s =
      .ok (lexCompare Val.cmp (L.drop (m - k)) (R.drop (m - k)) == some 0, s) := by
  induction k with
  | zero =>
    rw [Nat.sub_zero, ← hm, List.drop_length, hm, ← hm', List.drop_length]
    rfl
  | succ k ih =>
    generalize hi : m - (k + 1) = i
    obtain ⟨x, hx, hdropL⟩ := drop_step (L := L) hk (by omega) hi.symm
    obtain ⟨y, hy, hdropR⟩ := drop_step (L := R) hk (by omega) hi.symm
    have hlslot := readSlot_ok (k := i) hl (by omega)
    have hrslot := readSlot_ok (k := i) hr (by omega)
    have hnone : exceptionOccurred s = .ok (false, s) := by
      rw [exceptionOccurred, reads_eq, hexc]
      rfl
    rw [listEqFrom, hi, bind_of_ok hlslot, bind_of_ok hrslot, bind_of_ok (hg i x y hx hy),
      bind_of_ok hnone, hdropL, hdropR]
    cases hcmp : x.cmp y with
    | none =>
      rw [lexCompare_fail hcmp]
      rfl
    | some c =>
      by_cases hc : c = 0
      · subst hc
        rw [lexCompare_zero hcmp]
        exact (congrFun (if_neg (by decide)) s).trans (ih (by omega))
      · have hne : (some c == some 0) = false := by simpa using hc
        rw [lexCompare_differ hcmp hc, hne]
        rfl

theorem listEq_eq (hexc : s.exception = none) (hl : HasArray s a larray L.length)
    (hr : HasArray s b rarray R.length) (hg : ∀ i x y, L[i]? = some x → R[i]? = some y →
      g (slot s.mem larray i) (slot s.mem rarray i) s = .ok (x.cmp y == some 0, s)) :
    listEq g a b s = .ok (lexCompare Val.cmp L R == some 0, s) := by
  rw [listEq, listCoerce, bind_of_ok (coerce_ok hl.type (List.mem_singleton_self _)), listCoerce,
    bind_of_ok (coerce_ok hr.type (List.mem_singleton_self _)), bind_of_ok (reads_eq _)]
  by_cases hsize : L.length = R.length
  · have hfields : ¬ sizeField s.mem a ≠ sizeField s.mem b := by
      rw [hl.size, hr.size, hsize]
      exact not_not.mpr rfl
    have hloop := listEqFrom_eq (k := R.length) hexc hl.array hr.array hl.room hr.room hsize rfl hg
      (Nat.le_refl _)
    rw [Nat.sub_self, List.drop_zero, List.drop_zero] at hloop
    refine (congrFun (if_neg hfields) s).trans ?_
    rw [bind_of_ok (listRefarray_ok hl), bind_of_ok (listRefarray_ok hr), hl.size, hsize,
      Int.toNat_natCast]
    exact hloop
  · have hfields : sizeField s.mem a ≠ sizeField s.mem b := by
      rw [hl.size, hr.size]
      omega
    have hne : (lexCompare Val.cmp L R == some 0) = false := by
      rw [beq_eq_false_iff_ne]
      intro hzero
      have hlr := (lexCompare_eq_zero_iff fun x _ => x.cmp_eq_zero_iff).mp hzero
      exact hsize (congrArg List.length hlr)
    rw [hne]
    exact congrFun (if_pos hfields) s

end

def Settled (s : State) (l r : Int) (v w : Val) (n : Nat) : Prop :=
  Answers s (v.cmp w) (compare n l r s) ∧ refEq n l r s = .ok (v.cmp w == some 0, s)

theorem exists_bound {P : Nat → Nat → Prop} (h : ∀ i < k, ∃ N, ∀ n, N ≤ n → P i n) :
    ∃ N, ∀ n, N ≤ n → ∀ i < k, P i n := by
  induction k with
  | zero => exact ⟨0, fun n _ i hi => absurd hi (Nat.not_lt_zero i)⟩
  | succ k ih =>
    obtain ⟨M, hM⟩ := ih fun i hi => h i (Nat.lt_succ_of_lt hi)
    obtain ⟨N, hN⟩ := h k (Nat.lt_succ_self k)
    refine ⟨max M N, fun n hn i hi => ?_⟩
    rcases Nat.lt_succ_iff_lt_or_eq.mp hi with hlt | rfl
    · exact hM n ((Nat.le_max_left M N).trans hn) i hlt
    · exact hN n ((Nat.le_max_right M N).trans hn)

theorem settled_of_succ (N : Nat) (h : ∀ n, N ≤ n → Settled s l r v w (n + 1)) :
    ∃ N, ∀ n, N ≤ n → Settled s l r v w n := by
  refine ⟨N + 1, fun n hn => ?_⟩
  obtain ⟨k, rfl⟩ : ∃ k, n = k + 1 := ⟨n - 1, by omega⟩
  exact h k (by omega)

theorem settled_mismatch (hl : Denotes s l v) (hr : Denotes s r w) (h : v.type ≠ w.type) :
    Settled s l r v w (n + 1) := by
  refine ⟨compare_mismatch hl hr h, ?_⟩
  obtain ⟨a, ha⟩ := hl.refers
  obtain ⟨b, hb⟩ := hr.refers
  have hne : some v.type ≠ some w.type := fun heq => h (Option.some.inj heq)
  have hf : ∃ f, fEq n (refEq n) v.type = some f := by
    cases v <;> exact ⟨_, rfl⟩
  obtain ⟨f, hf⟩ := hf
  rw [refEq_succ ha hb v.type_ne hf, Val.cmp_of_type_ne h]
  exact congrFun (if_pos hne) s

theorem settled_same {fc : Nat → Nat → M Int} {fe : Nat → Nat → M Bool}
    (hl : Refers s l a type) (hr : Refers s r b type) (hne : type ≠ .refArray ∧ type ≠ .free)
    (hfc : fCmp n (compare n) type = some fc) (hfe : fEq n (refEq n) type = some fe)
    (hc : Answers s (v.cmp w) (fc a b s)) (he : fe a b s = .ok (v.cmp w == some 0, s)) :
    Settled s l r v w (n + 1) := by
  refine ⟨?_, ?_⟩
  · rw [compare_succ hl hr hne, hfc]
    dsimp only
    rw [if_neg (not_not.mpr rfl)]
    exact hc
  · rw [refEq_succ hl hr hne hfe, if_neg (not_not.mpr rfl)]
    exact he

theorem settled_none (hs : HasSingletons s) (hl : Denotes s l .none) (hr : Denotes s r .none) :
    Settled s l r .none .none (n + 1) := by
  obtain ⟨t, f, ht, -, -⟩ := hs
  cases hl with
  | none ha =>
    cases hr with
    | none hb =>
      obtain rfl := (Prod.mk.inj (Except.ok.inj (ha.deref.symm.trans hb.deref))).1
      have hmem : ValueType.none ∈ [ValueType.none, .bool] := List.mem_cons_self ..
      have hcmp := singletonCmp_ok ht ha.type ha.type hmem
      have heq := singletonEq_ok ha.type ha.type hmem
      rw [Int.sub_self] at hcmp
      rw [beq_self_eq_true] at heq
      exact settled_same ha ha ⟨nofun, nofun⟩ rfl rfl hcmp heq

theorem settled_bool {x y : Bool} (hs : HasSingletons s) (hl : Denotes s l (.bool x))
    (hr : Denotes s r (.bool y)) : Settled s l r (.bool x) (.bool y) (n + 1) := by
  obtain ⟨t, f, ht, hf, hne⟩ := hs
  have htf : (f == t) = false ∧ (t == f) = false :=
    ⟨beq_false_of_ne hne, beq_false_of_ne (Ne.symm hne)⟩
  cases hl with
  | bool ha =>
    cases hr with
    | bool hb =>
      have hmem : ValueType.bool ∈ [ValueType.none, .bool] :=
        List.mem_cons_of_mem _ (List.mem_cons_self ..)
      obtain rfl := bool_eq ht hf ha
      obtain rfl := bool_eq ht hf hb
      refine settled_same ha hb ⟨nofun, nofun⟩ rfl rfl ?_ ?_
      · refine (singletonCmp_ok ht ha.type hb.type hmem).trans ?_
        cases x <;> cases y <;> simp [htf]
      · refine (singletonEq_ok ha.type hb.type hmem).trans ?_
        cases x <;> cases y <;> simp [htf, Val.cmp]

theorem settled_integer {i j : Int64} (hl : Denotes s l (.integer i))
    (hr : Denotes s r (.integer j)) : Settled s l r (.integer i) (.integer j) (n + 1) := by
  cases hl with
  | integer ha =>
    cases hr with
    | integer hb =>
      have hcmp := integerCmp_ok ha.type hb.type
      refine settled_same ha hb ⟨nofun, nofun⟩ rfl rfl hcmp ?_
      rw [integerEq, bind_of_ok hcmp, Val.cmp]
      rfl

theorem settled_string {x y : CString} (hl : Denotes s l (.string x))
    (hr : Denotes s r (.string y)) (hx : x.bytes.length < n) (hy : y.bytes.length < n) :
    Settled s l r (.string x) (.string y) (n + 1) := by
  cases hl with
  | string ha hxs =>
    cases hr with
    | string hb hys =>
      have hcmp := stringCmp_ok ha.type hb.type hxs hys hx hy
      refine settled_same ha hb ⟨nofun, nofun⟩ rfl rfl hcmp ?_
      rw [stringEq, bind_of_ok hcmp, Val.cmp]
      rfl

theorem Denotes.elements {L : List Val} (h : Denotes s l (.list L)) : ∃ a array,
    Refers s l a .list ∧ HasArray s a array L.length ∧
      ∀ i x, L[i]? = some x → Denotes s (slot s.mem array i) x := by
  cases h with
  | list ha hsize harray hroom helements =>
    exact ⟨_, _, ha, ⟨ha.type, hsize, hroom, harray⟩, helements⟩

theorem settles (hexc : s.exception = none) (hs : HasSingletons s) (hl : Denotes s l v)
    (hr : Denotes s r w) : ∃ N, ∀ n, N ≤ n → Settled s l r v w n := by
  induction v using Val.inductOn generalizing l r w with
  | none =>
    cases w with
    | none => exact settled_of_succ 0 fun n _ => settled_none hs hl hr
    | bool | integer | string | list =>
      exact settled_of_succ 0 fun n _ => settled_mismatch hl hr nofun
  | bool x =>
    cases w with
    | bool y => exact settled_of_succ 0 fun n _ => settled_bool hs hl hr
    | none | integer | string | list =>
      exact settled_of_succ 0 fun n _ => settled_mismatch hl hr nofun
  | integer i =>
    cases w with
    | integer j => exact settled_of_succ 0 fun n _ => settled_integer hl hr
    | none | bool | string | list =>
      exact settled_of_succ 0 fun n _ => settled_mismatch hl hr nofun
  | string x =>
    cases w with
    | string y =>
      exact settled_of_succ (x.bytes.length + y.bytes.length + 1) fun n hn =>
        settled_string hl hr (by omega) (by omega)
    | none | bool | integer | list =>
      exact settled_of_succ 0 fun n _ => settled_mismatch hl hr nofun
  | list L ih =>
    cases w with
    | list R =>
      obtain ⟨a, larray, ha, harray, hL⟩ := hl.elements
      obtain ⟨b, rarray, hb, hbarray, hR⟩ := hr.elements
      have hpairs : ∀ i < L.length, ∃ N, ∀ n, N ≤ n → ∀ x y, L[i]? = some x → R[i]? = some y →
          Settled s (slot s.mem larray i) (slot s.mem rarray i) x y n := by
        intro i hi
        cases hy : R[i]? with
        | none => exact ⟨0, fun n _ x y _ h => nomatch h⟩
        | some y =>
          have hx : L[i]? = some L[i] := List.getElem?_eq_getElem hi
          obtain ⟨N, hN⟩ := ih L[i] (List.getElem_mem hi) (hL i _ hx) (hR i y hy)
          refine ⟨N, fun n hn x y' hx' hy' => ?_⟩
          obtain rfl := Option.some.inj (hx.symm.trans hx')
          obtain rfl := Option.some.inj hy'
          exact hN n hn
      obtain ⟨N, hN⟩ := exists_bound hpairs
      refine settled_of_succ N fun n hn => ?_
      have hn' : ∀ i x y, L[i]? = some x → R[i]? = some y →
          Settled s (slot s.mem larray i) (slot s.mem rarray i) x y n := fun i x y hx hy =>
        hN n hn i (List.getElem?_eq_some_iff.mp hx).1 x y hx hy
      refine settled_same ha hb ⟨nofun, nofun⟩ rfl rfl ?_ ?_
      · rw [cmp_list]
        exact listCmp_answers hexc harray hbarray fun i x y hx hy => (hn' i x y hx hy).1
      · rw [cmp_list]
        exact listEq_eq hexc harray hbarray fun i x y hx hy => (hn' i x y hx hy).2
    | none | bool | integer | string =>
      exact settled_of_succ 0 fun n _ => settled_mismatch hl hr nofun

/-- What the comparison operators make of the two references, given the comparison and equality
of them in one order and the comparison in the other order. -/
structure Consistent (s : State) (l r : Int) (n : Nat) (lr rl : Option Int) (equal : Bool) :
    Prop where
  raises : lr = none ↔ rl = none
  opposite : ∀ c c', lr = some c → rl = some c' → c'.sign = -c.sign
  zero : ∀ c, lr = some c → (c = 0 ↔ equal = true)
  operators : ∀ c c', lr = some c → rl = some c' →
    comparisonHolds c .lt = comparisonHolds c' .gt ∧
      comparisonHolds c .le = comparisonHolds c' .ge ∧ comparisonHolds c .equals = some equal
  compares : ∀ c type holds, lr = some c → comparisonHolds c type = some holds →
    refCompare n type l r s = boolRef holds s

theorem refCompare_eq {c : Int} {op : BuiltinType} {holds : Bool} (hexc : s.exception = none)
    (h : compare n l r s = .ok (c, s)) (hholds : comparisonHolds c op = some holds) :
    refCompare n op l r s = boolRef holds s := by
  have hnone : exceptionOccurred s = .ok (false, s) := by
    rw [exceptionOccurred, reads_eq, hexc]
    rfl
  rw [refCompare, bind_of_ok h, bind_of_ok hnone, hholds]
  rfl

theorem Settled.consistent (hexc : s.exception = none) (h : Settled s l r v w n) :
    Consistent s l r n (v.cmp w) (w.cmp v) (v.cmp w == some 0) := by
  have hswap := v.cmp_swap w
  have hsign : ∀ c c', v.cmp w = some c → w.cmp v = some c' → c' = -c := by
    intro c c' hc hc'
    rw [hc, hc'] at hswap
    exact Option.some.inj hswap
  refine ⟨?_, ?_, ?_, ?_, ?_⟩
  · rw [hswap, Option.map_eq_none_iff]
  · intro c c' hc hc'
    rw [hsign c c' hc hc', Int.sign_neg]
  · intro c hc
    rw [hc, beq_iff_eq, Option.some.injEq]
  · intro c c' hc hc'
    obtain rfl := hsign c c' hc hc'
    rw [hc]
    refine ⟨?_, ?_, rfl⟩
    · simp [comparisonHolds]
    · simp [comparisonHolds]
  · intro c op holds hc hholds
    have hanswer := h.1
    rw [hc] at hanswer
    exact refCompare_eq hexc hanswer hholds

/-- Order and equality agree on all values without cycles. -/
theorem order_and_equality (hexc : s.exception = none) (hs : HasSingletons s)
    (hl : Denotes s l u) (hr : Denotes s r v) (ht : Denotes s t w) :
    ∃ N, ∀ n, N ≤ n → ∃ lr rl rt lt equal,
      Answers s lr (compare n l r s) ∧ Answers s rl (compare n r l s) ∧
      Answers s rt (compare n r t s) ∧ Answers s lt (compare n l t s) ∧
      refEq n l r s = .ok (equal, s) ∧ Consistent s l r n lr rl equal ∧
      ∀ c c', lr = some c → c ≤ 0 → rt = some c' → c' ≤ 0 → ∃ c'', lt = some c'' ∧ c'' ≤ 0 := by
  obtain ⟨N₁, h₁⟩ := settles hexc hs hl hr
  obtain ⟨N₂, h₂⟩ := settles hexc hs hr hl
  obtain ⟨N₃, h₃⟩ := settles hexc hs hr ht
  obtain ⟨N₄, h₄⟩ := settles hexc hs hl ht
  refine ⟨N₁ + N₂ + N₃ + N₄, fun n hn => ?_⟩
  have hlr := h₁ n (by omega)
  refine ⟨_, _, _, _, _, hlr.1, (h₂ n (by omega)).1, (h₃ n (by omega)).1, (h₄ n (by omega)).1,
    hlr.2, hlr.consistent hexc, ?_⟩
  intro c c' hc hc0 hc' hc0'
  exact Val.le_trans hc hc0 hc' hc0'

/-- A pool that holds nothing but `True` and `False`. -/
def singletonsOnly : State where
  mem x := if x = 1000 ∨ x = 1024 then 1 else 0
  memorySize := 48
  memoryPool := 1000
  freeList := 0
  pool := 1000
  f := false
  halfwayPoint := 1024
  actualSize := 48
  refTable := [1000, 1024]
  exception := none
  globals := []
  noneRef := nullRef
  trueRef := 0
  falseRef := 1
  output := []
  held := []
  leaked := []

def withInteger (m : Mem) (v : Nat) (i : Int64) : Mem := storeInteger (storeType m v .integer) v i

def withArray (m : Mem) (v : Nat) (refs : List Int) : Mem :=
  refs.zipIdx.foldl (fun m slot => storeSlot m v slot.2 slot.1)
    (storeCapacity (storeType m v .refArray) v refs.length)

def withList (m : Mem) (v : Nat) (array : Int) (size : Nat) : Mem :=
  storeListValues (storeSizeField (storeType m v .list) v size) v array

/-- The lists `[7]`, `[7, 8]` and `[8]`, which share their elements -/
def threeLists : State :=
  let integers := withInteger (withInteger singletonsOnly.mem 1048 7) 1080 8
  let first := withList (withArray integers 1112 [2]) 1152 4 1
  let second := withList (withArray first 1192 [2, 3]) 1232 6 2
  { singletonsOnly with
    mem := withList (withArray second 1272 [3]) 1312 8 1
    memorySize := 352
    refTable := [1000, 1024, 1048, 1080, 1112, 1152, 1192, 1232, 1272, 1312] }

theorem threeLists_list {ref : Int} (values : Int) (v array : Nat) (refs : List Int)
    {elements : List Val} (hlist : Refers threeLists ref v .list)
    (hvalues : listValues threeLists.mem v = values)
    (harray : Refers threeLists values array .refArray)
    (hsize : sizeField threeLists.mem v = refs.length)
    (hcapacity : refs.length ≤ capacity threeLists.mem array)
    (hslots : ∀ i < refs.length, slot threeLists.mem array i = refs.getD i nullRef)
    (h : List.Forall₂ (Denotes threeLists) refs elements) :
    Denotes threeLists ref (.list elements) := by
  have hlength := h.length_eq
  refine .list hlist (hlength ▸ hsize) (hvalues.symm ▸ harray) (hlength ▸ hcapacity)
    fun i x hx => ?_
  obtain ⟨hi, rfl⟩ := List.getElem?_eq_some_iff.mp hx
  have hi' : i < refs.length := hlength ▸ hi
  rw [hslots i hi', List.getD_eq_getElem?_getD, List.getElem?_eq_getElem hi']
  exact h.get hi' hi

theorem threeLists_integer {ref : Int} {v : Nat} (i : Int64)
    (h : Refers threeLists ref v .integer) (hi : integerValue threeLists.mem v = i) :
    Denotes threeLists ref (.integer i) :=
  hi ▸ .integer h

theorem order_and_equality_lists : ∃ N, ∀ n, N ≤ n → ∃ lr rl rt lt equal,
    Answers threeLists lr (compare n 5 7 threeLists) ∧
    Answers threeLists rl (compare n 7 5 threeLists) ∧
    Answers threeLists rt (compare n 7 9 threeLists) ∧
    Answers threeLists lt (compare n 5 9 threeLists) ∧
    refEq n 5 7 threeLists = .ok (equal, threeLists) ∧
    Consistent threeLists 5 7 n lr rl equal ∧
    ∀ c c', lr = some c → c ≤ 0 → rt = some c' → c' ≤ 0 → ∃ c'', lt = some c'' ∧ c'' ≤ 0 := by
  have htrue : Refers threeLists threeLists.trueRef 1000 .bool :=
    ⟨rfl, by decide, by decide +kernel⟩
  have hfalse : Refers threeLists threeLists.falseRef 1024 .bool :=
    ⟨rfl, by decide, by decide +kernel⟩
  have hseven : Denotes threeLists 2 (.integer 7) :=
    threeLists_integer 7 ⟨rfl, by decide, by decide +kernel⟩ (by decide +kernel)
  have height : Denotes threeLists 3 (.integer 8) :=
    threeLists_integer 8 ⟨rfl, by decide, by decide +kernel⟩ (by decide +kernel)
  have hl : Denotes threeLists 5 (.list [.integer 7]) :=
    threeLists_list 4 1152 1112 [2] ⟨rfl, by decide, by decide +kernel⟩ (by decide +kernel)
      ⟨rfl, by decide, by decide +kernel⟩ (by decide +kernel) (by decide +kernel)
      (by decide +kernel) (.cons hseven .nil)
  have hr : Denotes threeLists 7 (.list [.integer 7, .integer 8]) :=
    threeLists_list 6 1232 1192 [2, 3] ⟨rfl, by decide, by decide +kernel⟩ (by decide +kernel)
      ⟨rfl, by decide, by decide +kernel⟩ (by decide +kernel) (by decide +kernel)
      (by decide +kernel) (.cons hseven (.cons height .nil))
  have ht : Denotes threeLists 9 (.list [.integer 8]) :=
    threeLists_list 8 1312 1272 [3] ⟨rfl, by decide, by decide +kernel⟩ (by decide +kernel)
      ⟨rfl, by decide, by decide +kernel⟩ (by decide +kernel) (by decide +kernel)
      (by decide +kernel) (.cons height .nil)
  exact order_and_equality rfl ⟨1000, 1024, htrue, hfalse, by decide⟩ hl hr ht

end CS24.Subpython
