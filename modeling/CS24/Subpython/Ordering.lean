import CS24.Machine.PartialCompare
import CS24.Subpython.Ast
import CS24.Subpython.Dispatch

/-!
# The order of values

Values without cycles as trees: `None`, booleans, integers, strings and nested lists. The
comparison of two of them is a number, or a type error; it is 0 for equal values only, its
sign changes when they are swapped, and it is transitive where it does not fail.
-/

namespace CS24.Subpython
open Machine

inductive Val where
  | none
  | bool (value : Bool)
  | integer (value : Int64)
  | string (value : CString)
  | list (elements : List Val)

attribute [ext] CString

theorem Val.inductOn {P : Val → Prop} (none : P .none) (bool : ∀ b, P (.bool b))
    (integer : ∀ i, P (.integer i)) (string : ∀ s, P (.string s))
    (list : ∀ l, (∀ v ∈ l, P v) → P (.list l)) (v : Val) : P v :=
  v.rec (motive_1 := P) (motive_2 := fun l => ∀ v ∈ l, P v) none bool integer string list
    (fun _ h => absurd h List.not_mem_nil)
    fun _ _ hv hl _ h => (List.mem_cons.mp h).elim (fun heq => heq ▸ hv) (hl _)

variable {l m r : List UInt8}

theorem strcmp_swap (l r : List UInt8) : strcmp r l = -strcmp l r := by
  induction l generalizing r with
  | nil =>
    cases r with
    | nil => rfl
    | cons d r => exact (Int.neg_neg _).symm
  | cons c l ih =>
    cases r with
    | nil => rfl
    | cons d r =>
      by_cases h : c = d
      · rw [strcmp, strcmp, if_pos h, if_pos h.symm, ih]
      · rw [strcmp, strcmp, if_neg h, if_neg (Ne.symm h)]
        omega

theorem toNat_pos {c : UInt8} (h : (0 : UInt8) ∉ c :: l) : 0 < c.toNat := by
  apply Nat.pos_of_ne_zero
  intro h0
  apply h
  have hc : c = 0 := UInt8.toNat_inj.mp h0
  rw [hc]
  exact List.mem_cons_self ..

theorem strcmp_eq_zero_iff (hl : (0 : UInt8) ∉ l) (hr : (0 : UInt8) ∉ r) :
    strcmp l r = 0 ↔ l = r := by
  induction l generalizing r with
  | nil =>
    cases r with
    | nil => exact ⟨fun _ => rfl, fun _ => rfl⟩
    | cons d r =>
      have hpos := toNat_pos hr
      rw [strcmp]
      exact ⟨fun h => by omega, nofun⟩
  | cons c l ih =>
    cases r with
    | nil =>
      have hpos := toNat_pos hl
      rw [strcmp]
      exact ⟨fun h => by omega, nofun⟩
    | cons d r =>
      rw [strcmp, List.cons.injEq]
      by_cases h : c = d
      · rw [if_pos h, ih (fun h0 => hl (List.mem_cons_of_mem _ h0))
          (fun h0 => hr (List.mem_cons_of_mem _ h0)), and_iff_right h]
      · rw [if_neg h]
        have hne : c.toNat ≠ d.toNat := fun heq => h (UInt8.toNat_inj.mp heq)
        constructor
        · intro hsub
          omega
        · exact fun hboth => absurd hboth.1 h

theorem strcmp_trans (hlm : strcmp l m < 0) (hmr : strcmp m r < 0) : strcmp l r < 0 := by
  induction l generalizing m r with
  | nil =>
    cases m with
    | nil => exact absurd hlm (Int.lt_irrefl 0)
    | cons d m =>
      cases r with
      | nil =>
        rw [strcmp] at hmr
        omega
      | cons e r =>
        have hd : -(d.toNat : Int) < 0 := hlm
        have he : -(e.toNat : Int) < 0 := by
          rw [strcmp] at hmr
          split_ifs at hmr with h
          · rwa [← h]
          · omega
        exact he
  | cons c l ih =>
    cases m with
    | nil =>
      rw [strcmp] at hlm
      omega
    | cons d m =>
      cases r with
      | nil =>
        rw [strcmp] at hmr
        omega
      | cons e r =>
        rw [strcmp] at hlm hmr ⊢
        by_cases hcd : c = d
        · subst hcd
          rw [if_pos rfl] at hlm
          by_cases hce : c = e
          · rw [if_pos hce] at hmr ⊢
            exact ih hlm hmr
          · rwa [if_neg hce] at hmr ⊢
        · rw [if_neg hcd] at hlm
          by_cases hde : d = e
          · subst hde
            rwa [if_neg hcd]
          · rw [if_neg hde] at hmr
            have hce : c ≠ e := by
              rintro rfl
              omega
            rw [if_neg hce]
            omega

mutual

/-- What `compare` makes of two values; a type error is `none`. -/
def Val.cmp : Val → Val → Option Int
  | .none, .none => some 0
  | .bool a, .bool b => some ((if a then 1 else 0) - (if b then 1 else 0))
  | .integer i, .integer j => some ((if j < i then 1 else 0) - (if i < j then 1 else 0))
  | .string a, .string b => some (strcmp a.bytes b.bytes)
  | .list l, .list r => cmpList l r
  | _, _ => .none

def cmpList : List Val → List Val → Option Int
  | [], [] => some 0
  | [], _ :: _ => some (-1)
  | _ :: _, [] => some 1
  | a :: l, b :: r =>
    match a.cmp b with
    | .none => .none
    | some x => if x = 0 then cmpList l r else some x

end

theorem cmpList_eq (l r : List Val) : cmpList l r = lexCompare Val.cmp l r := by
  induction l generalizing r with
  | nil => cases r <;> rw [cmpList, lexCompare]
  | cons a l ih =>
    cases r with
    | nil => rw [cmpList, lexCompare]
    | cons b r =>
      cases h : a.cmp b with
      | none => rw [cmpList, lexCompare, h]
      | some x => rw [cmpList, lexCompare, h, ih]

@[simp] theorem cmp_list (l r : List Val) :
    (Val.list l).cmp (.list r) = lexCompare Val.cmp l r := by
  rw [Val.cmp, cmpList_eq]

variable {u v w : Val}

theorem Val.cmp_eq_zero_iff (v w : Val) : v.cmp w = some 0 ↔ v = w := by
  induction v using Val.inductOn generalizing w with
  | none => cases w <;> simp [Val.cmp]
  | bool a =>
    cases w with
    | bool b => cases a <;> cases b <;> simp [Val.cmp]
    | none | integer | string | list => simp [Val.cmp]
  | integer i =>
    cases w with
    | integer j =>
      rw [Val.cmp, Val.integer.injEq, Option.some.injEq, ← Int64.toInt_inj]
      simp only [Int64.lt_iff_toInt_lt]
      split_ifs <;> omega
    | none | bool | string | list => simp [Val.cmp]
  | string a =>
    cases w with
    | string b =>
      rw [Val.cmp, Val.string.injEq, Option.some.injEq,
        strcmp_eq_zero_iff a.terminated b.terminated,
        CString.ext_iff]
    | none | bool | integer | list => simp [Val.cmp]
  | list l ih =>
    cases w with
    | list r => rw [cmp_list, Val.list.injEq, lexCompare_eq_zero_iff ih]
    | none | bool | integer | string => simp [Val.cmp]

theorem Val.cmp_swap (v w : Val) : w.cmp v = (v.cmp w).map Neg.neg := by
  induction v using Val.inductOn generalizing w with
  | none => cases w <;> simp [Val.cmp]
  | bool a =>
    cases w with
    | bool b => cases a <;> cases b <;> simp [Val.cmp]
    | none | integer | string | list => simp [Val.cmp]
  | integer i =>
    cases w with
    | integer j =>
      rw [Val.cmp, Val.cmp, Option.map_some, Int.neg_sub]
    | none | bool | string | list => simp [Val.cmp]
  | string a =>
    cases w with
    | string b => rw [Val.cmp, Val.cmp, Option.map_some, strcmp_swap]
    | none | bool | integer | list => simp [Val.cmp]
  | list l ih =>
    cases w with
    | list r => rw [cmp_list, cmp_list, lexCompare_swap ih]
    | none | bool | integer | string => simp [Val.cmp]

theorem Val.less_trans (h : Less Val.cmp u v) (h' : Less Val.cmp v w) : Less Val.cmp u w := by
  induction u using Val.inductOn generalizing v w with
  | none =>
    obtain ⟨x, hx, hneg⟩ := h
    cases v with
    | none =>
      obtain rfl := Option.some.inj hx
      exact absurd hneg (by decide)
    | bool | integer | string | list => simp [Val.cmp] at hx
  | bool a =>
    obtain ⟨x, hx, hneg⟩ := h
    obtain ⟨y, hy, hneg'⟩ := h'
    cases v with
    | bool b =>
      cases w with
      | bool c =>
        refine ⟨_, rfl, ?_⟩
        simp only [Val.cmp, Option.some.injEq] at hx hy
        cases a <;> cases b <;> cases c <;> simp at hx hy ⊢ <;> omega
      | none | integer | string | list => simp [Val.cmp] at hy
    | none | integer | string | list => simp [Val.cmp] at hx
  | integer i =>
    obtain ⟨x, hx, hneg⟩ := h
    obtain ⟨y, hy, hneg'⟩ := h'
    cases v with
    | integer j =>
      cases w with
      | integer k =>
        refine ⟨_, rfl, ?_⟩
        simp only [Val.cmp, Option.some.injEq, Int64.lt_iff_toInt_lt] at hx hy ⊢
        split_ifs at hx hy ⊢ <;> omega
      | none | bool | string | list => simp [Val.cmp] at hy
    | none | bool | string | list => simp [Val.cmp] at hx
  | string a =>
    obtain ⟨x, hx, hneg⟩ := h
    obtain ⟨y, hy, hneg'⟩ := h'
    cases v with
    | string b =>
      cases w with
      | string c =>
        obtain rfl := Option.some.inj hx
        obtain rfl := Option.some.inj hy
        exact ⟨_, rfl, strcmp_trans hneg hneg'⟩
      | none | bool | integer | list => simp [Val.cmp] at hy
    | none | bool | integer | list => simp [Val.cmp] at hx
  | list l ih =>
    cases v with
    | list m =>
      cases w with
      | list r =>
        rw [Less, cmp_list] at h h' ⊢
        exact lexCompare_trans (fun a b => (Val.cmp_eq_zero_iff a b).mp)
          (fun a ha b c hab hbc => ih a ha hab hbc) h h'
      | none | bool | integer | string =>
        obtain ⟨y, hy, hneg⟩ := h'
        simp [Val.cmp] at hy
    | none | bool | integer | string =>
      obtain ⟨x, hx, hneg⟩ := h
      simp [Val.cmp] at hx

theorem Val.le_trans {x y : Int} (hx : u.cmp v = some x) (hx0 : x ≤ 0) (hy : v.cmp w = some y)
    (hy0 : y ≤ 0) : ∃ z, u.cmp w = some z ∧ z ≤ 0 := by
  rcases Int.le_iff_lt_or_eq.mp hx0 with hneg | rfl
  · rcases Int.le_iff_lt_or_eq.mp hy0 with hneg' | rfl
    · obtain ⟨z, hz, hlt⟩ := Val.less_trans ⟨x, hx, hneg⟩ ⟨y, hy, hneg'⟩
      exact ⟨z, hz, Int.le_of_lt hlt⟩
    · obtain rfl := (Val.cmp_eq_zero_iff v w).mp hy
      exact ⟨x, hx, hx0⟩
  · obtain rfl := (Val.cmp_eq_zero_iff u v).mp hx
    exact ⟨y, hy, hy0⟩

end CS24.Subpython
