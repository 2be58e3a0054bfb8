import Mathlib

/-!
# Comparisons that may fail

A comparison of two values is a number whose sign tells their order, or it fails. Lists are
compared element by element up to the first difference, so that what comes after it may be
incomparable. Equality, antisymmetry and transitivity go from the elements to the lists.
-/

namespace CS24.Machine

variable {α : Type} {cmp : α → α → Option Int} {a b c : α} {l m r : List α}

def Less (cmp : α → α → Option Int) (a b : α) : Prop := ∃ x, cmp a b = some x ∧ x < 0

def lexCompare (cmp : α → α → Option Int) : List α → List α → Option Int
  | [], [] => some 0
  | [], _ :: _ => some (-1)
  | _ :: _, [] => some 1
  | a :: l, b :: r =>
    match cmp a b with
    | none => none
    | some x => if x = 0 then lexCompare cmp l r else some x

theorem lexCompare_fail (h : cmp a b = none) : lexCompare cmp (a :: l) (b :: r) = none := by
  rw [lexCompare, h]

theorem lexCompare_zero (h : cmp a b = some 0) :
    lexCompare cmp (a :: l) (b :: r) = lexCompare cmp l r := by
  rw [lexCompare, h]
  rfl

theorem lexCompare_differ {x : Int} (h : cmp a b = some x) (hx : x ≠ 0) :
    lexCompare cmp (a :: l) (b :: r) = some x := by
  rw [lexCompare, h]
  exact if_neg hx

theorem lexCompare_eq_zero_iff (h : ∀ a ∈ l, ∀ b, cmp a b = some 0 ↔ a = b) :
    lexCompare cmp l r = some 0 ↔ l = r := by
  induction l generalizing r with
  | nil =>
    cases r with
    | nil => exact ⟨fun _ => rfl, fun _ => rfl⟩
    | cons b r => exact ⟨fun hcmp => absurd (Option.some.inj hcmp) (by decide), nofun⟩
  | cons a l ih =>
    have hl : ∀ a ∈ l, ∀ b, cmp a b = some 0 ↔ a = b :=
      fun a ha => h a (List.mem_cons_of_mem _ ha)
    cases r with
    | nil => exact ⟨fun hcmp => absurd (Option.some.inj hcmp) (by decide), nofun⟩
    | cons b r =>
      have ha := h a (List.mem_cons_self ..) b
      rw [List.cons.injEq, ← ha, ← ih hl]
      cases hcmp : cmp a b with
      | none =>
        rw [lexCompare_fail hcmp]
        exact ⟨nofun, fun hboth => nomatch hboth.1⟩
      | some x =>
        by_cases hx : x = 0
        · subst hx
          rw [lexCompare_zero hcmp]
          exact ⟨fun hrest => ⟨rfl, hrest⟩, fun hboth => hboth.2⟩
        · rw [lexCompare_differ hcmp hx]
          exact ⟨fun heq => absurd (Option.some.inj heq) hx, fun hboth => hboth.1⟩

theorem lexCompare_swap (h : ∀ a ∈ l, ∀ b, cmp b a = (cmp a b).map Neg.neg) :
    lexCompare cmp r l = (lexCompare cmp l r).map Neg.neg := by
  induction l generalizing r with
  | nil => cases r <;> rfl
  | cons a l ih =>
    cases r with
    | nil => rfl
    | cons b r =>
      have ha := h a (List.mem_cons_self ..) b
      have hrest := ih (r := r) fun a ha => h a (List.mem_cons_of_mem _ ha)
      cases hcmp : cmp a b with
      | none =>
        rw [hcmp] at ha
        rw [lexCompare_fail hcmp, lexCompare_fail ha]
        rfl
      | some x =>
        rw [hcmp, Option.map_some] at ha
        by_cases hx : x = 0
        · subst hx
          rw [lexCompare_zero hcmp, lexCompare_zero ha, hrest]
        · rw [lexCompare_differ hcmp hx, lexCompare_differ ha (Int.neg_ne_zero.mpr hx)]
          rfl

theorem Less.lex_tail (h : cmp a b = some 0) (hrest : Less (lexCompare cmp) l r) :
    Less (lexCompare cmp) (a :: l) (b :: r) := by
  obtain ⟨x, hx, hneg⟩ := hrest
  exact ⟨x, by rw [lexCompare_zero h, hx], hneg⟩

theorem Less.lex_head (h : Less cmp a b) : Less (lexCompare cmp) (a :: l) (b :: r) := by
  obtain ⟨x, hx, hneg⟩ := h
  exact ⟨x, lexCompare_differ hx (by omega), hneg⟩

theorem Less.lex_cases (h : Less (lexCompare cmp) (a :: l) (b :: r)) :
    Less cmp a b ∨ cmp a b = some 0 ∧ Less (lexCompare cmp) l r := by
  obtain ⟨x, hx, hneg⟩ := h
  cases hcmp : cmp a b with
  | none =>
    rw [lexCompare_fail hcmp] at hx
    cases hx
  | some y =>
    by_cases hy : y = 0
    · subst hy
      rw [lexCompare_zero hcmp] at hx
      exact .inr ⟨rfl, x, hx, hneg⟩
    · rw [lexCompare_differ hcmp hy] at hx
      exact .inl ⟨x, hcmp.trans hx, hneg⟩

theorem lexCompare_trans (heq : ∀ a b, cmp a b = some 0 → a = b)
    (h : ∀ a ∈ l, ∀ b c, Less cmp a b → Less cmp b c → Less cmp a c)
    (hlm : Less (lexCompare cmp) l m) (hmr : Less (lexCompare cmp) m r) :
    Less (lexCompare cmp) l r := by
  have hnil : ∀ {m : List α}, ¬ Less (lexCompare cmp) m [] := by
    intro m hless
    obtain ⟨x, hx, hneg⟩ := hless
    cases m with
    | nil =>
      obtain rfl := Option.some.inj hx
      exact absurd hneg (by decide)
    | cons b m =>
      obtain rfl := Option.some.inj hx
      exact absurd hneg (by decide)
  induction l generalizing m r with
  | nil =>
    cases r with
    | nil => exact absurd hmr hnil
    | cons c r => exact ⟨-1, rfl, by decide⟩
  | cons a l ih =>
    cases m with
    | nil => exact absurd hlm hnil
    | cons b m =>
      cases r with
      | nil => exact absurd hmr hnil
      | cons c r =>
        rcases hlm.lex_cases with hab | ⟨hab, hlm'⟩
        · rcases hmr.lex_cases with hbc | ⟨hbc, -⟩
          · exact (h a (List.mem_cons_self ..) b c hab hbc).lex_head
          · obtain rfl := heq b c hbc
            exact hab.lex_head
        · obtain rfl := heq a b hab
          rcases hmr.lex_cases with hbc | ⟨hbc, hmr'⟩
          · exact hbc.lex_head
          · exact (ih (fun a ha => h a (List.mem_cons_of_mem _ ha)) hlm' hmr').lex_tail hbc

end CS24.Machine
