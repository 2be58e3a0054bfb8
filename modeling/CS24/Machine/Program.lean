import Mathlib

/-!
# Weakest preconditions of stateful programs

A program changes a state and returns a value, or stops with an error. `wp c E Q s`
says that from `s` the program `c` returns with a value and a state that satisfy `Q`,
or stops with an error that satisfies `E`. The choice of `E` makes it a statement of
total correctness, of safety or of partial correctness.
-/

namespace CS24.Machine

universe u
variable {σ ε α β : Type u} {s : σ} {E E' : ε → Prop} {Q Q' : α → σ → Prop}
  {R : β → σ → Prop} {c c' : StateT σ (Except ε) α} {f : α → StateT σ (Except ε) β}

def wp (c : StateT σ (Except ε) α) (E : ε → Prop) (Q : α → σ → Prop) (s : σ) : Prop :=
  match c s with
  | .ok (a, s') => Q a s'
  | .error e => E e

/-- The value of `g` at the current state. -/
def reads (g : σ → α) : StateT σ (Except ε) α := fun s => .ok (g s, s)

instance [∀ e, Decidable (E e)] [∀ a s', Decidable (Q a s')] : Decidable (wp c E Q s) :=
  match h : c s with
  | .ok (a, s') => decidable_of_iff (Q a s') (by rw [wp, h])
  | .error e => decidable_of_iff (E e) (by rw [wp, h])

theorem wp_of_ok {a : α} {s' : σ} (h : c s = .ok (a, s')) (hq : Q a s') : wp c E Q s := by
  rw [wp, h]
  exact hq

theorem wp.ok {a : α} {s' : σ} (h : wp c E Q s) (hc : c s = .ok (a, s')) : Q a s' := by
  rwa [wp, hc] at h

theorem wp.error {e : ε} (h : wp c E Q s) (hc : c s = .error e) : E e := by
  rwa [wp, hc] at h

theorem wp.returns (h : wp c (fun _ => False) Q s) : ∃ a s', c s = .ok (a, s') ∧ Q a s' := by
  unfold wp at h
  split at h
  · exact ⟨_, _, by assumption, h⟩
  · exact h.elim

theorem wp.mono (h : wp c E Q s) (hq : ∀ a s', Q a s' → Q' a s') (he : ∀ e, E e → E' e) :
    wp c E' Q' s := by
  unfold wp at h ⊢
  split at h
  · exact hq _ _ h
  · exact he _ h

theorem wp.post (h : wp c E Q s) (hq : ∀ a s', Q a s' → Q' a s') : wp c E Q' s :=
  h.mono hq fun _ he => he

theorem wp_of_forall (hq : ∀ a s', Q a s') (he : ∀ e, E e) : wp c E Q s := by
  unfold wp
  split
  · exact hq _ _
  · exact he _

theorem bind_eq_ok {t : β × σ} :
    (c >>= f) s = .ok t ↔ ∃ a s', c s = .ok (a, s') ∧ f a s' = .ok t := by
  change Except.bind (c s) _ = _ ↔ _
  cases hc : c s with
  | ok x =>
    constructor
    · exact fun h => ⟨x.1, x.2, rfl, h⟩
    · rintro ⟨a, s', h, ht⟩
      obtain rfl : x = (a, s') := Except.ok.inj h
      exact ht
  | error e =>
    constructor
    · intro h
      cases h
    · rintro ⟨a, s', h, -⟩
      cases h

theorem bind_of_ok {a : α} {s' : σ} (h : c s = .ok (a, s')) : (c >>= f) s = f a s' := by
  change Except.bind (c s) _ = _
  rw [h]
  rfl

theorem bind_of_error {e : ε} (h : c s = .error e) : (c >>= f) s = .error e := by
  change Except.bind (c s) _ = _
  rw [h]
  rfl

theorem pure_eq_ok {a b : α} {s' : σ} (h : (pure a : StateT σ (Except ε) α) s = .ok (b, s')) :
    a = b ∧ s = s' := by
  obtain ⟨ha, hs⟩ := Prod.mk.inj (Except.ok.inj h)
  exact ⟨ha, hs⟩

theorem bind_congr_state {s' : σ} (h : c s = c' s') : (c >>= f) s = (c' >>= f) s' := by
  change Except.bind (c s) _ = Except.bind (c' s') _
  rw [h]

theorem wp_bind : wp (c >>= f) E R s ↔ wp c E (fun a s' => wp (f a) E R s') s := by
  unfold wp
  cases hc : c s with
  | ok p => rw [bind_of_ok hc]
  | error e => rw [bind_of_error hc]

theorem wp_bind_of_ok {a : α} {s' : σ} (h : c s = .ok (a, s')) :
    wp (c >>= f) E R s ↔ wp (f a) E R s' := by
  rw [wp_bind, wp, h]

theorem wp.bind (h : wp c E Q s) (hf : ∀ a s', Q a s' → wp (f a) E R s') : wp (c >>= f) E R s :=
  wp_bind.mpr (h.post hf)

@[simp] theorem wp_pure (a : α) : wp (pure a) E Q s ↔ Q a s := Iff.rfl

@[simp] theorem wp_throw (e : ε) : wp (throw e : StateT σ (Except ε) α) E Q s ↔ E e := Iff.rfl

@[simp] theorem wp_reads (g : σ → α) : wp (reads g) E Q s ↔ Q (g s) s := Iff.rfl

@[simp] theorem wp_modify {Q : PUnit → σ → Prop} (g : σ → σ) :
    wp (modify g) E Q s ↔ Q ⟨⟩ (g s) := Iff.rfl

theorem wp_ite {p : Prop} [Decidable p] :
    wp (if p then c else c') E Q s ↔ (p → wp c E Q s) ∧ (¬p → wp c' E Q s) := by
  split_ifs with hp
  · simp [hp]
  · simp [hp]

end CS24.Machine
