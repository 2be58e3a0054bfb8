import CS24.Machine.Program

/-!
# Programs with fuel

A recursive program takes the number of calls it may make. More of it does not change what
is returned, so a program without the number returns what it returns with enough of it.
-/

namespace CS24.Machine

universe u
variable {σ ε α β : Type u} {s s' : σ} {c c' c'' : StateT σ (Except ε) α}
  {f f' : α → StateT σ (Except ε) β} {p : Nat → StateT σ (Except ε) α}
  {q : Nat → α → StateT σ (Except ε) β} {r r' : α × σ} {t : β × σ}

/-- Whatever `c` returns, `c'` returns as well. -/
def Below (c c' : StateT σ (Except ε) α) : Prop := ∀ s r, c s = .ok r → c' s = .ok r

theorem Below.refl (c : StateT σ (Except ε) α) : Below c c := fun _ _ h => h

theorem Below.trans (h : Below c c') (h' : Below c' c'') : Below c c'' :=
  fun s r hr => h' s r (h s r hr)

theorem Below.throw (e : ε) : Below (throw e) c := fun _ _ h => by cases h

theorem Below.bind (h : Below c c') (hf : ∀ a, Below (f a) (f' a)) :
    Below (c >>= f) (c' >>= f') := by
  intro s t ht
  obtain ⟨a, s', hc, hfa⟩ := bind_eq_ok.mp ht
  exact bind_eq_ok.mpr ⟨a, s', h s _ hc, hf a s' t hfa⟩

theorem Below.ite {P : Prop} [Decidable P] {d d' : StateT σ (Except ε) α} (h : Below c c')
    (h' : Below d d') : Below (if P then c else d) (if P then c' else d') := by
  split_ifs
  · exact h
  · exact h'

def Fueled (p : Nat → StateT σ (Except ε) α) : Prop := ∀ n, Below (p n) (p (n + 1))

theorem Fueled.mono (h : Fueled p) {m n : Nat} (hmn : m ≤ n) : Below (p m) (p n) := by
  induction hmn with
  | refl => exact .refl _
  | step _ ih => exact ih.trans (h _)

theorem Fueled.const (c : StateT σ (Except ε) α) : Fueled fun _ => c := fun _ => .refl c

theorem Fueled.bind (hp : Fueled p) (hq : ∀ a, Fueled fun n => q n a) :
    Fueled fun n => p n >>= q n :=
  fun n => (hp n).bind fun a => hq a n

/-- With enough fuel the program returns `r`. -/
def Returns (p : Nat → StateT σ (Except ε) α) (s : σ) (r : α × σ) : Prop := ∃ n, p n s = .ok r

theorem Returns.unique (hp : Fueled p) (h : Returns p s r) (h' : Returns p s r') : r = r' := by
  obtain ⟨m, hm⟩ := h
  obtain ⟨n, hn⟩ := h'
  have hm' := hp.mono (Nat.le_max_left m n) s r hm
  have hn' := hp.mono (Nat.le_max_right m n) s r' hn
  rw [hm'] at hn'
  exact Except.ok.inj hn'

theorem returns_congr (h : ∀ n, p n s = p n s') : Returns p s r ↔ Returns p s' r :=
  exists_congr fun n => by rw [h n]

theorem returns_const : Returns (fun _ => c) s r ↔ c s = .ok r :=
  ⟨fun ⟨_, h⟩ => h, fun h => ⟨0, h⟩⟩

theorem returns_bind (hp : Fueled p) (hq : ∀ a, Fueled fun n => q n a) :
    Returns (fun n => p n >>= q n) s t ↔
      ∃ a s', Returns p s (a, s') ∧ Returns (fun n => q n a) s' t := by
  constructor
  · rintro ⟨n, hn⟩
    obtain ⟨a, s', ha, ht⟩ := bind_eq_ok.mp hn
    exact ⟨a, s', ⟨n, ha⟩, ⟨n, ht⟩⟩
  · rintro ⟨a, s', ⟨m, hm⟩, ⟨n, hn⟩⟩
    exact ⟨max m n, bind_eq_ok.mpr ⟨a, s', hp.mono (Nat.le_max_left m n) s _ hm,
      (hq a).mono (Nat.le_max_right m n) s' _ hn⟩⟩

theorem returns_bind_const (hp : Fueled p) :
    Returns (fun n => p n >>= f) s t ↔ ∃ a s', Returns p s (a, s') ∧ f a s' = .ok t := by
  rw [returns_bind hp fun a => .const (f a)]
  simp only [returns_const]

theorem returns_bind_of_ok {a : α} (h : c s = .ok (a, s')) :
    Returns (fun n => c >>= q n) s t ↔ Returns (fun n => q n a) s' t := by
  refine exists_congr fun n => ?_
  change (c >>= q n) s = _ ↔ _
  rw [bind_of_ok h]

theorem returns_const_bind : Returns (fun n => c >>= q n) s t ↔
    ∃ a s', c s = .ok (a, s') ∧ Returns (fun n => q n a) s' t := by
  constructor
  · rintro ⟨n, hn⟩
    obtain ⟨a, s', hc, hq⟩ := bind_eq_ok.mp hn
    exact ⟨a, s', hc, n, hq⟩
  · rintro ⟨a, s', hc, n, hn⟩
    exact ⟨n, bind_eq_ok.mpr ⟨a, s', hc, hn⟩⟩

theorem returns_succ {e : ε} (h : p 0 = throw e) :
    Returns p s r ↔ Returns (fun n => p (n + 1)) s r := by
  constructor
  · rintro ⟨n, hn⟩
    cases n with
    | zero =>
      rw [h] at hn
      cases hn
    | succ n => exact ⟨n, hn⟩
  · rintro ⟨n, hn⟩
    exact ⟨n + 1, hn⟩

end CS24.Machine
