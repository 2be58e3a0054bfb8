import Mathlib

/-!
# Deterministic transition systems

A machine is a partial step function. A forward simulation, in which every step of
the first machine is matched by at least one step of the second, makes the two
indistinguishable: they produce the same output, whether or not they stop, and they
stop in the same way.
-/

namespace CS24.Machine

variable {σ τ ω ι : Type*} {step : σ → Option σ} {step' : τ → Option τ} {s s' u : σ}
  {t t' w : τ} {m n : Nat}

/-- The state after `n` steps, when the machine does not stop before. -/
def stepN (step : σ → Option σ) : Nat → σ → Option σ
  | 0, s => some s
  | n + 1, s => (step s).bind (stepN step n)

def Steps (step : σ → Option σ) (s s' : σ) : Prop := ∃ n, stepN step n s = some s'

def StepsPlus (step : σ → Option σ) (s s' : σ) : Prop := ∃ n, stepN step (n + 1) s = some s'

theorem stepN_add (m n : Nat) (s : σ) :
    stepN step (m + n) s = (stepN step m s).bind (stepN step n) := by
  induction m generalizing s with
  | zero => simp [stepN]
  | succ m ih =>
    rw [Nat.succ_add, stepN, stepN, Option.bind_assoc]
    exact congrArg _ (funext ih)

theorem Steps.refl (s : σ) : Steps step s s := ⟨0, rfl⟩

theorem Steps.trans (h : Steps step s s') (h' : Steps step s' u) : Steps step s u := by
  obtain ⟨m, hm⟩ := h
  obtain ⟨n, hn⟩ := h'
  exact ⟨m + n, by rw [stepN_add, hm]; exact hn⟩

theorem StepsPlus.steps (h : StepsPlus step s s') : Steps step s s' := ⟨_, h.choose_spec⟩

theorem StepsPlus.of_step (h : step s = some s') : StepsPlus step s s' :=
  ⟨0, by simp [stepN, h]⟩

theorem Steps.of_step (h : step s = some s') : Steps step s s' := (StepsPlus.of_step h).steps

theorem StepsPlus.trans_steps (h : StepsPlus step s s') (h' : Steps step s' u) :
    StepsPlus step s u := by
  obtain ⟨m, hm⟩ := h
  obtain ⟨n, hn⟩ := h'
  refine ⟨m + n, ?_⟩
  rw [show m + n + 1 = m + 1 + n by omega, stepN_add, hm]
  exact hn

theorem Steps.trans_plus (h : Steps step s s') (h' : StepsPlus step s' u) :
    StepsPlus step s u := by
  obtain ⟨m, hm⟩ := h
  obtain ⟨n, hn⟩ := h'
  refine ⟨m + n, ?_⟩
  rw [Nat.add_assoc, stepN_add, hm]
  exact hn

theorem Steps.step_trans (h : step s = some s') (h' : Steps step s' u) : Steps step s u :=
  (Steps.of_step h).trans h'

theorem Steps.total (h : Steps step s s') (h' : Steps step s u) :
    Steps step s' u ∨ Steps step u s' := by
  obtain ⟨m, hm⟩ := h
  obtain ⟨n, hn⟩ := h'
  rcases Nat.le_total m n with hle | hle
  · obtain ⟨k, rfl⟩ := Nat.exists_eq_add_of_le hle
    rw [stepN_add, hm] at hn
    exact .inl ⟨k, hn⟩
  · obtain ⟨k, rfl⟩ := Nat.exists_eq_add_of_le hle
    rw [stepN_add, hn] at hm
    exact .inr ⟨k, hm⟩

theorem Steps.eq_of_stuck (h : Steps step s s') (hs : step s = none) : s' = s := by
  obtain ⟨n, hn⟩ := h
  cases n with
  | zero => exact (Option.some.inj hn).symm
  | succ n => simp [stepN, hs] at hn

theorem Steps.stuck_unique (h : Steps step s s') (h' : Steps step s u) (hs : step s' = none)
    (hu : step u = none) : s' = u := by
  rcases h.total h' with hsu | hus
  · exact (hsu.eq_of_stuck hs).symm
  · exact hus.eq_of_stuck hu

theorem Steps.invariant {P : σ → Prop} (hstep : ∀ s s', P s → step s = some s' → P s')
    (h : Steps step s s') (hs : P s) : P s' := by
  obtain ⟨n, hn⟩ := h
  induction n generalizing s with
  | zero => exact Option.some.inj hn ▸ hs
  | succ n ih =>
    rw [stepN] at hn
    cases hnext : step s with
    | none => simp [hnext] at hn
    | some u =>
      rw [hnext] at hn
      exact ih (hstep s u hs hnext) hn

theorem Steps.le_of_stuck (h : Steps step s s') (hn : stepN step n s = some u)
    (hu : step u = none) : ∃ m ≤ n, stepN step m s = some s' := by
  obtain ⟨m, hm⟩ := h
  rcases Nat.le_total m n with hle | hle
  · exact ⟨m, hle, hm⟩
  · obtain ⟨k, rfl⟩ := Nat.exists_eq_add_of_le hle
    rw [stepN_add, hn] at hm
    have hs : s' = u := Steps.eq_of_stuck ⟨k, hm⟩ hu
    exact ⟨n, Nat.le_refl n, hs ▸ hn⟩

theorem stepN_map {P : σ → Prop} {f : σ → τ}
    (hstep : ∀ s, P s → step' (f s) = (step s).map f)
    (hinv : ∀ s s', P s → step s = some s' → P s') (hs : P s) (n : Nat) :
    stepN step' n (f s) = (stepN step n s).map f := by
  induction n generalizing s with
  | zero => rfl
  | succ n ih =>
    rw [stepN, stepN, hstep s hs]
    cases hnext : step s with
    | none => rfl
    | some u => exact ih (hinv s u hs hnext)

def Simulates (step : σ → Option σ) (step' : τ → Option τ) (R : σ → τ → Prop) : Prop :=
  ∀ s s' t, R s t → step s = some s' → ∃ t', StepsPlus step' t t' ∧ R s' t'

variable {R : σ → τ → Prop}

theorem Simulates.forward (hsim : Simulates step step' R) (hr : R s t) (h : Steps step s s') :
    ∃ t', Steps step' t t' ∧ R s' t' := by
  obtain ⟨n, hn⟩ := h
  induction n generalizing s t with
  | zero => exact ⟨t, .refl t, Option.some.inj hn ▸ hr⟩
  | succ n ih =>
    rw [stepN] at hn
    cases hnext : step s with
    | none => simp [hnext] at hn
    | some u =>
      rw [hnext] at hn
      obtain ⟨v, hv, hru⟩ := hsim s u t hr hnext
      obtain ⟨t', ht', hrt⟩ := ih hru hn
      exact ⟨t', hv.steps.trans ht', hrt⟩

theorem Simulates.backward (hsim : Simulates step step' R) (hr : R s t) (h : Steps step' t w) :
    ∃ s' t', Steps step s s' ∧ R s' t' ∧ Steps step' t t' ∧
      (Steps step' w t' ∨ step s' = none ∧ Steps step' t' w) := by
  obtain ⟨n, hn⟩ := h
  induction n using Nat.strongRecOn generalizing s t with
  | ind n ih =>
    cases hnext : step s with
    | none => exact ⟨s, t, .refl s, hr, .refl t, .inr ⟨hnext, n, hn⟩⟩
    | some u =>
      obtain ⟨v, ⟨m, hm⟩, hru⟩ := hsim s u t hr hnext
      rcases Nat.le_total (m + 1) n with hle | hle
      · obtain ⟨k, rfl⟩ := Nat.exists_eq_add_of_le hle
        rw [stepN_add, hm] at hn
        obtain ⟨s', t', hs', hr', ht', hcase⟩ := ih k (by omega) hru hn
        exact ⟨s', t', .step_trans hnext hs', hr', Steps.trans ⟨_, hm⟩ ht', hcase⟩
      · obtain ⟨k, hk⟩ := Nat.exists_eq_add_of_le hle
        rw [hk, stepN_add, hn] at hm
        have hv : stepN step' (m + 1) t = some v := by
          rw [hk, stepN_add, hn]
          exact hm
        exact ⟨u, v, .of_step hnext, hru, ⟨_, hv⟩, .inl ⟨k, hm⟩⟩

/-- The values `vs` are output, perhaps with more to come. -/
def Outputs (step : σ → Option σ) (out : σ → List ω) (s : σ) (vs : List ω) : Prop :=
  ∃ s', Steps step s s' ∧ vs <+: out s'

/-- The run stops in a state of the given kind, with the values `vs` output. -/
def Ends (step : σ → Option σ) (out : σ → List ω) (kind : σ → Prop) (s : σ) (vs : List ω) : Prop :=
  ∃ s', Steps step s s' ∧ step s' = none ∧ kind s' ∧ out s' = vs

variable {out : σ → List ω} {vs : List ω}

theorem grows_of_steps (hgrows : ∀ s s', step s = some s' → out s <+: out s')
    (h : Steps step s s') : out s <+: out s' :=
  h.invariant (P := fun u => out s <+: out u)
    (fun u v hu huv => hu.trans (hgrows u v huv)) (List.prefix_refl _)

theorem outputs_of_steps (hgrows : ∀ s s', step s = some s' → out s <+: out s')
    (h : Steps step s s') : Outputs step out s vs ↔ Outputs step out s' vs := by
  constructor
  · rintro ⟨w, hw, hvs⟩
    rcases h.total hw with hsw | hws
    · exact ⟨w, hsw, hvs⟩
    · exact ⟨s', .refl s', hvs.trans (grows_of_steps hgrows hws)⟩
  · rintro ⟨w, hw, hvs⟩
    exact ⟨w, h.trans hw, hvs⟩

theorem ends_of_steps {kind : σ → Prop} (h : Steps step s s') :
    Ends step out kind s vs ↔ Ends step out kind s' vs := by
  constructor
  · rintro ⟨w, hw, hstuck, hrest⟩
    rcases h.total hw with hsw | hws
    · exact ⟨w, hsw, hstuck, hrest⟩
    · obtain rfl := hws.eq_of_stuck hstuck
      exact ⟨_, .refl _, hstuck, hrest⟩
  · rintro ⟨w, hw, hrest⟩
    exact ⟨w, h.trans hw, hrest⟩

/-- A simulation that respects the output and in which a stopped source state makes the
target stop in a state of the same kind. -/
structure Refines (step : σ → Option σ) (step' : τ → Option τ) (out : σ → List ω)
    (out' : τ → List ω) (kind : ι → σ → Prop) (kind' : ι → τ → Prop) (R : σ → τ → Prop) :
    Prop where
  simulates : Simulates step step' R
  out_eq : ∀ s t, R s t → out s = out' t
  grows : ∀ t t', step' t = some t' → out' t <+: out' t'
  stops : ∀ s t, R s t → step s = none → ∃ i t', kind i s ∧ Steps step' t t' ∧
    step' t' = none ∧ kind' i t' ∧ out' t' = out s
  kinds : ∀ i j s, kind i s → kind j s → i = j
  kinds' : ∀ i j t, kind' i t → kind' j t → i = j

variable {out' : τ → List ω} {kind : ι → σ → Prop} {kind' : ι → τ → Prop}

theorem Refines.outputs_iff (h : Refines step step' out out' kind kind' R) (hr : R s t) :
    Outputs step' out' t vs ↔ Outputs step out s vs := by
  constructor
  · rintro ⟨w, hw, hvs⟩
    obtain ⟨s', t', hs', hr', ht', hwt | ⟨hstuck, htw⟩⟩ := h.simulates.backward hr hw
    · refine ⟨s', hs', hvs.trans ?_⟩
      rw [h.out_eq s' t' hr']
      exact grows_of_steps h.grows hwt
    · obtain ⟨i, v, -, hv, hvstuck, -, hout⟩ := h.stops s' t' hr' hstuck
      refine ⟨s', hs', hvs.trans ?_⟩
      rw [← hout]
      rcases htw.total hv with hwv | hvw
      · exact grows_of_steps h.grows hwv
      · rw [hvw.eq_of_stuck hvstuck]
  · rintro ⟨s', hs', hvs⟩
    obtain ⟨t', ht', hr'⟩ := h.simulates.forward hr hs'
    exact ⟨t', ht', h.out_eq s' t' hr' ▸ hvs⟩

theorem Refines.ends_iff (h : Refines step step' out out' kind kind' R) (hr : R s t) (i : ι) :
    Ends step' out' (kind' i) t vs ↔ Ends step out (kind i) s vs := by
  constructor
  · rintro ⟨w, hw, hstuck, hkind, rfl⟩
    obtain ⟨s', t', hs', hr', ht', hcase⟩ := h.simulates.backward hr hw
    -- the first machine has stopped as well: a step of it would move the second past `w`
    have hs'stuck : step s' = none := by
      rcases hcase with hwt | ⟨hs'stuck, -⟩
      · obtain rfl := hwt.eq_of_stuck hstuck
        cases hnext : step s' with
        | none => rfl
        | some u =>
          obtain ⟨v, ⟨m, hm⟩, -⟩ := h.simulates s' u t' hr' hnext
          simp [stepN, hstuck] at hm
      · exact hs'stuck
    obtain ⟨j, v, hj, hv, hvstuck, hkind', hout⟩ := h.stops s' t' hr' hs'stuck
    obtain rfl := hw.stuck_unique (ht'.trans hv) hstuck hvstuck
    obtain rfl := h.kinds' i j w hkind hkind'
    exact ⟨s', hs', hs'stuck, hj, hout.symm⟩
  · rintro ⟨s', hs', hstuck, hkind, rfl⟩
    obtain ⟨t', ht', hr'⟩ := h.simulates.forward hr hs'
    obtain ⟨j, v, hj, hv, hvstuck, hkind', hout⟩ := h.stops s' t' hr' hstuck
    obtain rfl := h.kinds i j s' hkind hj
    exact ⟨v, ht'.trans hv, hvstuck, hkind', hout⟩

end CS24.Machine
