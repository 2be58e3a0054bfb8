import CS24.TeenyBasic.Scanner
import CS24.TeenyBasic.Statements

/-!
# Termination

When the loop of `main` ends. For each mode of the scanner the parser has something left to
do. A character that is read leaves the parser with what the next mode has left to do, so
what happens is decided where the file ends: an operator there is read again and again,
since looking for its operand goes back by one.
-/

namespace CS24.TeenyBasic
open Machine

variable {text t w : List Char} {b c last : Char} {s s₁ s' : Stream} {o o' : Option Node}
  {d n : Nat} {g : Goal} {K : Stream → Prop}

def Reaches (p : Nat → Parse (Option Node)) (s s' : Stream) : Prop := ∃ o, Returns p s (o, s')

/-- The loop of `main` ends. -/
def Halts (s : Stream) : Prop := ∃ r, Returns (fun n => mainLoop n 0) s r

theorem halts_eof (heof : s.eof = true) : Halts s := ⟨_, 1, mainLoop_eof heof 0⟩

theorem halts_of_yields {asts : List Node} (h : Yields s asts) : Halts s := by
  obtain ⟨s', hs'⟩ := h
  exact ⟨_, hs'⟩

theorem halts_iff (heof : s.eof = false) :
    Halts s ↔ ∃ s', Reaches statement s s' ∧ Halts s' := by
  constructor
  · rintro ⟨r, n, hn⟩
    cases n with
    | zero =>
      change mainLoop 0 0 s = _ at hn
      rw [mainLoop] at hn
      cases hn
    | succ n =>
      change mainLoop (n + 1) 0 s = _ at hn
      have hn' := hn
      rw [mainLoop, bind_of_ok (show reads Stream.eof s = .ok (_, _) from rfl),
        if_neg (ne_true_of_eq_false heof)] at hn'
      obtain ⟨o, s', hst, -⟩ := bind_eq_ok.mp hn'
      refine ⟨s', ⟨o, n, hst⟩, ?_⟩
      cases o with
      | none =>
        rw [mainLoop_none heof hst] at hn
        exact ⟨r, n, hn⟩
      | some ast =>
        rw [mainLoop_some heof hst] at hn
        obtain ⟨r', s'', hloop, -⟩ := bind_eq_ok.mp hn
        rw [mainLoop_labelNo n _ 0] at hloop
        exact ⟨_, n, hloop⟩
  · rintro ⟨s', ⟨o, m, hst⟩, r, n, hn⟩
    have hn' := (mainLoop_fueled 0).mono (Nat.le_max_left n m) s' _ hn
    have hst' := statement_fueled.mono (Nat.le_max_right n m) s _ hst
    cases o with
    | none => exact ⟨r, max n m + 1, (mainLoop_none heof hst' 0).trans hn'⟩
    | some ast =>
      refine ⟨((ast :: r.1.1, r.1.2), r.2), max n m + 1, (mainLoop_some heof hst' 0).trans
        (bind_eq_ok.mpr ⟨r.1, r.2, ?_, rfl⟩)⟩
      rw [mainLoop_labelNo _ _ 0]
      exact hn'

theorem termLoop_any (h : termLoop n o s = .ok (o', s')) (p : Option Node) :
    ∃ p', termLoop n p s = .ok (p', s') := by
  induction n generalizing o s p with
  | zero =>
    rw [termLoop] at h
    cases h
  | succ n ih =>
    rw [termLoop] at h ⊢
    obtain ⟨next, s₁, hadvance, h⟩ := bind_eq_ok.mp h
    rw [bind_of_ok hadvance]
    split_ifs at h ⊢ with hnext
    · obtain ⟨right, s₂, hfactor, h⟩ := bind_eq_ok.mp h
      rw [bind_of_ok hfactor]
      exact ih h _
    · obtain ⟨_, s₂, hrewind, h⟩ := bind_eq_ok.mp h
      obtain ⟨-, rfl⟩ := pure_eq_ok h
      exact ⟨p, bind_of_ok hrewind⟩

theorem expressionLoop_any (h : expressionLoop n o s = .ok (o', s')) (p : Option Node) :
    ∃ p', expressionLoop n p s = .ok (p', s') := by
  induction n generalizing o s p with
  | zero =>
    rw [expressionLoop] at h
    cases h
  | succ n ih =>
    rw [expressionLoop] at h ⊢
    obtain ⟨next, s₁, hadvance, h⟩ := bind_eq_ok.mp h
    rw [bind_of_ok hadvance]
    split_ifs at h ⊢ with hnext
    · obtain ⟨right, s₂, hterm, h⟩ := bind_eq_ok.mp h
      rw [bind_of_ok hterm]
      exact ih h _
    · obtain ⟨_, s₂, hrewind, h⟩ := bind_eq_ok.mp h
      obtain ⟨-, rfl⟩ := pure_eq_ok h
      exact ⟨p, bind_of_ok hrewind⟩

theorem compareRest_any (h : compareRest o n s = .ok (o', s')) (p : Option Node) :
    ∃ p', compareRest p n s = .ok (p', s') := by
  rw [compareRest] at h ⊢
  obtain ⟨next, s₁, hadvance, h⟩ := bind_eq_ok.mp h
  rw [bind_of_ok hadvance]
  split_ifs at h ⊢ with hnext
  · obtain ⟨right, s₂, hexpr, h⟩ := bind_eq_ok.mp h
    obtain ⟨-, rfl⟩ := pure_eq_ok h
    exact ⟨_, bind_of_ok hexpr⟩
  · exact ⟨o', h⟩

theorem closeParen_any (h : closeParen o s = .ok (o', s')) (p : Option Node) :
    ∃ p', closeParen p s = .ok (p', s') := by
  rw [closeParen] at h ⊢
  obtain ⟨next, s₁, hadvance, h⟩ := bind_eq_ok.mp h
  rw [bind_of_ok hadvance]
  split_ifs at h ⊢ with hnext
  · exact ⟨o', h⟩
  · obtain ⟨-, rfl⟩ := pure_eq_ok h
    exact ⟨p, rfl⟩

theorem thenRest_any (h : thenRest o n s = .ok (o', s')) (p : Option Node) :
    ∃ p', thenRest p n s = .ok (p', s') := by
  rw [thenRest] at h ⊢
  obtain ⟨next, s₁, hword, h⟩ := bind_eq_ok.mp h
  rw [bind_of_ok hword]
  cases next with
  | none => cases h
  | some next =>
    simp only at h ⊢
    split_ifs at h ⊢ with hnext
    · exact ⟨o', h⟩
    · obtain ⟨branch, s₂, hst, h⟩ := bind_eq_ok.mp h
      obtain ⟨-, rfl⟩ := pure_eq_ok h
      exact ⟨_, bind_of_ok hst⟩

theorem reaches_any {q : Option Node → Nat → Parse (Option Node)}
    (hq : ∀ {n o o' s s'}, q o n s = .ok (o', s') → ∀ p, ∃ p', q p n s = .ok (p', s'))
    (o p : Option Node) : Reaches (q o) s s' ↔ Reaches (q p) s s' := by
  constructor
  · rintro ⟨o', n, h⟩
    obtain ⟨p', hp⟩ := hq h p
    exact ⟨p', n, hp⟩
  · rintro ⟨p', n, h⟩
    obtain ⟨o', ho⟩ := hq h o
    exact ⟨o', n, ho⟩

theorem reaches_unique {p : Nat → Parse (Option Node)} {Q : Stream → Prop}
    (h : ∀ r, Returns p s r ↔ r = (o, s₁)) : (∃ s', Reaches p s s' ∧ Q s') ↔ Q s₁ := by
  constructor
  · rintro ⟨s', ⟨o', hs'⟩, hQ⟩
    obtain rfl : s' = s₁ := congrArg Prod.snd ((h _).mp hs')
    exact hQ
  · exact fun hQ => ⟨s₁, ⟨o, (h _).mpr rfl⟩, hQ⟩

theorem reaches_termLoop (o p : Option Node) :
    Reaches (fun n => termLoop n o) s s' ↔ Reaches (fun n => termLoop n p) s s' :=
  reaches_any (q := fun o n => termLoop n o) (fun h p => termLoop_any h p) o p

theorem reaches_expressionLoop (o p : Option Node) :
    Reaches (fun n => expressionLoop n o) s s' ↔ Reaches (fun n => expressionLoop n p) s s' :=
  reaches_any (q := fun o n => expressionLoop n o) (fun h p => expressionLoop_any h p) o p

/-- After an operand: the loops of `term` and `expression`, and then `K`. -/
def Loops (K : Stream → Prop) (s : Stream) : Prop :=
  ∃ s₁, Reaches (fun n => termLoop n none) s s₁ ∧
    ∃ s₂, Reaches (fun n => expressionLoop n none) s₁ s₂ ∧ K s₂

/-- After the condition of an `IF`. -/
def Branches (s : Stream) : Prop := ∃ s', Reaches (thenRest none) s s' ∧ Halts s'

def Closes : Nat → Goal → Stream → Prop
  | 0, .value, s => Halts s
  | 0, .left, s => ∃ s', Reaches (compareRest none) s s' ∧ Branches s'
  | 0, .right, s => Branches s
  | d + 1, g, s => ∃ o s', closeParen none s = .ok (o, s') ∧ Loops (Closes d g) s'

def Starts (d : Nat) (g : Goal) (s : Stream) : Prop := ∃ s', Reaches expression s s' ∧ Closes d g s'

def Operands (K : Stream → Prop) (s : Stream) : Prop := ∃ s', Reaches factor s s' ∧ Loops K s'

/-- After the variable of a `LET`. -/
def Equals (s : Stream) : Prop :=
  ∃ c s', advance s = .ok (c, s') ∧ if c = '=' then Starts 0 .value s' else Halts s'

/-- After `LET`. -/
def Assigns (s : Stream) : Prop :=
  ∃ c s', advance s = .ok (c, s') ∧ if isVariableName c then Equals s' else Halts s'

def Resumes : Word → Option (List Char) → Stream → Prop
  | .statement, none, s => Halts s
  | .statement, some w, s => ∃ s', Reaches (wordRest w) s s' ∧ Halts s'
  | .target, _, s => Halts s
  | .branch, none, _ => False
  | .branch, some _, s => Halts s
  | .number d g, _, s => Loops (Closes d g) s

/-- What is left to do at the rest `t` of the file. -/
def Mode.Left (text : List Char) : Mode → List Char → Prop
  | .word kind w, t => ∃ o s',
      advanceUntilSeparatorLoop (t.length + 1) w (pos text t) = .ok (o, s') ∧ Resumes kind o s'
  | .comment, t => ∃ s', skipLineLoop (t.length + 1) (pos text t) = .ok ((), s') ∧ Halts s'
  | .letName, t => Assigns (pos text t)
  | .letEquals, t => Equals (pos text t)
  | .start d g, t => Starts d g (pos text t)
  | .operand d g, t => Operands (Closes d g) (pos text t)
  | .after d g, t => Loops (Closes d g) (pos text t)
  | .overflow, _ => False

theorem eof_of_word {v : List Char} (h : advanceUntilSeparatorLoop n w s = .ok (some v, s'))
    (heof : s.eof = false) : s'.eof = false := by
  induction n generalizing w s with
  | zero =>
    rw [advanceUntilSeparatorLoop] at h
    cases h
  | succ n ih =>
    have hterminate : ∀ {s : Stream}, terminate w s = .ok (some v, s') → s.eof = false →
        s'.eof = false := by
      intro s h heof
      rw [terminate] at h
      split_ifs at h
      · obtain ⟨-, rfl⟩ := Prod.mk.inj (Except.ok.inj h)
        exact heof
      · cases h
    rw [advanceUntilSeparatorLoop] at h
    obtain ⟨x, s₁, hgetc, h⟩ := bind_eq_ok.mp h
    rw [fgetc] at hgetc
    cases hafter : s.after with
    | nil =>
      rw [hafter] at hgetc
      obtain ⟨rfl, -⟩ := Prod.mk.inj (Except.ok.inj hgetc)
      cases h
    | cons c rest =>
      rw [hafter] at hgetc
      obtain ⟨rfl, rfl⟩ := Prod.mk.inj (Except.ok.inj hgetc)
      simp only at h
      split_ifs at h
      · obtain ⟨_, s₂, hrewind, h⟩ := bind_eq_ok.mp h
        obtain ⟨-, rfl⟩ := Prod.mk.inj (Except.ok.inj hrewind)
        exact hterminate h rfl
      · exact hterminate h heof
      · exact ih h heof
      · cases h

theorem reaches_statement : Reaches statement s s' ↔ ∃ o s₁,
    advanceUntilSeparator s = .ok (o, s₁) ∧ match o with
      | none => s' = s₁
      | some w => Reaches (wordRest w) s₁ s' := by
  cases hword : advanceUntilSeparator s with
  | error e =>
    constructor
    · rintro ⟨o, n, h⟩
      cases n with
      | zero =>
        rw [statement] at h
        cases h
      | succ n =>
        rw [statement] at h
        obtain ⟨_, _, hok, -⟩ := bind_eq_ok.mp h
        rw [hword] at hok
        cases hok
    · rintro ⟨o, s₁, hok, -⟩
      cases hok
  | ok r =>
    obtain ⟨o, s₁⟩ := r
    cases o with
    | none =>
      constructor
      · rintro ⟨o, h⟩
        exact ⟨none, s₁, rfl, congrArg Prod.snd ((statement_none hword).mp h)⟩
      · rintro ⟨o, s₂, hok, hmatch⟩
        obtain ⟨rfl, rfl⟩ := Prod.mk.inj (Except.ok.inj hok)
        obtain rfl := hmatch
        exact ⟨none, (statement_none hword).mpr rfl⟩
    | some w =>
      constructor
      · rintro ⟨o, h⟩
        exact ⟨some w, s₁, rfl, o, (statement_word hword).mp h⟩
      · rintro ⟨o, s₂, hok, hmatch⟩
        obtain ⟨rfl, rfl⟩ := Prod.mk.inj (Except.ok.inj hok)
        obtain ⟨o', h⟩ := hmatch
        exact ⟨o', (statement_word hword).mpr h⟩

theorem halts_pos : Halts (pos text t) ↔ (Mode.word .statement []).Left text t := by
  rw [halts_iff rfl, Mode.Left]
  constructor
  · rintro ⟨s', hst, hhalts⟩
    obtain ⟨o, s₁, hword, hmatch⟩ := reaches_statement.mp hst
    refine ⟨o, s₁, hword, ?_⟩
    cases o with
    | none =>
      obtain rfl := hmatch
      exact hhalts
    | some w => exact ⟨s', hmatch, hhalts⟩
  · rintro ⟨o, s₁, hword, hresumes⟩
    cases o with
    | none => exact ⟨s₁, reaches_statement.mpr ⟨none, s₁, hword, rfl⟩, hresumes⟩
    | some w =>
      obtain ⟨s', hmatch, hhalts⟩ := hresumes
      exact ⟨s', reaches_statement.mpr ⟨some w, s₁, hword, hmatch⟩, hhalts⟩

theorem branches_pos : Branches (pos text t) ↔ (Mode.word .branch []).Left text t := by
  rw [Branches, Mode.Left]
  constructor
  · rintro ⟨s', ⟨o', n, h⟩, hhalts⟩
    have hthen := h
    rw [thenRest] at h
    obtain ⟨o, s₁, hword, -⟩ := bind_eq_ok.mp h
    refine ⟨o, s₁, hword, ?_⟩
    cases o with
    | none => exact absurd ⟨n, hthen⟩ (thenRest_null hword)
    | some w =>
      by_cases hw : w = "THEN".toList
      · obtain rfl := hw
        obtain ⟨o'', s₂, hst, heq⟩ := (thenRest_iff hword).mp ⟨n, hthen⟩
        obtain rfl : s' = s₂ := congrArg Prod.snd heq
        exact (halts_iff (eof_of_word hword rfl)).mpr ⟨s', ⟨o'', hst⟩, hhalts⟩
      · have heq := (thenRest_other hword hw).mp ⟨n, hthen⟩
        obtain rfl : s' = s₁ := congrArg Prod.snd heq
        exact hhalts
  · rintro ⟨o, s₁, hword, hresumes⟩
    cases o with
    | none => exact absurd hresumes id
    | some w =>
      by_cases hw : w = "THEN".toList
      · obtain rfl := hw
        obtain ⟨s', ⟨o'', hst⟩, hhalts⟩ := (halts_iff (eof_of_word hword rfl)).mp hresumes
        exact ⟨s', ⟨_, (thenRest_iff hword).mpr ⟨o'', s', hst, rfl⟩⟩, hhalts⟩
      · exact ⟨s₁, ⟨none, (thenRest_other hword hw).mpr rfl⟩, hresumes⟩

theorem advance_blank (hb : isspace b) (h : b :: t <:+ text) :
    advance (pos text (b :: t)) = advance (pos text t) := by
  rw [advance, bind_of_ok (show reads Stream.after _ = .ok (_, _) from rfl)]
  change advanceLoop (t.length + 2) (pos text (b :: t)) = _
  rw [advanceLoop, bind_of_ok (fgetc_pos h)]
  simp only [hb]
  rfl

theorem peek_blank (hb : isspace b) (h : b :: t <:+ text) :
    peek (pos text (b :: t)) = peek (pos text t) :=
  bind_congr_state (advance_blank hb h)

theorem loops_blank (hb : isspace b) (h : b :: t <:+ text) :
    Loops K (pos text (b :: t)) ↔ Loops K (pos text t) := by
  refine exists_congr fun s₁ => and_congr_left' (exists_congr fun o => returns_congr fun n => ?_)
  cases n with
  | zero => rw [termLoop]; rfl
  | succ n =>
    rw [termLoop]
    exact bind_congr_state (advance_blank hb h)

theorem operands_blank (hb : isspace b) (h : b :: t <:+ text) :
    Operands K (pos text (b :: t)) ↔ Operands K (pos text t) := by
  refine exists_congr fun s₁ => and_congr_left' (exists_congr fun o => returns_congr fun n => ?_)
  cases n with
  | zero => rw [factor]; rfl
  | succ n =>
    rw [factor]
    exact bind_congr_state (peek_blank hb h)

theorem starts_blank (hb : isspace b) (h : b :: t <:+ text) :
    Starts d g (pos text (b :: t)) ↔ Starts d g (pos text t) := by
  refine exists_congr fun s₁ => and_congr_left' (exists_congr fun o => returns_congr fun n => ?_)
  cases n with
  | zero => rw [expression]; rfl
  | succ n =>
    rw [expression]
    exact bind_congr_state (peek_blank hb h)

theorem equals_blank (hb : isspace b) (h : b :: t <:+ text) :
    Equals (pos text (b :: t)) ↔ Equals (pos text t) := by
  rw [Equals, Equals, advance_blank hb h]

theorem assigns_blank (hb : isspace b) (h : b :: t <:+ text) :
    Assigns (pos text (b :: t)) ↔ Assigns (pos text t) := by
  rw [Assigns, Assigns, advance_blank hb h]

theorem isArithmetic_iff : isArithmetic c ↔ (c = '*' ∨ c = '/') ∨ c = '+' ∨ c = '-' := by
  simp only [isArithmetic, List.mem_cons, List.not_mem_nil, or_false, decide_eq_true_eq]
  tauto

theorem loops_arithmetic (hc : isArithmetic c) (h : c :: t <:+ text) :
    Loops K (pos text (c :: t)) ↔ Operands K (pos text t) := by
  have hspace : isspace c = false := by
    rcases isArithmetic_iff.mp hc with (rfl | rfl) | rfl | rfl <;> rfl
  have hadvance := advance_char hspace h
  rcases isArithmetic_iff.mp hc with hmul | hadd
  · constructor
    · rintro ⟨s₁, ⟨o, hterm⟩, hrest⟩
      obtain ⟨o', u, hfactor, hloop⟩ := (termLoop_operator hadvance hmul).mp hterm
      exact ⟨u, ⟨o', hfactor⟩, s₁, (reaches_termLoop _ _).mp ⟨o, hloop⟩, hrest⟩
    · rintro ⟨u, ⟨o', hfactor⟩, s₁, hloop, hrest⟩
      obtain ⟨o, hloop⟩ := (reaches_termLoop _ (initBinaryNode c none o')).mp hloop
      exact ⟨s₁, ⟨o, (termLoop_operator hadvance hmul).mpr ⟨o', u, hfactor, hloop⟩⟩, hrest⟩
  · have hstop : ¬ (c = '*' ∨ c = '/') := by
      rcases hadd with rfl | rfl <;> decide
    constructor
    · rintro ⟨s₁, ⟨o, hterm⟩, s₂, ⟨o₂, hexpr⟩, hK⟩
      obtain rfl : s₁ = pos text (c :: t) :=
        congrArg Prod.snd ((termLoop_stop hadvance hstop (rewindOne_pos h)).mp hterm)
      obtain ⟨o', u, hterm, hloop⟩ := (expressionLoop_operator hadvance hadd).mp hexpr
      obtain ⟨o'', v, hfactor, hloop'⟩ := term_iff.mp hterm
      exact ⟨v, ⟨o'', hfactor⟩, u, (reaches_termLoop _ _).mp ⟨o', hloop'⟩, s₂,
        (reaches_expressionLoop _ _).mp ⟨o₂, hloop⟩, hK⟩
    · rintro ⟨v, ⟨o'', hfactor⟩, u, hloop', s₂, hloop, hK⟩
      obtain ⟨o', hloop'⟩ := (reaches_termLoop _ o'').mp hloop'
      obtain ⟨o₂, hloop⟩ := (reaches_expressionLoop _ (initBinaryNode c none o')).mp hloop
      refine ⟨pos text (c :: t), ⟨none, (termLoop_stop hadvance hstop (rewindOne_pos h)).mpr rfl⟩,
        s₂, ⟨o₂, (expressionLoop_operator hadvance hadd).mpr ⟨o', u, ?_, hloop⟩⟩, hK⟩
      exact term_iff.mpr ⟨o'', v, hfactor, hloop'⟩

theorem loops_other (hspace : isspace c = false) (hc : isArithmetic c = false)
    (h : c :: t <:+ text) : Loops K (pos text (c :: t)) ↔ K (pos text (c :: t)) := by
  have hadvance := advance_char hspace h
  have hnot := mt isArithmetic_iff.mpr (ne_true_of_eq_false hc)
  rw [not_or] at hnot
  have hterm := fun o s' => termLoop_stop (o := none) (r := (o, s')) hadvance hnot.1
    (rewindOne_pos h)
  have hexpr := fun o s' => expressionLoop_stop (o := none) (r := (o, s')) hadvance hnot.2
    (rewindOne_pos h)
  constructor
  · rintro ⟨s₁, ⟨o, h₁⟩, s₂, ⟨o₂, h₂⟩, hK⟩
    obtain rfl : s₁ = pos text (c :: t) := congrArg Prod.snd ((hterm o s₁).mp h₁)
    obtain rfl : s₂ = pos text (c :: t) := congrArg Prod.snd ((hexpr o₂ s₂).mp h₂)
    exact hK
  · intro hK
    exact ⟨_, ⟨none, (hterm _ _).mpr rfl⟩, _, ⟨none, (hexpr _ _).mpr rfl⟩, hK⟩

theorem peek_char (hspace : isspace c = false) (h : c :: t <:+ text) :
    peek (pos text (c :: t)) = .ok (c, pos text (c :: t)) := by
  rw [peek, bind_of_ok (advance_char hspace h), bind_of_ok (rewindOne_pos h)]
  rfl

theorem starts_start (hc : isExpressionStart c) (h : c :: t <:+ text) :
    Starts d g (pos text (c :: t)) ↔ Operands (Closes d g) (pos text (c :: t)) := by
  have hpeek := peek_char (isspace_of_isExpressionStart hc) h
  constructor
  · rintro ⟨s', ⟨o, hexpr⟩, hK⟩
    obtain ⟨o₁, s₁, hterm, hloop⟩ := (expression_iff hpeek hc).mp hexpr
    obtain ⟨o₂, s₂, hfactor, hloop'⟩ := term_iff.mp hterm
    exact ⟨s₂, ⟨o₂, hfactor⟩, s₁, (reaches_termLoop _ _).mp ⟨o₁, hloop'⟩, s',
      (reaches_expressionLoop _ _).mp ⟨o, hloop⟩, hK⟩
  · rintro ⟨s₂, ⟨o₂, hfactor⟩, s₁, hloop', s', hloop, hK⟩
    obtain ⟨o₁, hloop'⟩ := (reaches_termLoop _ o₂).mp hloop'
    obtain ⟨o, hloop⟩ := (reaches_expressionLoop _ o₁).mp hloop
    exact ⟨s', ⟨o, (expression_iff hpeek hc).mpr
      ⟨o₁, s₁, term_iff.mpr ⟨o₂, s₂, hfactor, hloop'⟩, hloop⟩⟩, hK⟩

theorem starts_none (hpeek : peek s = .ok (c, s₁)) (hc : isExpressionStart c = false) :
    Starts d g s ↔ Closes d g s₁ :=
  reaches_unique fun _ => expression_none hpeek hc

theorem operands_none (hpeek : peek s = .ok (c, s₁)) (hc : isExpressionStart c = false) :
    Operands K s ↔ Loops K s₁ :=
  reaches_unique fun _ => factor_none hpeek hc

theorem operands_var (hc : isVariableName c) (h : c :: t <:+ text) :
    Operands K (pos text (c :: t)) ↔ Loops K (pos text t) := by
  have hspace := isspace_of_isExpressionStart (isExpressionStart_of_isVariableName hc)
  exact reaches_unique fun _ => factor_var (peek_char hspace h) (advance_char hspace h) hc

theorem operands_paren (h : '(' :: t <:+ text) :
    Operands (Closes d g) (pos text ('(' :: t)) ↔ Starts (d + 1) g (pos text t) := by
  have hfactor := fun o s' => factor_paren (r := (o, s')) (peek_char rfl h) (advance_char rfl h)
  constructor
  · rintro ⟨s', ⟨o, hs'⟩, hK⟩
    obtain ⟨o₁, s₁, hexpr, hclose⟩ := (hfactor o s').mp hs'
    obtain ⟨o₂, hclose⟩ := closeParen_any hclose none
    exact ⟨s₁, ⟨o₁, hexpr⟩, o₂, s', hclose, hK⟩
  · rintro ⟨s₁, ⟨o₁, hexpr⟩, o₂, s', hclose, hK⟩
    obtain ⟨o, hclose⟩ := closeParen_any hclose o₁
    exact ⟨s', ⟨o, (hfactor o s').mpr ⟨o₁, s₁, hexpr, hclose⟩⟩, hK⟩

theorem operands_number (hc : isNumberStart c) (h : c :: t <:+ text) :
    Operands (Closes d g) (pos text (c :: t)) ↔ (Mode.word (.number d g) [c]).Left text t := by
  have hspace := isspace_of_isExpressionStart (isExpressionStart_of_isNumberStart hc)
  have hpeek := peek_char hspace h
  have hword : advanceUntilSeparator (pos text (c :: t)) =
      advanceUntilSeparatorLoop (t.length + 1) [c] (pos text t) := by
    rw [advanceUntilSeparator_pos, List.length_cons,
      advanceUntilSeparatorLoop_step hspace (.inr rfl) (Nat.zero_le _) h]
    rfl
  rw [Mode.Left, ← hword]
  constructor
  · rintro ⟨s', ⟨o, hfactor⟩, hK⟩
    obtain ⟨o', s₁, hread, heq⟩ := (factor_num_iff hpeek hc).mp hfactor
    obtain rfl : s' = s₁ := congrArg Prod.snd heq
    exact ⟨o', s', hread, hK⟩
  · rintro ⟨o, s', hread, hK⟩
    exact ⟨s', ⟨_, (factor_num hpeek hc hread).mpr rfl⟩, hK⟩

theorem word_left (kind : Word) (hspace : isspace c = false) (h : c :: t <:+ text) :
    (Mode.word kind []).Left text (c :: t) ↔ (Mode.word kind [c]).Left text t := by
  rw [Mode.Left, Mode.Left, List.length_cons,
    advanceUntilSeparatorLoop_step hspace (.inr rfl) (Nat.zero_le _) h]
  rfl

theorem closes_succ (hspace : isspace c = false) (h : c :: t <:+ text) :
    Closes (d + 1) g (pos text (c :: t)) ↔
      Loops (Closes d g) (pos text (if c = ')' then t else c :: t)) := by
  have hclose : ∃ o, closeParen none (pos text (c :: t)) =
      .ok (o, pos text (if c = ')' then t else c :: t)) := by
    refine ⟨none, ?_⟩
    rw [closeParen, bind_of_ok (advance_char hspace h)]
    by_cases hc : c = ')'
    · rw [if_neg (not_not.mpr hc), if_pos hc]
      rfl
    · rw [if_pos hc, if_neg hc, bind_of_ok (rewindOne_pos h)]
      rfl
  obtain ⟨o, hclose⟩ := hclose
  rw [Closes]
  constructor
  · rintro ⟨o', s', hclose', hK⟩
    rw [hclose] at hclose'
    obtain ⟨-, rfl⟩ := Prod.mk.inj (Except.ok.inj hclose')
    exact hK
  · exact fun hK => ⟨o, _, hclose, hK⟩

theorem closes_left (h : c :: t <:+ text) (hspace : isspace c = false) :
    Closes 0 .left (pos text (c :: t)) ↔ (finish .left c).Left text t := by
  have hadvance := advance_char hspace h
  rw [finish, Closes]
  split_ifs with hc
  · constructor
    · rintro ⟨s', ⟨o, n, hn⟩, hK⟩
      obtain ⟨o', hexpr, -⟩ := (compareRest_iff hadvance hc).mp ⟨n, hn⟩
      exact ⟨s', ⟨o', hexpr⟩, hK⟩
    · rintro ⟨s', ⟨o', hexpr⟩, hK⟩
      exact ⟨s', ⟨_, (compareRest_iff (r := (_, s')) hadvance hc).mpr ⟨o', hexpr, rfl⟩⟩, hK⟩
  · exact (reaches_unique fun _ => compareRest_none hadvance hc).trans branches_pos

theorem closes_close (hspace : isspace c = false) (h : c :: t <:+ text) :
    Closes d g (pos text (c :: t)) ↔ (close d g c).Left text t := by
  induction d with
  | zero =>
    rw [close]
    cases g with
    | left => exact closes_left h hspace
    | value => exact halts_pos.trans (word_left .statement hspace h)
    | right => exact branches_pos.trans (word_left .branch hspace h)
  | succ d ih =>
    rw [closes_succ hspace h, close]
    by_cases hparen : c = ')'
    · rw [if_pos hparen, if_pos hparen]
      rfl
    · rw [if_neg hparen, if_neg hparen]
      by_cases hc : isArithmetic c
      · rw [if_pos hc]
        exact loops_arithmetic hc h
      · rw [if_neg hc]
        exact (loops_other hspace (Bool.eq_false_of_not_eq_true hc) h).trans ih

theorem after_step (hspace : isspace c = false) (h : c :: t <:+ text) :
    Loops (Closes d g) (pos text (c :: t)) ↔ (stepAfter d g c).Left text t := by
  rw [stepAfter]
  by_cases hc : isArithmetic c
  · rw [if_pos hc]
    exact loops_arithmetic hc h
  · rw [if_neg hc]
    exact (loops_other hspace (Bool.eq_false_of_not_eq_true hc) h).trans (closes_close hspace h)

theorem operand_step (hspace : isspace c = false) (h : c :: t <:+ text) :
    Operands (Closes d g) (pos text (c :: t)) ↔ (stepOperand d g c).Left text t := by
  rw [stepOperand]
  split_ifs with hparen hvar hnum
  · obtain rfl := hparen
    exact operands_paren h
  · exact operands_var hvar h
  · exact operands_number hnum h
  · have hstart : isExpressionStart c = false := by
      rw [isExpressionStart, beq_false_of_ne hparen, Bool.eq_false_of_not_eq_true hvar,
        Bool.eq_false_of_not_eq_true hnum]
      rfl
    exact (operands_none (peek_char hspace h) hstart).trans (after_step hspace h)

theorem start_step (hspace : isspace c = false) (h : c :: t <:+ text) :
    Starts d g (pos text (c :: t)) ↔ (stepStart d g c).Left text t := by
  rw [stepStart]
  by_cases hc : isExpressionStart c
  · rw [if_pos hc]
    exact (starts_start hc h).trans (operand_step hspace h)
  · rw [if_neg hc]
    exact (starts_none (peek_char hspace h) (Bool.eq_false_of_not_eq_true hc)).trans
      (closes_close hspace h)

theorem equals_step (hspace : isspace c = false) (h : c :: t <:+ text) :
    Equals (pos text (c :: t)) ↔ (stepToken .letEquals c).Left text t := by
  have hadvance := advance_char hspace h
  have heq : Equals (pos text (c :: t)) ↔
      if c = '=' then Starts 0 .value (pos text t) else Halts (pos text t) := by
    constructor
    · rintro ⟨c', s', hc', hrest⟩
      rw [hadvance] at hc'
      obtain ⟨rfl, rfl⟩ := Prod.mk.inj (Except.ok.inj hc')
      exact hrest
    · exact fun hrest => ⟨c, _, hadvance, hrest⟩
  rw [heq, stepToken]
  split_ifs
  · rfl
  · exact halts_pos

theorem assigns_step (hspace : isspace c = false) (h : c :: t <:+ text) :
    Assigns (pos text (c :: t)) ↔ (stepToken .letName c).Left text t := by
  have hadvance := advance_char hspace h
  have heq : Assigns (pos text (c :: t)) ↔
      if isVariableName c then Equals (pos text t) else Halts (pos text t) := by
    constructor
    · rintro ⟨c', s', hc', hrest⟩
      rw [hadvance] at hc'
      obtain ⟨rfl, rfl⟩ := Prod.mk.inj (Except.ok.inj hc')
      exact hrest
    · exact fun hrest => ⟨c, _, hadvance, hrest⟩
  rw [heq, stepToken]
  split_ifs
  · rfl
  · exact halts_pos

theorem comment_step (h : c :: t <:+ text) :
    Mode.comment.Left text (c :: t) ↔ (stepComment c).Left text t := by
  have hskip : skipLineLoop ((c :: t).length + 1) (pos text (c :: t)) =
      if c = '\n' then .ok ((), pos text t) else skipLineLoop (t.length + 1) (pos text t) := by
    rw [List.length_cons, skipLineLoop, bind_of_ok (fgetc_pos h)]
    by_cases hc : c = '\n'
    · simp only [hc, if_true]
      rfl
    · simp only [hc, if_false]
  rw [Mode.Left, hskip, stepComment]
  split_ifs with hc
  · rw [← halts_pos]
    constructor
    · rintro ⟨s', heq, hhalts⟩
      obtain ⟨-, rfl⟩ := Prod.mk.inj (Except.ok.inj heq)
      exact hhalts
    · exact fun hhalts => ⟨_, rfl, hhalts⟩
  · rfl

/-- No word is being read. -/
def Mode.Fresh : Mode → Prop
  | .word _ w => w = []
  | _ => True

theorem token_step {m : Mode} (hm : m.Fresh) (hspace : isspace c = false) (h : c :: t <:+ text) :
    m.Left text (c :: t) ↔ (stepToken m c).Left text t := by
  cases m with
  | word kind w =>
    obtain rfl : w = [] := hm
    exact word_left kind hspace h
  | comment =>
    have hc : c ≠ '\n' := by
      rintro rfl
      cases hspace
    rw [comment_step h, stepComment, if_neg hc]
    rfl
  | letName => exact assigns_step hspace h
  | letEquals => exact equals_step hspace h
  | start d g => exact start_step hspace h
  | operand d g => exact operand_step hspace h
  | after d g => exact after_step hspace h
  | overflow => rfl

theorem afterWord_fresh (kind : Word) (w : List Char) : (afterWord kind w).Fresh := by
  cases kind with
  | statement =>
    rw [afterWord]
    split_ifs <;> trivial
  | target | branch => rfl
  | number => trivial

theorem endWord_fresh (kind : Word) (w : List Char) : (endWord kind w).Fresh := by
  rw [endWord]
  split_ifs
  · exact afterWord_fresh kind _
  · trivial

theorem resumes_goto : (∃ s', Reaches (wordRest "GOTO".toList) s s' ∧ Halts s') ↔
    ∃ o s', advanceUntilSeparator s = .ok (o, s') ∧ Halts s' := by
  have hrest : ∀ r, Returns (wordRest "GOTO".toList) s r ↔
      (advanceUntilSeparator >>= fun label => pure (initGotoNode label)) s = .ok r := fun r =>
    returns_const
  constructor
  · rintro ⟨s', ⟨o, h⟩, hhalts⟩
    obtain ⟨label, s₁, hword, h⟩ := bind_eq_ok.mp ((hrest _).mp h)
    obtain ⟨-, rfl⟩ := pure_eq_ok h
    exact ⟨label, _, hword, hhalts⟩
  · rintro ⟨label, s', hword, hhalts⟩
    exact ⟨s', ⟨_, (hrest (initGotoNode label, s')).mpr (bind_of_ok hword)⟩, hhalts⟩

theorem resumes_print : (∃ s', Reaches (wordRest "PRINT".toList) s s' ∧ Halts s') ↔
    Starts 0 .value s := by
  refine exists_congr fun s' => and_congr_left' ⟨?_, ?_⟩
  · rintro ⟨o, h⟩
    obtain ⟨o', s₁, hexpr, heq⟩ := wordRest_print.mp h
    obtain rfl : s' = s₁ := congrArg Prod.snd heq
    exact ⟨o', hexpr⟩
  · rintro ⟨o', hexpr⟩
    exact ⟨initPrintNode o', wordRest_print.mpr ⟨o', s', hexpr, rfl⟩⟩

theorem resumes_let : (∃ s', Reaches (wordRest "LET".toList) s s' ∧ Halts s') ↔ Assigns s := by
  constructor
  · rintro ⟨s', ⟨o, n, h⟩, hhalts⟩
    change letRest n s = _ at h
    rw [letRest] at h
    obtain ⟨c, s₁, hadvance, h⟩ := bind_eq_ok.mp h
    refine ⟨c, s₁, hadvance, ?_⟩
    split_ifs at h ⊢ with hc
    · obtain ⟨d, s₂, hadvance', h⟩ := bind_eq_ok.mp h
      refine ⟨d, s₂, hadvance', ?_⟩
      split_ifs at h ⊢ with hd
      · obtain ⟨o', s₃, hexpr, h⟩ := bind_eq_ok.mp h
        obtain ⟨-, rfl⟩ := pure_eq_ok h
        exact ⟨_, ⟨o', n, hexpr⟩, hhalts⟩
      · obtain ⟨-, rfl⟩ := pure_eq_ok h
        exact hhalts
    · obtain ⟨-, rfl⟩ := pure_eq_ok h
      exact hhalts
  · rintro ⟨c, s₁, hadvance, hrest⟩
    by_cases hc : isVariableName c
    · rw [if_pos hc] at hrest
      obtain ⟨d, s₂, hadvance', hrest⟩ := hrest
      by_cases hd : d = '='
      · rw [if_pos hd] at hrest
        obtain rfl := hd
        obtain ⟨s', ⟨o, hexpr⟩, hhalts⟩ := hrest
        exact ⟨s', ⟨_, (letRest_iff hadvance hc hadvance').mpr ⟨o, s', hexpr, rfl⟩⟩, hhalts⟩
      · rw [if_neg hd] at hrest
        exact ⟨s₂, ⟨none, (letRest_no_equals hadvance hc hadvance' hd).mpr rfl⟩, hrest⟩
    · rw [if_neg hc] at hrest
      exact ⟨s₁, ⟨none, (letRest_none hadvance (Bool.eq_false_of_not_eq_true hc)).mpr rfl⟩, hrest⟩

theorem resumes_if : (∃ s', Reaches (wordRest "IF".toList) s s' ∧ Halts s') ↔
    Starts 0 .left s := by
  constructor
  · rintro ⟨s', ⟨o, h⟩, hhalts⟩
    obtain ⟨cond, s₁, hcomparison, n, hthen⟩ := wordRest_if.mp h
    obtain ⟨left, s₂, hexpr, m, hcompare⟩ := comparison_iff.mp hcomparison
    obtain ⟨o', hthen⟩ := thenRest_any hthen none
    obtain ⟨cond', hcompare⟩ := compareRest_any hcompare none
    exact ⟨s₂, ⟨left, hexpr⟩, s₁, ⟨cond', m, hcompare⟩, s', ⟨o', n, hthen⟩, hhalts⟩
  · rintro ⟨s₂, ⟨left, hexpr⟩, s₁, ⟨cond', m, hcompare⟩, s', ⟨o', n, hthen⟩, hhalts⟩
    obtain ⟨cond, hcompare⟩ := compareRest_any hcompare left
    obtain ⟨o, hthen⟩ := thenRest_any hthen cond
    exact ⟨s', ⟨o, wordRest_if.mpr ⟨cond, s₁,
      comparison_iff.mpr ⟨left, s₂, hexpr, m, hcompare⟩, n, hthen⟩⟩, hhalts⟩

theorem resumes_iff {kind : Word} (hcomment : afterWord kind w ≠ .comment) :
    Resumes kind (some w) (pos text t) ↔ (afterWord kind w).Left text t := by
  cases kind with
  | target => exact halts_pos
  | branch => exact halts_pos
  | number d g => rfl
  | statement =>
    rw [Resumes]
    rw [afterWord] at hcomment ⊢
    split_ifs at hcomment ⊢ with hnil hhash hgoto hprint hlet hif
    · obtain rfl := hnil
      exact (reaches_unique fun _ => wordRest_empty).trans halts_pos
    · exact absurd rfl hcomment
    · obtain rfl := hgoto
      exact resumes_goto
    · obtain rfl := hprint
      exact resumes_print
    · obtain rfl := hlet
      exact resumes_let
    · obtain rfl := hif
      exact resumes_if
    · have hkey : w ∉ keywords := by
        simp only [keywords, List.mem_cons, List.not_mem_nil, or_false, not_or]
        exact ⟨hgoto, hprint, hlet, hif⟩
      exact (reaches_unique fun _ => wordRest_label hnil hhash hkey).trans halts_pos

theorem resumes_comment (hcomment : afterWord .statement w = .comment) :
    Resumes .statement (some w) s ↔ ∃ s', skipLine s = .ok ((), s') ∧ Halts s' := by
  have hword : w ≠ [] ∧ w.head? = some '#' := by
    rw [afterWord] at hcomment
    split_ifs at hcomment with hnil hhash
    exact ⟨hnil, hhash⟩
  have hrest : ∀ r, Returns (wordRest w) s r ↔
      (skipLine >>= fun _ => pure none : Parse (Option Node)) s = .ok r := by
    intro r
    simp only [Returns, wordRest, if_neg hword.1, if_pos hword.2]
    exact exists_const ℕ
  constructor
  · rintro ⟨s', ⟨o, h⟩, hhalts⟩
    obtain ⟨_, s₁, hskip, h⟩ := bind_eq_ok.mp ((hrest _).mp h)
    obtain ⟨-, rfl⟩ := pure_eq_ok h
    exact ⟨_, hskip, hhalts⟩
  · rintro ⟨s', hskip, hhalts⟩
    exact ⟨s', ⟨none, (hrest (none, s')).mpr (bind_of_ok hskip)⟩, hhalts⟩

theorem afterWord_comment {kind : Word} (hcomment : afterWord kind w = .comment) :
    kind = .statement := by
  cases kind with
  | statement => rfl
  | target | branch | number => cases hcomment

theorem skipLine_left (h : c :: t <:+ text) :
    (∃ s', skipLine (pos text t) = .ok ((), s') ∧ Halts s') ↔ Mode.comment.Left text (c :: t) := by
  rw [Mode.Left, skipLine, bind_of_ok (rewindOne_pos h),
    bind_of_ok (show reads Stream.after _ = .ok (_, _) from rfl)]
  rfl

def Mode.Placed (text : List Char) : Mode → List Char → Prop
  | .word _ w, t => w ≠ [] → ∃ x, isspace x = false ∧ x :: t <:+ text
  | _, _ => True

theorem terminate_resumes {kind : Word} :
    (∃ o s', terminate w s = .ok (o, s') ∧ Resumes kind o s') ↔
      w.length ≤ maxKeywordLength ∧ Resumes kind (some (cString w)) s := by
  rw [terminate]
  by_cases hlen : w.length ≤ maxKeywordLength
  · rw [if_pos hlen]
    constructor
    · rintro ⟨o, s', heq, hresumes⟩
      obtain ⟨rfl, rfl⟩ := Prod.mk.inj (Except.ok.inj heq)
      exact ⟨hlen, hresumes⟩
    · exact fun hresumes => ⟨_, _, rfl, hresumes.2⟩
  · rw [if_neg hlen]
    constructor
    · rintro ⟨o, s', heq, -⟩
      cases heq
    · exact fun hresumes => absurd hresumes.1 hlen

theorem word_operator {kind : Word} (hplaced : (Mode.word kind w).Placed text (c :: t))
    (hop : isOperator c) (hne : w ≠ []) (h : c :: t <:+ text) :
    (Mode.word kind w).Left text (c :: t) ↔ (stepToken (endWord kind w) c).Left text t := by
  have hspace := isspace_of_isOperator hop
  have hloop := advanceUntilSeparatorLoop_operator (n := t.length + 1) hop hne h
  rw [← token_step (endWord_fresh kind w) hspace h, Mode.Left, List.length_cons, hloop,
    terminate_resumes, endWord]
  by_cases hlen : w.length ≤ maxKeywordLength
  · rw [if_pos hlen]
    refine (and_iff_right hlen).trans ?_
    by_cases hcomment : afterWord kind (cString w) = .comment
    · obtain rfl := afterWord_comment hcomment
      obtain ⟨x, hx, hplaced⟩ := hplaced hne
      have hnewline : x ≠ '\n' := by
        rintro rfl
        cases hx
      rw [resumes_comment hcomment, skipLine_left hplaced, comment_step hplaced, stepComment,
        if_neg hnewline, hcomment]
    · exact resumes_iff hcomment
  · rw [if_neg hlen]
    exact ⟨fun hresumes => absurd hresumes.1 hlen, False.elim⟩

theorem word_space {kind : Word} (hspace : isspace c) (h : c :: t <:+ text) :
    (Mode.word kind w).Left text (c :: t) ↔ (afterBlank (endWord kind w) c).Left text t := by
  have hloop : advanceUntilSeparatorLoop (t.length + 1 + 1) w (pos text (c :: t)) =
      terminate w (pos text t) := advanceUntilSeparatorLoop_space hspace h
  rw [Mode.Left, List.length_cons, hloop, terminate_resumes, endWord]
  by_cases hlen : w.length ≤ maxKeywordLength
  · rw [if_pos hlen]
    refine (and_iff_right hlen).trans ?_
    by_cases hcomment : afterWord kind (cString w) = .comment
    · obtain rfl := afterWord_comment hcomment
      rw [resumes_comment hcomment, skipLine_left h, comment_step h, hcomment]
      rfl
    · have hafter : afterBlank (afterWord kind (cString w)) c = afterWord kind (cString w) := by
        generalize afterWord kind (cString w) = m at hcomment
        cases m <;> first | rfl | exact absurd rfl hcomment
      rw [hafter]
      exact resumes_iff hcomment
  · rw [if_neg hlen]
    exact ⟨fun hresumes => absurd hresumes.1 hlen, False.elim⟩

theorem word_step {kind : Word} (hplaced : (Mode.word kind w).Placed text (c :: t))
    (h : c :: t <:+ text) :
    (Mode.word kind w).Left text (c :: t) ↔ (stepWord kind w c).Left text t := by
  rw [stepWord]
  split_ifs with hop hspace hlen
  · exact word_operator hplaced hop.1 (List.length_pos_iff.mp hop.2) h
  · exact word_space hspace h
  · have hop' : isOperator c = false ∨ w = [] := by
      rcases not_and_or.mp hop with hop | hop
      · exact .inl (Bool.eq_false_of_not_eq_true hop)
      · exact .inr (List.eq_nil_of_length_eq_zero (Nat.eq_zero_of_not_pos hop))
    rw [Mode.Left, Mode.Left, List.length_cons,
      advanceUntilSeparatorLoop_step (Bool.eq_false_of_not_eq_true hspace) hop' hlen h]
  · have hloop : ∀ n, advanceUntilSeparatorLoop (n + 1) w (pos text (c :: t)) =
        .error .overflow := by
      intro n
      rw [advanceUntilSeparatorLoop, bind_of_ok (fgetc_pos h)]
      simp only [if_neg hop, if_neg hspace, if_neg hlen]
      rfl
    rw [Mode.Left, List.length_cons, hloop]
    constructor
    · rintro ⟨o, s', heq, -⟩
      cases heq
    · exact False.elim

theorem skipBlank_step {m : Mode} (hm : m.Fresh) (h : c :: t <:+ text)
    (hblank : isspace c → (m.Left text (c :: t) ↔ m.Left text t)) :
    m.Left text (c :: t) ↔ (skipBlank m c).Left text t := by
  rw [skipBlank]
  split_ifs with hspace
  · exact hblank hspace
  · exact token_step hm (Bool.eq_false_of_not_eq_true hspace) h

theorem left_step {m : Mode} (hplaced : m.Placed text (c :: t)) (h : c :: t <:+ text) :
    m.Left text (c :: t) ↔ (scanStep m c).Left text t := by
  cases m with
  | word kind w => exact word_step hplaced h
  | comment => exact comment_step h
  | letName => exact skipBlank_step trivial h fun hspace => assigns_blank hspace h
  | letEquals => exact skipBlank_step trivial h fun hspace => equals_blank hspace h
  | start d g => exact skipBlank_step trivial h fun hspace => starts_blank hspace h
  | operand d g => exact skipBlank_step trivial h fun hspace => operands_blank hspace h
  | after d g => exact skipBlank_step trivial h fun hspace => loops_blank hspace h
  | overflow => rfl

theorem fresh_blank (m : Mode) (hspace : isspace c) : (scanStep m c).Fresh := by
  have hcomment : (stepComment c).Fresh := by
    rw [stepComment]
    split_ifs <;> trivial
  have hafter : ∀ m : Mode, m.Fresh → (afterBlank m c).Fresh := by
    intro m hm
    cases m with
    | comment => exact hcomment
    | word | letName | letEquals | start | operand | after | overflow => exact hm
  cases m with
  | word kind w =>
    have hop : ¬ (isOperator c = true ∧ 0 < w.length) := fun hop => by
      rw [isspace_of_isOperator hop.1] at hspace
      cases hspace
    rw [scanStep, stepWord, if_neg hop, if_pos hspace]
    exact hafter _ (endWord_fresh kind w)
  | comment => exact hcomment
  | letName | letEquals | start | operand | after =>
    rw [scanStep, skipBlank, if_pos hspace]
    trivial
  | overflow => trivial

theorem placed_step (m : Mode) (h : c :: t <:+ text) : (scanStep m c).Placed text t := by
  cases hspace : isspace c with
  | false =>
    cases scanStep m c with
    | word => exact fun _ => ⟨c, hspace, h⟩
    | comment | letName | letEquals | start | operand | after | overflow => trivial
  | true =>
    have hfresh := fresh_blank m hspace
    cases hstep : scanStep m c with
    | word kind w =>
      rw [hstep] at hfresh
      exact fun hne => absurd hfresh hne
    | comment | letName | letEquals | start | operand | after | overflow => trivial

theorem left_scan {m : Mode} (hplaced : m.Placed text t) (h : t <:+ text) :
    m.Left text t ↔ (t.foldl scanStep m).Left text [] := by
  induction t generalizing m with
  | nil => rfl
  | cons c t ih =>
    rw [List.foldl_cons, left_step hplaced h]
    exact ih (placed_step m h) (suffix_of_cons h)

theorem halts_scan : Halts (fopen text) ↔ (scan text).Left text [] := by
  rw [fopen_eq_pos, halts_pos]
  exact left_scan (fun hne => absurd rfl hne) (List.suffix_refl text)

theorem suffix_last (hlast : text.getLast? = some last) : [last] <:+ text := by
  obtain ⟨before, rfl⟩ := List.getLast?_eq_some_iff.mp hlast
  exact List.suffix_append before [last]

theorem toNext_last (hlast : text.getLast? = some last) : toNext text [last] = [last] := by
  rw [toNext]
  cases hspace : isspace last with
  | true =>
    rw [List.dropWhile_cons_of_pos hspace, List.dropWhile_nil, hlast]
    rfl
  | false => rw [dropWhile_token hspace]

theorem ne_nil_of_last (hlast : text.getLast? = some last) : text ≠ [] := by
  rintro rfl
  cases hlast

theorem peek_empty (hlast : text.getLast? = some last) :
    peek (pos text []) = .ok ('\x00', pos text [last]) :=
  peek_end rfl List.nil_suffix hlast

theorem factor_empty (hlast : text.getLast? = some last) {r : Option Node × Stream} :
    Returns factor (pos text []) r ↔ r = (none, pos text [last]) :=
  factor_none (peek_empty hlast) rfl

theorem termLoop_empty (hlast : text.getLast? = some last) {r : Option Node × Stream}
    (hs : advance s = .ok ('\x00', ended text)) :
    Returns (fun n => termLoop n o) s r ↔ r = (o, pos text [last]) :=
  termLoop_stop hs (by decide) (rewindOne_ended hlast)

theorem termLoop_diverges (hlast : text.getLast? = some last) (hmul : last = '*' ∨ last = '/') :
    ¬ Reaches (fun n => termLoop n o) (pos text [last]) s' := by
  have hspace : isspace last = false := by
    rcases hmul with rfl | rfl <;> rfl
  have hadvance := advance_char hspace (suffix_last hlast)
  rintro ⟨o', n, hn⟩
  induction n generalizing o with
  | zero =>
    change termLoop 0 o _ = _ at hn
    rw [termLoop] at hn
    cases hn
  | succ n ih =>
    change termLoop (n + 1) o _ = _ at hn
    rw [termLoop, bind_of_ok hadvance, if_neg (not_not.mpr hmul)] at hn
    obtain ⟨right, s₁, hfactor, hn⟩ := bind_eq_ok.mp hn
    obtain ⟨-, rfl⟩ := Prod.mk.inj ((factor_empty hlast).mp ⟨n, hfactor⟩)
    exact ih hn

theorem expressionLoop_diverges (hlast : text.getLast? = some last)
    (hadd : last = '+' ∨ last = '-') :
    ¬ Reaches (fun n => expressionLoop n o) (pos text [last]) s' := by
  have hspace : isspace last = false := by
    rcases hadd with rfl | rfl <;> rfl
  have hadvance := advance_char hspace (suffix_last hlast)
  have hstop : ¬ (last = '*' ∨ last = '/') := by
    rcases hadd with rfl | rfl <;> decide
  have hrewind := rewindOne_pos (suffix_last hlast)
  rintro ⟨o', n, hn⟩
  induction n generalizing o with
  | zero =>
    change expressionLoop 0 o _ = _ at hn
    rw [expressionLoop] at hn
    cases hn
  | succ n ih =>
    change expressionLoop (n + 1) o _ = _ at hn
    rw [expressionLoop, bind_of_ok hadvance, if_neg (not_not.mpr hadd)] at hn
    obtain ⟨right, s₁, hterm, hn⟩ := bind_eq_ok.mp hn
    obtain ⟨o'', s₂, hfactor, hloop⟩ := term_iff.mp ⟨n, hterm⟩
    obtain ⟨-, rfl⟩ := Prod.mk.inj ((factor_empty hlast).mp hfactor)
    obtain ⟨-, rfl⟩ := Prod.mk.inj ((termLoop_stop hadvance hstop hrewind).mp hloop)
    exact ih hn

theorem nextChar_last_ne (hx : last ≠ c) (hc : c ≠ '\x00') : nextChar [last] ≠ c := by
  cases hspace : isspace last with
  | true =>
    rw [nextChar, List.dropWhile_cons_of_pos hspace]
    exact Ne.symm hc
  | false => rwa [nextChar_token hspace]

theorem expressionLoop_last (hlast : text.getLast? = some last) :
    (∃ s', Reaches (fun n => expressionLoop n none) (pos text [last]) s' ∧ K s') ↔
      ¬ (last = '+' ∨ last = '-') ∧ K (pos text [last]) := by
  by_cases hadd : last = '+' ∨ last = '-'
  · exact ⟨fun ⟨s', hs', _⟩ => absurd hs' (expressionLoop_diverges hlast hadd),
      fun h => absurd hadd h.1⟩
  · rw [and_iff_right hadd]
    rw [not_or] at hadd
    have hdone := expressionLoop_done (o := none) (suffix_last hlast) (ne_nil_of_last hlast)
      (nextChar_last_ne hadd.1 (by decide)) (nextChar_last_ne hadd.2 (by decide))
    rw [toNext_last hlast] at hdone
    exact reaches_unique fun r =>
      ⟨fun hr => hr.unique (expressionLoop_fueled none) hdone, fun hr => hr ▸ hdone⟩

theorem loops_empty (hlast : text.getLast? = some last)
    (hs : advance s = .ok ('\x00', ended text)) :
    Loops K s ↔ ¬ (last = '+' ∨ last = '-') ∧ K (pos text [last]) := by
  rw [← expressionLoop_last hlast]
  exact reaches_unique fun _ => termLoop_empty hlast hs

theorem loops_last (hlast : text.getLast? = some last) :
    Loops K (pos text [last]) ↔ isArithmetic last = false ∧ K (pos text [last]) := by
  by_cases hmul : last = '*' ∨ last = '/'
  · constructor
    · rintro ⟨s₁, hs₁, -⟩
      exact absurd hs₁ (termLoop_diverges hlast hmul)
    · rintro ⟨hnot, -⟩
      rw [isArithmetic_iff.mpr (.inl hmul)] at hnot
      cases hnot
  · have hiff : isArithmetic last = false ↔ ¬ (last = '+' ∨ last = '-') := by
      rw [← Bool.not_eq_true, isArithmetic_iff, or_iff_right hmul]
    rw [hiff, ← expressionLoop_last hlast]
    rw [not_or] at hmul
    have hdone := termLoop_done (o := none) (suffix_last hlast) (ne_nil_of_last hlast)
      (nextChar_last_ne hmul.1 (by decide)) (nextChar_last_ne hmul.2 (by decide))
    rw [toNext_last hlast] at hdone
    exact reaches_unique fun r =>
      ⟨fun hr => hr.unique (termLoop_fueled none) hdone, fun hr => hr ▸ hdone⟩

theorem word_end (kind : Word) :
    (Mode.word kind w).Left text [] ↔ Resumes kind none (ended text) := by
  rw [Mode.Left, List.length_nil, advanceUntilSeparatorLoop_end]
  constructor
  · rintro ⟨o, s', heq, hresumes⟩
    obtain ⟨rfl, rfl⟩ := Prod.mk.inj (Except.ok.inj heq)
    exact hresumes
  · exact fun hresumes => ⟨none, _, rfl, hresumes⟩

theorem advance_empty : advance (pos text []) = .ok ('\x00', ended text) :=
  advance_end rfl List.nil_suffix

theorem advance_last_blank (hlast : text.getLast? = some last) (hspace : isspace last) :
    advance (pos text [last]) = .ok ('\x00', ended text) :=
  (advance_blank hspace (suffix_last hlast)).trans advance_empty

theorem branches_last (hlast : text.getLast? = some last) :
    Branches (pos text [last]) ↔ isspace last = true := by
  have hplaced : (Mode.word .branch []).Placed text [last] := fun hne => absurd rfl hne
  rw [branches_pos, left_step hplaced (suffix_last hlast)]
  cases hspace : isspace last with
  | true =>
    have hstep : scanStep (.word .branch []) last = .word .statement [] := by
      have hop : ¬ (isOperator last = true ∧ 0 < ([] : List Char).length) := fun h =>
        absurd h.2 (Nat.lt_irrefl 0)
      rw [scanStep, stepWord, if_neg hop, if_pos hspace]
      rfl
    rw [hstep, word_end]
    exact iff_of_true (halts_eof rfl) rfl
  | false =>
    rw [scanStep, stepWord]
    simp only [List.length_nil, Nat.lt_irrefl, and_false, if_false, hspace, Nat.zero_le, if_true,
      Bool.false_eq_true]
    rw [word_end]
    rfl

theorem branches_ended : ¬ Branches (ended text) := by
  rintro ⟨s', ⟨o, h⟩, -⟩
  exact thenRest_null advanceUntilSeparator_ended h

theorem not_closes_left (hlast : text.getLast? = some last) :
    ¬ Closes 0 .left (pos text [last]) := by
  cases hspace : isspace last with
  | true =>
    have hclose := reaches_unique (Q := Branches) fun r =>
      compareRest_none (o := none) (r := r) (advance_last_blank hlast hspace) (by decide)
    rw [Closes, hclose]
    exact branches_ended
  | false =>
    rw [closes_left (suffix_last hlast) hspace, finish]
    split_ifs
    · change ¬ Starts 0 .right (pos text [])
      rw [starts_none (peek_empty hlast) rfl]
      change ¬ Branches (pos text [last])
      rw [branches_last hlast, hspace]
      exact Bool.false_ne_true
    · rw [word_end]
      exact id

theorem closes_last (hlast : text.getLast? = some last) (hop : isArithmetic last = false) :
    Closes d g (pos text [last]) ↔ g.complete last = true := by
  have hadd : ¬ (last = '+' ∨ last = '-') := fun hadd => by
    rw [isArithmetic_iff.mpr (.inr hadd)] at hop
    cases hop
  induction d with
  | zero =>
    cases g with
    | value => exact iff_of_true (halts_of_yields (yields_last hlast)) rfl
    | left => exact iff_of_false (not_closes_left hlast) Bool.false_ne_true
    | right => exact branches_last hlast
  | succ d ih =>
    cases hspace : isspace last with
    | true =>
      have hclose : closeParen none (pos text [last]) = .ok (none, pos text [last]) := by
        rw [closeParen, bind_of_ok (advance_last_blank hlast hspace), if_pos (by decide),
          bind_of_ok (rewindOne_ended hlast)]
        rfl
      have hiff : Closes (d + 1) g (pos text [last]) ↔ Loops (Closes d g) (pos text [last]) := by
        rw [Closes, hclose]
        constructor
        · rintro ⟨o, s', heq, hloops⟩
          obtain ⟨-, rfl⟩ := Prod.mk.inj (Except.ok.inj heq)
          exact hloops
        · exact fun hloops => ⟨none, _, rfl, hloops⟩
      exact hiff.trans ((loops_last hlast).trans ((and_iff_right hop).trans ih))
    | false =>
      rw [closes_succ hspace (suffix_last hlast)]
      split_ifs
      · exact (loops_empty hlast advance_empty).trans ((and_iff_right hadd).trans ih)
      · exact (loops_last hlast).trans ((and_iff_right hop).trans ih)

def Mode.Coherent (last : Char) : Mode → Prop
  | .word (.number _ _) w => w ≠ [] ∧ last ≠ '*' ∧ last ≠ '/'
  | .start _ _ => isArithmetic last = false
  | .after _ _ => isArithmetic last = false
  | _ => True

theorem coherent_finish (g : Goal) (c : Char) : (finish g c).Coherent c := by
  cases g with
  | value | right => trivial
  | left =>
    rw [finish]
    split_ifs with hc
    · rcases hc with rfl | rfl | rfl <;> rfl
    · trivial

theorem coherent_close (d : Nat) (g : Goal) (c : Char) : (close d g c).Coherent c := by
  induction d with
  | zero => exact coherent_finish g c
  | succ d ih =>
    rw [close]
    split_ifs with hparen
    · obtain rfl := hparen
      rfl
    · trivial
    · exact ih

theorem coherent_after (d : Nat) (g : Goal) (c : Char) : (stepAfter d g c).Coherent c := by
  rw [stepAfter]
  split_ifs
  · trivial
  · exact coherent_close d g c

theorem coherent_operand (d : Nat) (g : Goal) (c : Char) : (stepOperand d g c).Coherent c := by
  rw [stepOperand]
  split_ifs with hparen hvar hnum
  · obtain rfl := hparen
    rfl
  · change isArithmetic c = false
    rw [← Bool.not_eq_true, isArithmetic_iff]
    rintro ((rfl | rfl) | rfl | rfl) <;> cases hvar
  · refine ⟨List.cons_ne_nil _ _, ?_, ?_⟩ <;> rintro rfl <;> cases hnum
  · exact coherent_after d g c

def Mode.NoNumber : Mode → Prop
  | .word (.number _ _) _ => False
  | _ => True

theorem coherent_token {m : Mode} (hm : m.NoNumber) : (stepToken m c).Coherent c := by
  cases m with
  | word kind w =>
    cases kind with
    | number => exact absurd hm id
    | statement | target | branch => trivial
  | comment | overflow => trivial
  | letName =>
    rw [stepToken]
    split_ifs <;> trivial
  | letEquals =>
    rw [stepToken]
    split_ifs with hc
    · obtain rfl := hc
      rfl
    · trivial
  | start d g =>
    rw [stepToken, stepStart]
    split_ifs
    · exact coherent_operand d g c
    · exact coherent_close d g c
  | operand d g => exact coherent_operand d g c
  | after d g => exact coherent_after d g c

theorem noNumber_afterWord (kind : Word) (w : List Char) : (afterWord kind w).NoNumber := by
  cases kind with
  | statement =>
    rw [afterWord]
    split_ifs <;> trivial
  | target | branch | number => trivial

theorem noNumber_endWord (kind : Word) (w : List Char) : (endWord kind w).NoNumber := by
  rw [endWord]
  split_ifs
  · exact noNumber_afterWord kind _
  · trivial

theorem coherent_comment (c : Char) : (stepComment c).Coherent c := by
  rw [stepComment]
  split_ifs <;> trivial

theorem coherent_blank {m : Mode} (hm : m.NoNumber) (hspace : isspace c) : m.Coherent c := by
  have hop : isArithmetic c = false := by
    rw [← Bool.not_eq_true, isArithmetic_iff]
    rintro ((rfl | rfl) | rfl | rfl) <;> cases hspace
  cases m with
  | word kind w =>
    cases kind with
    | number => exact absurd hm id
    | statement | target | branch => trivial
  | start | after => exact hop
  | comment | letName | letEquals | operand | overflow => trivial

theorem coherent_skip {m : Mode} (hm : m.NoNumber) : (skipBlank m c).Coherent c := by
  rw [skipBlank]
  split_ifs with hspace
  · exact coherent_blank hm hspace
  · exact coherent_token hm

theorem coherent_word {kind : Word} (hm : (Mode.word kind w).Coherent last) :
    (stepWord kind w c).Coherent c := by
  rw [stepWord]
  split_ifs with hop hspace hlen
  · exact coherent_token (noNumber_endWord kind w)
  · have hend := noNumber_endWord kind w
    cases hmode : endWord kind w with
    | comment => exact coherent_comment c
    | word | letName | letEquals | start | operand | after | overflow =>
      rw [hmode] at hend
      exact coherent_blank hend hspace
  · cases kind with
    | statement | target | branch => trivial
    | number d g =>
      have hnot : isOperator c = false := by
        rw [← Bool.not_eq_true]
        exact fun hc => hop ⟨hc, List.length_pos_iff.mpr hm.1⟩
      refine ⟨List.append_ne_nil_of_right_ne_nil w (List.cons_ne_nil c []), ?_, ?_⟩ <;>
        rintro rfl <;> cases hnot
  · trivial

theorem coherent_step {m : Mode} (hm : m.Coherent last) : (scanStep m c).Coherent c := by
  cases m with
  | word kind w => exact coherent_word hm
  | comment => exact coherent_comment c
  | overflow => trivial
  | letName => exact coherent_skip trivial
  | letEquals => exact coherent_skip trivial
  | start d g => exact coherent_skip trivial
  | operand d g => exact coherent_skip trivial
  | after d g => exact coherent_skip trivial

theorem coherent_scan (hlast : text.getLast? = some last) : (scan text).Coherent last := by
  have hscan : ∀ (before : List Char) (m : Mode) (b : Char), m.Coherent b →
      ∃ b', (before.foldl scanStep m).Coherent b' := by
    intro before
    induction before with
    | nil => exact fun m b hm => ⟨b, hm⟩
    | cons c before ih => exact fun m b hm => ih (scanStep m c) c (coherent_step hm)
  obtain ⟨before, rfl⟩ := List.getLast?_eq_some_iff.mp hlast
  obtain ⟨b, hb⟩ := hscan before (.word .statement []) ' ' trivial
  rw [scan, List.foldl_append]
  exact coherent_step hb

theorem left_end {m : Mode} (hlast : text.getLast? = some last) (hm : m.Coherent last) :
    m.Left text [] ↔ m.endsWell last = true := by
  have hclosed : ∀ {d g}, isArithmetic last = false ∧ Closes d g (pos text [last]) ↔
      (!isArithmetic last && g.complete last) = true := by
    intro d g
    rw [Bool.and_eq_true, Bool.not_eq_true']
    exact and_congr_right fun hop => closes_last hlast hop
  have hempty : ∀ {d g s}, last ≠ '*' ∧ last ≠ '/' → advance s = .ok ('\x00', ended text) →
      (Loops (Closes d g) s ↔ (!isArithmetic last && g.complete last) = true) := by
    intro d g s hnot hs
    have hiff : ¬ (last = '+' ∨ last = '-') ↔ isArithmetic last = false := by
      rw [← Bool.not_eq_true, isArithmetic_iff, or_iff_right (not_or.mpr hnot)]
    rw [loops_empty hlast hs, hiff, hclosed]
  cases m with
  | word kind w =>
    rw [word_end]
    cases kind with
    | statement => exact iff_of_true (halts_eof rfl) rfl
    | target => exact iff_of_true (halts_eof rfl) rfl
    | branch => exact iff_of_false id Bool.false_ne_true
    | number d g => exact hempty hm.2 advance_ended
  | comment =>
    refine iff_of_true ⟨ended text, ?_, halts_eof rfl⟩ rfl
    rw [List.length_nil, skipLineLoop, bind_of_ok fgetc_end]
    rfl
  | letName => exact iff_of_true ⟨_, _, advance_empty, halts_eof rfl⟩ rfl
  | letEquals => exact iff_of_true ⟨_, _, advance_empty, halts_eof rfl⟩ rfl
  | start d g =>
    have hop : isArithmetic last = false := hm
    have hstart : Starts d g (pos text []) ↔ Closes d g (pos text [last]) :=
      starts_none (peek_empty hlast) rfl
    exact hstart.trans ((and_iff_right hop).symm.trans hclosed)
  | operand d g =>
    have hoperand : Operands (Closes d g) (pos text []) ↔ Loops (Closes d g) (pos text [last]) :=
      operands_none (peek_empty hlast) rfl
    exact hoperand.trans ((loops_last hlast).trans hclosed)
  | after d g =>
    have hop : isArithmetic last = false := hm
    refine hempty ⟨?_, ?_⟩ advance_empty
    · rintro rfl
      cases hop
    · rintro rfl
      cases hop
  | overflow => exact iff_of_false id Bool.false_ne_true

/-- The loop of `main` makes finitely many calls of `parse`, and each of them returns, just if
the file ends well. -/
theorem front_end_terminates_iff (text : List Char) :
    (∃ r, Returns (fun n => mainLoop n 0) (fopen text) r) ↔ endsWell text = true := by
  change Halts (fopen text) ↔ _
  rw [halts_scan, endsWell]
  cases hlast : text.getLast? with
  | some last => exact left_end hlast (coherent_scan hlast)
  | none =>
    obtain rfl := List.getLast?_eq_none_iff.mp hlast
    exact (word_end .statement).trans (iff_of_true (halts_eof rfl) rfl)

/-- `PRINT A+` at the end of the file is read for ever. -/
theorem print_plus_hangs :
    ¬ ∃ r, Returns (fun n => mainLoop n 0) (fopen "PRINT A+".toList) r := by
  change ¬ Halts _
  have hlast : "PRINT A+".toList.getLast? = some '+' := by decide
  rw [halts_scan, left_end hlast (coherent_scan hlast)]
  decide

end CS24.TeenyBasic
