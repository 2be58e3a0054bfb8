import CS24.TeenyBasic.Stream

/-!
# What the parser returns

One rule for each function of the parser: what it returns with enough fuel, from what the
functions that it calls return.
-/

namespace CS24.TeenyBasic
open Machine

variable {text ws rest : List Char} {c last : Char} {n : Nat} {s s₁ s' : Stream}
  {r : Option Node × Stream} {o : Option Node}

theorem grammar_fueled (n : Nat) :
    Below (factor n) (factor (n + 1)) ∧ Below (term n) (term (n + 1)) ∧
      (∀ o, Below (termLoop n o) (termLoop (n + 1) o)) ∧
      Below (expression n) (expression (n + 1)) ∧
      ∀ o, Below (expressionLoop n o) (expressionLoop (n + 1) o) := by
  induction n with
  | zero =>
    refine ⟨?_, ?_, fun o => ?_, ?_, fun o => ?_⟩
    · rw [factor]
      exact .throw _
    · rw [term]
      exact .throw _
    · rw [termLoop]
      exact .throw _
    · rw [expression]
      exact .throw _
    · rw [expressionLoop]
      exact .throw _
  | succ n ih =>
    obtain ⟨hfactor, hterm, htermLoop, hexpression, hexpressionLoop⟩ := ih
    refine ⟨?_, ?_, fun o => ?_, ?_, fun o => ?_⟩
    · rw [factor, factor]
      refine (Below.refl _).bind fun next => .ite (.refl _) (.ite ?_ (.refl _))
      exact (Below.refl _).bind fun _ => hexpression.bind fun _ => .refl _
    · rw [term, term]
      exact hfactor.bind fun o => htermLoop o
    · rw [termLoop, termLoop]
      refine (Below.refl _).bind fun next => .ite (.refl _) ?_
      exact hfactor.bind fun _ => htermLoop _
    · rw [expression, expression]
      refine (Below.refl _).bind fun next => .ite (.refl _) ?_
      exact hterm.bind fun o => hexpressionLoop o
    · rw [expressionLoop, expressionLoop]
      refine (Below.refl _).bind fun next => .ite (.refl _) ?_
      exact hterm.bind fun _ => hexpressionLoop _

theorem factor_fueled : Fueled factor := fun n => (grammar_fueled n).1
theorem term_fueled : Fueled term := fun n => (grammar_fueled n).2.1
theorem termLoop_fueled (o : Option Node) : Fueled fun n => termLoop n o :=
  fun n => (grammar_fueled n).2.2.1 o
theorem expression_fueled : Fueled expression := fun n => (grammar_fueled n).2.2.2.1
theorem expressionLoop_fueled (o : Option Node) : Fueled fun n => expressionLoop n o :=
  fun n => (grammar_fueled n).2.2.2.2 o

theorem comparison_fueled : Fueled comparison := by
  intro n
  refine (expression_fueled n).bind fun _ => (Below.refl _).bind fun op => .ite (.refl _) ?_
  exact (expression_fueled n).bind fun _ => .refl _

theorem statement_fueled : Fueled statement := by
  intro n
  induction n with
  | zero =>
    rw [statement]
    exact .throw _
  | succ n ih =>
    rw [statement, statement]
    refine (Below.refl _).bind fun next => ?_
    cases next with
    | none => exact .refl _
    | some next =>
      refine .ite (.refl _) (.ite (.refl _) (.ite (.refl _) (.ite ?_ (.ite ?_
        (.ite ?_ (.refl _))))))
      · exact (expression_fueled n).bind fun _ => .refl _
      · refine (Below.refl _).bind fun var => .ite ?_ (.refl _)
        refine (Below.refl _).bind fun op => .ite ?_ (.refl _)
        exact (expression_fueled n).bind fun _ => .refl _
      · refine (comparison_fueled n).bind fun cond => (Below.refl _).bind fun next => ?_
        cases next with
        | none => exact .refl _
        | some next => exact .ite (.refl _) (ih.bind fun _ => .refl _)

theorem mainLoop_fueled (labelNo : Nat) : Fueled fun n => mainLoop n labelNo := by
  intro n
  induction n generalizing labelNo with
  | zero =>
    change Below (mainLoop 0 labelNo) _
    rw [mainLoop]
    exact .throw _
  | succ n ih =>
    change Below (mainLoop (n + 1) labelNo) (mainLoop (n + 2) labelNo)
    rw [mainLoop, mainLoop]
    refine (Below.refl _).bind fun eof => .ite (.refl _) ?_
    refine (statement_fueled n).bind fun ast => ?_
    cases ast with
    | none => exact ih labelNo
    | some ast => exact .ite ((ih _).bind fun _ => .refl _) (.refl _)

theorem factor_none (hpeek : peek s = .ok (c, s₁)) (hc : isExpressionStart c = false) :
    Returns factor s r ↔ r = (none, s₁) := by
  simp only [isExpressionStart, Bool.or_eq_false_iff, beq_eq_false_iff_ne] at hc
  obtain ⟨⟨hparen, hvar⟩, hnum⟩ := hc
  rw [returns_succ (by rw [factor])]
  simp only [factor]
  rw [returns_bind_of_ok hpeek]
  simp only [hparen, hvar, hnum, if_false, ite_self, Bool.false_eq_true]
  rw [returns_const]
  exact ⟨fun h => (Except.ok.inj h).symm, fun h => congrArg Except.ok h.symm⟩

/-- What `factor` does after the expression in parentheses. -/
def closeParen (node : Option Node) : Parse (Option Node) := do
  let next ← advance
  if next ≠ ')' then do
    rewindOne
    pure none
  else pure node

theorem factor_paren (hpeek : peek s = .ok ('(', s₁)) {s₂ : Stream}
    (hadvance : advance s₁ = .ok ('(', s₂)) :
    Returns factor s r ↔ ∃ o s₃, Returns expression s₂ (o, s₃) ∧ closeParen o s₃ = .ok r := by
  rw [returns_succ (by rw [factor])]
  simp only [factor]
  rw [returns_bind_of_ok hpeek]
  have hnull : ¬ '(' = '\x00' := by decide
  simp only [hnull, if_false, if_true]
  rw [returns_bind_of_ok hadvance, returns_bind_const expression_fueled]
  rfl

theorem factor_var (hpeek : peek s = .ok (c, s₁)) {s₂ : Stream}
    (hadvance : advance s₁ = .ok (c, s₂)) (hc : isVariableName c) :
    Returns factor s r ↔ r = (some (.var c), s₂) := by
  have hnull : ¬ c = '\x00' := by
    rintro rfl
    cases hc
  have hparen : ¬ c = '(' := by
    rintro rfl
    cases hc
  rw [returns_succ (by rw [factor])]
  simp only [factor]
  rw [returns_bind_of_ok hpeek]
  simp only [hnull, hparen, hc, if_false, if_true]
  rw [returns_bind_of_ok hadvance, returns_const, initVarNode, if_neg hnull]
  exact ⟨fun h => (Except.ok.inj h).symm, fun h => congrArg Except.ok h.symm⟩

theorem factor_num_iff (hpeek : peek s = .ok (c, s₁)) (hc : isNumberStart c) :
    Returns factor s r ↔ ∃ numAsStr s₂, advanceUntilSeparator s₁ = .ok (numAsStr, s₂) ∧
      r = (initNumNode numAsStr, s₂) := by
  have hdigit : ∀ d : Char, d.isDigit = false → d ≠ '+' → d ≠ '-' → c ≠ d := by
    rintro d hd hplus hminus rfl
    simp [isNumberStart, hd, hplus, hminus] at hc
  have hnull : ¬ c = '\x00' := hdigit _ rfl (by decide) (by decide)
  have hparen : ¬ c = '(' := hdigit _ rfl (by decide) (by decide)
  have hvar : isVariableName c = false := by
    rw [isVariableName, Bool.eq_false_iff]
    intro hup
    simp only [isNumberStart, Bool.or_eq_true, beq_iff_eq] at hc
    rcases hc with (rfl | rfl) | hc
    · cases hup
    · cases hup
    · simp only [Char.isUpper, Char.isDigit, Bool.and_eq_true, decide_eq_true_eq, ge_iff_le,
        Bool.decide_and, UInt32.le_iff_toNat_le] at hup hc
      have hA : 'A'.val.toNat = 65 := rfl
      have h9 : '9'.val.toNat = 57 := rfl
      omega
  rw [returns_succ (by rw [factor])]
  simp only [factor]
  rw [returns_bind_of_ok hpeek]
  simp only [hnull, hparen, hvar, hc, if_false, if_true, Bool.false_eq_true]
  rw [returns_const_bind]
  refine exists_congr fun numAsStr => exists_congr fun s₂ => and_congr_right fun _ => ?_
  rw [returns_const]
  exact ⟨fun h => (Except.ok.inj h).symm, fun h => congrArg Except.ok h.symm⟩

theorem factor_num (hpeek : peek s = .ok (c, s₁)) (hc : isNumberStart c)
    {numAsStr : Option (List Char)} {s₂ : Stream}
    (hword : advanceUntilSeparator s₁ = .ok (numAsStr, s₂)) :
    Returns factor s r ↔ r = (initNumNode numAsStr, s₂) := by
  rw [factor_num_iff hpeek hc, hword]
  constructor
  · rintro ⟨w, s', heq, h⟩
    obtain ⟨rfl, rfl⟩ := Prod.mk.inj (Except.ok.inj heq)
    exact h
  · exact fun h => ⟨numAsStr, s₂, rfl, h⟩

theorem term_iff : Returns term s r ↔ ∃ o s₁, Returns factor s (o, s₁) ∧
    Returns (fun n => termLoop n o) s₁ r := by
  rw [returns_succ (by rw [term])]
  simp only [term]
  exact returns_bind factor_fueled termLoop_fueled

theorem termLoop_stop (hadvance : advance s = .ok (c, s₁)) (hc : ¬ (c = '*' ∨ c = '/'))
    {s₂ : Stream} (hrewind : rewindOne s₁ = .ok ((), s₂)) :
    Returns (fun n => termLoop n o) s r ↔ r = (o, s₂) := by
  rw [returns_succ (by rw [termLoop])]
  simp only [termLoop]
  rw [returns_bind_of_ok hadvance]
  simp only [hc, not_false_eq_true, if_true]
  rw [returns_bind_of_ok hrewind, returns_const]
  exact ⟨fun h => (Except.ok.inj h).symm, fun h => congrArg Except.ok h.symm⟩

theorem termLoop_operator (hadvance : advance s = .ok (c, s₁)) (hc : c = '*' ∨ c = '/') :
    Returns (fun n => termLoop n o) s r ↔ ∃ o' s₂, Returns factor s₁ (o', s₂) ∧
      Returns (fun n => termLoop n (initBinaryNode c o o')) s₂ r := by
  rw [returns_succ (by rw [termLoop])]
  simp only [termLoop]
  rw [returns_bind_of_ok hadvance]
  simp only [hc, not_true_eq_false, if_false]
  exact returns_bind factor_fueled fun o' => termLoop_fueled _

theorem expression_none (hpeek : peek s = .ok (c, s₁)) (hc : isExpressionStart c = false) :
    Returns expression s r ↔ r = (none, s₁) := by
  rw [returns_succ (by rw [expression])]
  simp only [expression]
  rw [returns_bind_of_ok hpeek]
  simp only [hc, Bool.false_eq_true, not_false_eq_true, if_true]
  rw [returns_const]
  exact ⟨fun h => (Except.ok.inj h).symm, fun h => congrArg Except.ok h.symm⟩

theorem expression_iff (hpeek : peek s = .ok (c, s₁)) (hc : isExpressionStart c) :
    Returns expression s r ↔ ∃ o s₂, Returns term s₁ (o, s₂) ∧
      Returns (fun n => expressionLoop n o) s₂ r := by
  rw [returns_succ (by rw [expression])]
  simp only [expression]
  rw [returns_bind_of_ok hpeek]
  simp only [hc, not_true_eq_false, if_false]
  exact returns_bind term_fueled expressionLoop_fueled

theorem expressionLoop_stop (hadvance : advance s = .ok (c, s₁)) (hc : ¬ (c = '+' ∨ c = '-'))
    {s₂ : Stream} (hrewind : rewindOne s₁ = .ok ((), s₂)) :
    Returns (fun n => expressionLoop n o) s r ↔ r = (o, s₂) := by
  rw [returns_succ (by rw [expressionLoop])]
  simp only [expressionLoop]
  rw [returns_bind_of_ok hadvance]
  simp only [hc, not_false_eq_true, if_true]
  rw [returns_bind_of_ok hrewind, returns_const]
  exact ⟨fun h => (Except.ok.inj h).symm, fun h => congrArg Except.ok h.symm⟩

theorem expressionLoop_operator (hadvance : advance s = .ok (c, s₁)) (hc : c = '+' ∨ c = '-') :
    Returns (fun n => expressionLoop n o) s r ↔ ∃ o' s₂, Returns term s₁ (o', s₂) ∧
      Returns (fun n => expressionLoop n (initBinaryNode c o o')) s₂ r := by
  rw [returns_succ (by rw [expressionLoop])]
  simp only [expressionLoop]
  rw [returns_bind_of_ok hadvance]
  simp only [hc, not_true_eq_false, if_false]
  exact returns_bind term_fueled fun o' => expressionLoop_fueled _

/-- What `comparison` does after the left expression. -/
def compareRest (left : Option Node) (n : Nat) : Parse (Option Node) := do
  let op ← advance
  if ¬ (op = '<' ∨ op = '=' ∨ op = '>') then pure none
  else do
    let right ← expression n
    pure (initBinaryNode op left right)

theorem comparison_iff : Returns comparison s r ↔ ∃ o s₁, Returns expression s (o, s₁) ∧
    Returns (compareRest o) s₁ r := by
  have hrest : ∀ o, Fueled fun n => compareRest o n := by
    intro o n
    refine (Below.refl _).bind fun op => .ite (.refl _) ?_
    exact (expression_fueled n).bind fun _ => .refl _
  exact returns_bind (q := fun n o => compareRest o n) expression_fueled hrest

theorem compareRest_none (hadvance : advance s = .ok (c, s₁))
    (hc : ¬ (c = '<' ∨ c = '=' ∨ c = '>')) :
    Returns (compareRest o) s r ↔ r = (none, s₁) := by
  simp only [Returns, compareRest, bind_of_ok hadvance, if_pos hc]
  exact ⟨fun ⟨_, h⟩ => (Except.ok.inj h).symm, fun h => ⟨0, congrArg Except.ok h.symm⟩⟩

theorem compareRest_iff (hadvance : advance s = .ok (c, s₁))
    (hc : c = '<' ∨ c = '=' ∨ c = '>') :
    Returns (compareRest o) s r ↔ ∃ o', Returns expression s₁ (o', r.2) ∧
      r.1 = initBinaryNode c o o' := by
  have hrest : Returns (compareRest o) s r ↔
      Returns (fun n => expression n >>= fun o' => pure (initBinaryNode c o o')) s₁ r := by
    simp only [Returns, compareRest, bind_of_ok hadvance, hc, not_true_eq_false, if_false]
  rw [hrest, returns_bind_const expression_fueled]
  constructor
  · rintro ⟨o', s', ho', h⟩
    obtain rfl := Except.ok.inj h
    exact ⟨o', ho', rfl⟩
  · rintro ⟨o', ho', h⟩
    exact ⟨o', r.2, ho', congrArg Except.ok (Prod.ext h.symm rfl)⟩

/-- What `statement` does after `LET`. -/
def letRest (n : Nat) : Parse (Option Node) := do
  let var ← advance
  if isVariableName var then do
    let op ← advance
    if op = '=' then do
      let value ← expression n
      pure (initLetNode var value)
    else pure none
  else pure none

/-- What `statement` does after the condition of an `IF`. -/
def thenRest (cond : Option Node) (n : Nat) : Parse (Option Node) := do
  match ← advanceUntilSeparator with
  | none => throw .nullString
  | some next =>
    if next ≠ "THEN".toList then pure none
    else do
      let ifBranch ← statement n
      pure (initCondNode cond ifBranch)

/-- What `statement` does after its first word. -/
def wordRest (next : List Char) (n : Nat) : Parse (Option Node) :=
  if next = [] then pure none
  else if next.head? = some '#' then do
    skipLine
    pure none
  else if next = "GOTO".toList then do
    let label ← advanceUntilSeparator
    pure (initGotoNode label)
  else if next = "PRINT".toList then do
    let expr ← expression n
    pure (initPrintNode expr)
  else if next = "LET".toList then letRest n
  else if next = "IF".toList then do
    let cond ← comparison n
    thenRest cond n
  else pure (initLabelNode (some next))

theorem statement_none (hword : advanceUntilSeparator s = .ok (none, s₁)) :
    Returns statement s r ↔ r = (none, s₁) := by
  rw [returns_succ (by rw [statement])]
  simp only [statement]
  rw [returns_bind_of_ok hword, returns_const]
  exact ⟨fun h => (Except.ok.inj h).symm, fun h => congrArg Except.ok h.symm⟩

theorem statement_word {next : List Char} (hword : advanceUntilSeparator s = .ok (some next, s₁)) :
    Returns statement s r ↔ Returns (wordRest next) s₁ r := by
  rw [returns_succ (by rw [statement])]
  simp only [statement]
  rw [returns_bind_of_ok hword]
  rfl

theorem wordRest_empty : Returns (wordRest []) s r ↔ r = (none, s) := by
  simp only [Returns, wordRest, if_true]
  exact ⟨fun ⟨_, h⟩ => (Except.ok.inj h).symm, fun h => ⟨0, congrArg Except.ok h.symm⟩⟩

theorem wordRest_comment {next : List Char} (hnext : next.head? = some '#')
    (hskip : skipLine s = .ok ((), s₁)) : Returns (wordRest next) s r ↔ r = (none, s₁) := by
  have hne : next ≠ [] := by
    rintro rfl
    cases hnext
  simp only [Returns, wordRest, if_neg hne, if_pos hnext, bind_of_ok hskip]
  exact ⟨fun ⟨_, h⟩ => (Except.ok.inj h).symm, fun h => ⟨0, congrArg Except.ok h.symm⟩⟩

theorem wordRest_goto {label : Option (List Char)}
    (hword : advanceUntilSeparator s = .ok (label, s₁)) :
    Returns (wordRest "GOTO".toList) s r ↔ r = (initGotoNode label, s₁) := by
  have hrest : ∀ n, wordRest "GOTO".toList n s = .ok (initGotoNode label, s₁) := fun n =>
    (bind_of_ok hword).trans rfl
  simp only [Returns, hrest]
  exact ⟨fun ⟨_, h⟩ => (Except.ok.inj h).symm, fun h => ⟨0, congrArg Except.ok h.symm⟩⟩

theorem wordRest_print : Returns (wordRest "PRINT".toList) s r ↔
    ∃ o s₁, Returns expression s (o, s₁) ∧ r = (initPrintNode o, s₁) := by
  have hrest : Returns (wordRest "PRINT".toList) s r ↔
      Returns (fun n => expression n >>= fun o => pure (initPrintNode o)) s r := Iff.rfl
  rw [hrest, returns_bind_const expression_fueled]
  refine exists_congr fun o => exists_congr fun s₁ => and_congr_right fun _ => ?_
  exact ⟨fun h => (Except.ok.inj h).symm, fun h => congrArg Except.ok h.symm⟩

theorem wordRest_let : Returns (wordRest "LET".toList) s r ↔ Returns letRest s r := Iff.rfl

theorem thenRest_fueled (cond : Option Node) : Fueled (thenRest cond) := by
  refine fun n => (Below.refl _).bind fun next => ?_
  cases next with
  | none => exact .refl _
  | some next => exact .ite (.refl _) ((statement_fueled n).bind fun _ => .refl _)

theorem wordRest_if : Returns (wordRest "IF".toList) s r ↔
    ∃ cond s₁, Returns comparison s (cond, s₁) ∧ Returns (thenRest cond) s₁ r := by
  have hrest : Returns (wordRest "IF".toList) s r ↔
      Returns (fun n => comparison n >>= fun cond => thenRest cond n) s r := Iff.rfl
  rw [hrest]
  exact returns_bind (q := fun n cond => thenRest cond n) comparison_fueled thenRest_fueled

def keywords : List (List Char) :=
  ["GOTO".toList, "PRINT".toList, "LET".toList, "IF".toList]

theorem wordRest_label {next : List Char} (hne : next ≠ []) (hhash : next.head? ≠ some '#')
    (hkey : next ∉ keywords) :
    Returns (wordRest next) s r ↔ r = (some (.label (String.ofList next)), s) := by
  simp only [keywords, List.mem_cons, List.not_mem_nil, or_false, not_or] at hkey
  obtain ⟨hgoto, hprint, hlet, hif⟩ := hkey
  simp only [Returns, wordRest, if_neg hne, if_neg hhash, if_neg hgoto, if_neg hprint, if_neg hlet,
    if_neg hif]
  exact ⟨fun ⟨_, h⟩ => (Except.ok.inj h).symm, fun h => ⟨0, congrArg Except.ok h.symm⟩⟩

theorem letRest_none (hadvance : advance s = .ok (c, s₁)) (hc : isVariableName c = false) :
    Returns letRest s r ↔ r = (none, s₁) := by
  simp only [Returns, letRest, bind_of_ok hadvance, hc, Bool.false_eq_true, if_false]
  exact ⟨fun ⟨_, h⟩ => (Except.ok.inj h).symm, fun h => ⟨0, congrArg Except.ok h.symm⟩⟩

theorem letRest_no_equals {s₂ : Stream} {d : Char} (hadvance : advance s = .ok (c, s₁))
    (hc : isVariableName c) (hadvance' : advance s₁ = .ok (d, s₂)) (hd : d ≠ '=') :
    Returns letRest s r ↔ r = (none, s₂) := by
  simp only [Returns, letRest, bind_of_ok hadvance, hc, if_true, bind_of_ok hadvance', if_neg hd]
  exact ⟨fun ⟨_, h⟩ => (Except.ok.inj h).symm, fun h => ⟨0, congrArg Except.ok h.symm⟩⟩

theorem letRest_iff {s₂ : Stream} (hadvance : advance s = .ok (c, s₁)) (hc : isVariableName c)
    (hadvance' : advance s₁ = .ok ('=', s₂)) : Returns letRest s r ↔
      ∃ o s₃, Returns expression s₂ (o, s₃) ∧ r = (initLetNode c o, s₃) := by
  have hrest : Returns letRest s r ↔
      Returns (fun n => expression n >>= fun o => pure (initLetNode c o)) s₂ r := by
    simp only [Returns, letRest, bind_of_ok hadvance, hc, if_true, bind_of_ok hadvance']
  rw [hrest, returns_bind_const expression_fueled]
  refine exists_congr fun o => exists_congr fun s₃ => and_congr_right fun _ => ?_
  exact ⟨fun h => (Except.ok.inj h).symm, fun h => congrArg Except.ok h.symm⟩

theorem thenRest_null (hword : advanceUntilSeparator s = .ok (none, s₁)) :
    ¬ Returns (thenRest o) s r := by
  rintro ⟨n, hn⟩
  rw [thenRest, bind_of_ok hword] at hn
  cases hn

theorem thenRest_other {next : List Char} (hword : advanceUntilSeparator s = .ok (some next, s₁))
    (hnext : next ≠ "THEN".toList) : Returns (thenRest o) s r ↔ r = (none, s₁) := by
  simp only [Returns, thenRest, bind_of_ok hword, if_pos hnext]
  exact ⟨fun ⟨_, h⟩ => (Except.ok.inj h).symm, fun h => ⟨0, congrArg Except.ok h.symm⟩⟩

theorem thenRest_iff (hword : advanceUntilSeparator s = .ok (some "THEN".toList, s₁)) :
    Returns (thenRest o) s r ↔
      ∃ o' s₂, Returns statement s₁ (o', s₂) ∧ r = (initCondNode o o', s₂) := by
  have hrest : Returns (thenRest o) s r ↔
      Returns (fun n => statement n >>= fun o' => pure (initCondNode o o')) s₁ r := by
    simp only [Returns, thenRest, bind_of_ok hword, ne_eq, not_true_eq_false, if_false]
  rw [hrest, returns_bind_const statement_fueled]
  refine exists_congr fun o => exists_congr fun s₃ => and_congr_right fun _ => ?_
  exact ⟨fun h => (Except.ok.inj h).symm, fun h => congrArg Except.ok h.symm⟩

theorem compiles_of_statement {ast : Node} (h : statement n s = .ok (some ast, s')) (k : Nat) :
    (compileAst ast k).2.2 = true := by
  cases n with
  | zero =>
    rw [statement] at h
    cases h
  | succ n =>
    rw [statement] at h
    obtain ⟨next, s₁, -, h⟩ := bind_eq_ok.mp h
    cases next with
    | none => cases (pure_eq_ok h).1
    | some next =>
      simp only at h
      split_ifs at h
      · cases (pure_eq_ok h).1
      · obtain ⟨_, s₂, -, h⟩ := bind_eq_ok.mp h
        cases (pure_eq_ok h).1
      · obtain ⟨label, s₂, -, h⟩ := bind_eq_ok.mp h
        obtain ⟨l, -, rfl⟩ := Option.map_eq_some_iff.mp (pure_eq_ok h).1
        rfl
      · obtain ⟨expr, s₂, -, h⟩ := bind_eq_ok.mp h
        obtain ⟨e, -, rfl⟩ := Option.map_eq_some_iff.mp (pure_eq_ok h).1
        rfl
      · obtain ⟨var, s₂, -, h⟩ := bind_eq_ok.mp h
        split_ifs at h
        · obtain ⟨op, s₃, -, h⟩ := bind_eq_ok.mp h
          split_ifs at h
          · obtain ⟨value, s₄, -, h⟩ := bind_eq_ok.mp h
            have hlet := (pure_eq_ok h).1
            rw [initLetNode] at hlet
            split_ifs at hlet
            obtain ⟨e, -, rfl⟩ := Option.map_eq_some_iff.mp hlet
            rfl
          · cases (pure_eq_ok h).1
        · cases (pure_eq_ok h).1
      · obtain ⟨cond, s₂, -, h⟩ := bind_eq_ok.mp h
        obtain ⟨next, s₃, -, h⟩ := bind_eq_ok.mp h
        cases next with
        | none => cases h
        | some next =>
          simp only at h
          split_ifs at h
          · cases (pure_eq_ok h).1
          · obtain ⟨ifBranch, s₄, -, h⟩ := bind_eq_ok.mp h
            have hcond := (pure_eq_ok h).1
            cases cond with
            | none => cases hcond
            | some c =>
              cases ifBranch with
              | none => cases hcond
              | some b =>
                obtain rfl := Option.some.inj hcond
                rfl
      · obtain rfl := Option.some.inj (pure_eq_ok h).1
        rfl

theorem mainLoop_eof (heof : s.eof = true) (k : Nat) :
    mainLoop (n + 1) k s = .ok (([], true), s) := by
  rw [mainLoop, bind_of_ok (show reads Stream.eof s = .ok (_, _) from rfl), if_pos heof]
  rfl

theorem mainLoop_none (heof : s.eof = false) (hst : statement n s = .ok (none, s₁)) (k : Nat) :
    mainLoop (n + 1) k s = mainLoop n k s₁ := by
  rw [mainLoop, bind_of_ok (show reads Stream.eof s = .ok (_, _) from rfl),
    if_neg (ne_true_of_eq_false heof), parse, bind_of_ok hst]

theorem mainLoop_some {ast : Node} (heof : s.eof = false)
    (hst : statement n s = .ok (some ast, s₁)) (k : Nat) : mainLoop (n + 1) k s =
      (mainLoop n (compileAst ast k).2.1 >>= fun r => pure (ast :: r.1, r.2)) s₁ := by
  rw [mainLoop, bind_of_ok (show reads Stream.eof s = .ok (_, _) from rfl),
    if_neg (ne_true_of_eq_false heof), parse, bind_of_ok hst]
  have hok := compiles_of_statement hst k
  rcases hc : compileAst ast k with ⟨lines, labelNo, ok⟩
  rw [hc] at hok
  simp only at hok
  simp only [hc, hok, if_true]

theorem mainLoop_labelNo (n k k' : Nat) : mainLoop n k = mainLoop n k' := by
  induction n generalizing k k' with
  | zero => rw [mainLoop, mainLoop]
  | succ n ih =>
    funext s
    cases heof : s.eof with
    | true => rw [mainLoop_eof heof, mainLoop_eof heof]
    | false =>
      cases hst : statement n s with
      | error e =>
        have herror : ∀ k, mainLoop (n + 1) k s = .error e := by
          intro k
          rw [mainLoop, bind_of_ok (show reads Stream.eof s = .ok (_, _) from rfl),
            if_neg (ne_true_of_eq_false heof), parse, bind_of_error hst]
        rw [herror, herror]
      | ok r =>
        obtain ⟨o, s₁⟩ := r
        cases o with
        | none => rw [mainLoop_none heof hst, mainLoop_none heof hst, ih k k']
        | some ast =>
          rw [mainLoop_some heof hst, mainLoop_some heof hst, ih _ (compileAst ast k').2.1]

/-- From `s` on, the loop of `main` gets these statements from `parse` and ends. -/
def Yields (s : Stream) (asts : List Node) : Prop :=
  ∃ s', Returns (fun n => mainLoop n 0) s ((asts, true), s')

theorem Yields.unique {asts asts' : List Node} (h : Yields s asts) (h' : Yields s asts') :
    asts = asts' := by
  obtain ⟨u, hu⟩ := h
  obtain ⟨u', hu'⟩ := h'
  have heq := hu.unique (mainLoop_fueled 0) hu'
  exact congrArg (fun r => r.1.1) heq

theorem yields_eof (heof : s.eof = true) : Yields s [] := ⟨s, 1, mainLoop_eof heof 0⟩

theorem yields_none (heof : s.eof = false) (hst : Returns statement s (none, s₁))
    {asts : List Node} : Yields s asts ↔ Yields s₁ asts := by
  obtain ⟨m, hm⟩ := hst
  constructor
  · rintro ⟨s', n, hn⟩
    have hn' := (mainLoop_fueled 0).mono (Nat.le_max_left n (m + 1)) s _ hn
    obtain ⟨j, hj⟩ := Nat.exists_eq_succ_of_ne_zero (show max n (m + 1) ≠ 0 by omega)
    have hst := statement_fueled.mono (show m ≤ j by omega) s _ hm
    rw [hj] at hn'
    exact ⟨s', j, (mainLoop_none heof hst 0).symm.trans hn'⟩
  · rintro ⟨s', n, hn⟩
    have hn' := (mainLoop_fueled 0).mono (Nat.le_max_left n m) s₁ _ hn
    have hst := statement_fueled.mono (Nat.le_max_right n m) s _ hm
    exact ⟨s', max n m + 1, (mainLoop_none heof hst 0).trans hn'⟩

theorem yields_some {ast : Node} {asts : List Node} (heof : s.eof = false)
    (hst : Returns statement s (some ast, s₁)) (h : Yields s₁ asts) : Yields s (ast :: asts) := by
  obtain ⟨m, hm⟩ := hst
  obtain ⟨s', n, hn⟩ := h
  have hn' := (mainLoop_fueled 0).mono (Nat.le_max_left n m) s₁ _ hn
  have hst := statement_fueled.mono (Nat.le_max_right n m) s _ hm
  refine ⟨s', max n m + 1, (mainLoop_some heof hst 0).trans
    (bind_eq_ok.mpr ⟨(asts, true), s', ?_, rfl⟩)⟩
  rw [mainLoop_labelNo _ _ 0]
  exact hn'

end CS24.TeenyBasic
