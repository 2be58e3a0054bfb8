import CS24.TeenyBasic.Correctness
import CS24.TeenyBasic.RoundTrip

/-!
# From the text to the machine

`main` of `compiler.c` on a whole file. Whatever the text is, a statement that was parsed
has one of the shapes that compile, so the error exit is never taken; and the file that is
printed does what the statements mean that were parsed, where the labels allow it to be
assembled. The statements of a text in the grammar are those that it was written from.
-/

namespace CS24.TeenyBasic
open Machine

variable {text : List Char} {n k : Nat} {s s' : Stream} {lines : List Line}
  {asts : List Node} {o : Option Node} {P Q : Node → Prop}

/-- The loop of `main`, with the lines it prints. -/
def compileLoop : Nat → Nat → Parse (List Line × Bool)
  | 0, _ => throw .outOfFuel
  | n + 1, labelNo => do
    if ← reads Stream.eof then pure ([], true)
    else
      match ← parse n with
      | none => compileLoop n labelNo
      | some ast =>
        let (ac, labelNo, compiles) := compileAst ast labelNo
        if compiles then do
          let (rest, compiled) ← compileLoop n labelNo
          pure (ac ++ rest, compiled)
        else pure (ac, false)

/-- What the compiler prints, and its exit status. -/
structure Compilation where
  lines : List Line
  status : Nat

def compilerMain (n : Nat) (text : List Char) : Except Fault Compilation := do
  let ((body, compiled), _) ← compileLoop n 0 (fopen text)
  if compiled then pure ⟨header ++ body ++ footer, 0⟩
  else pure ⟨header ++ body, 3⟩

def Gives (P : Node → Prop) (c : Parse (Option Node)) : Prop :=
  ∀ s, wp c (fun _ => True) (fun o _ => ∀ e ∈ o, P e) s

theorem Gives.pure (h : ∀ e ∈ o, P e) : Gives P (pure o) := fun _ => h

theorem Gives.none : Gives P (Pure.pure Option.none) := .pure fun _ h => by cases h

theorem Gives.throw (e : Fault) : Gives P (throw e) := fun _ => trivial

theorem Gives.bind {α : Type} {c : Parse α} {f : α → Parse (Option Node)}
    (hf : ∀ a, Gives P (f a)) : Gives P (c >>= f) := fun _ =>
  (wp_of_forall (Q := fun _ _ => True) (fun _ _ => trivial) fun _ => trivial).bind
    fun a s' _ => hf a s'

theorem Gives.node {c : Parse (Option Node)} {f : Option Node → Parse (Option Node)}
    (hc : Gives Q c) (hf : ∀ o, (∀ e ∈ o, Q e) → Gives P (f o)) : Gives P (c >>= f) := fun s =>
  (hc s).bind fun o s' ho => hf o ho s'

theorem Gives.ite {p : Prop} [Decidable p] {c d : Parse (Option Node)} (hc : p → Gives P c)
    (hd : ¬p → Gives P d) : Gives P (if p then c else d) := fun s =>
  wp_ite.mpr ⟨fun h => hc h s, fun h => hd h s⟩

theorem Gives.ok (h : Gives P c) {e : Node} (hc : c s = .ok (some e, s')) : P e :=
  (h s).ok hc e rfl

theorem advance_seen {before after : List Char} {c : Char} {eof : Bool}
    (hc : isspace c = false) :
    advance ⟨before, c :: after, eof⟩ = .ok (c, ⟨c :: before, after, eof⟩) := by
  rw [advance, bind_of_ok (show reads Stream.after _ = .ok (_, _) from rfl), advanceLoop,
    bind_of_ok (show fgetc _ = .ok (some c, _) from rfl)]
  simp only [hc, Bool.false_eq_true, if_false]
  rfl

theorem advanceLoop_before (n : Nat) (s : Stream) :
    wp (advanceLoop n) (fun _ => True)
      (fun c s₁ => c ≠ '\x00' → isspace c = false ∧ ∃ before, s₁.before = c :: before) s := by
  induction n generalizing s with
  | zero =>
    rw [advanceLoop]
    trivial
  | succ n ih =>
    obtain ⟨before, after, eof⟩ := s
    rw [advanceLoop]
    cases after with
    | nil =>
      rw [wp_bind_of_ok (show fgetc _ = .ok (none, _) from rfl)]
      exact fun h => absurd rfl h
    | cons c after =>
      rw [wp_bind_of_ok (show fgetc _ = .ok (some c, _) from rfl)]
      refine wp_ite.mpr ⟨fun _ => ih _, fun hspace _ => ?_⟩
      exact ⟨eq_false_of_ne_true hspace, before, rfl⟩

theorem peek_spec (s : Stream) :
    wp peek (fun _ => True) (fun c s₁ => c ≠ '\x00' → ∃ s₂, advance s₁ = .ok (c, s₂)) s := by
  rw [peek, advance]
  refine wp.bind (wp_bind.mpr (advanceLoop_before _ _)) fun c s₁ hc => ?_
  intro hnull
  obtain ⟨hspace, before, hbefore⟩ := hc hnull
  obtain ⟨before', after, eof⟩ := s₁
  obtain rfl : before' = c :: before := hbefore
  exact ⟨⟨c :: before, after, false⟩, advance_seen hspace⟩

theorem gives_binary {op : Char} {left right : Option Node}
    (hP : ∀ l ∈ left, ∀ r ∈ right, P (.binaryOp op l r)) :
    ∀ e ∈ initBinaryNode op left right, P e := by
  intro e he
  cases left with
  | none => cases he
  | some l =>
    cases right with
    | none => cases he
    | some r =>
      obtain rfl := Option.some.inj he
      exact hP l rfl r rfl

theorem gives_map {α : Type} {f : α → Node} {a : Option α} (hP : ∀ x ∈ a, P (f x)) :
    ∀ e ∈ a.map f, P e := by
  intro e he
  obtain ⟨x, hx, rfl⟩ := Option.map_eq_some_iff.mp he
  exact hP x hx

theorem isExpr_binary {op : Char} {left right : Option Node} (hop : op ∈ ['+', '-', '*', '/'])
    (hleft : ∀ e ∈ left, Node.IsExpr e) (hright : ∀ e ∈ right, Node.IsExpr e) :
    ∀ e ∈ initBinaryNode op left right, Node.IsExpr e :=
  gives_binary fun l hl r hr => ⟨hop, hleft l hl, hright r hr⟩

theorem grammar_gives (n : Nat) :
    Gives Node.IsExpr (factor n) ∧ Gives Node.IsExpr (term n) ∧
      (∀ o, (∀ e ∈ o, Node.IsExpr e) → Gives Node.IsExpr (termLoop n o)) ∧
      Gives Node.IsExpr (expression n) ∧
      ∀ o, (∀ e ∈ o, Node.IsExpr e) → Gives Node.IsExpr (expressionLoop n o) := by
  induction n with
  | zero =>
    refine ⟨?_, ?_, fun o _ => ?_, ?_, fun o _ => ?_⟩
    · rw [factor]
      exact .throw _
    · rw [term]
      exact .throw _
    · rw [termLoop]
      exact .throw _
    · rw [expression]
      exact .throw _
    · rw [expressionLoop]
      exact .throw _
  | succ n ih =>
    obtain ⟨hfactor, hterm, htermLoop, hexpression, hexpressionLoop⟩ := ih
    refine ⟨fun s => ?_, ?_, fun o ho => ?_, ?_, fun o ho => ?_⟩
    · rw [factor]
      refine (peek_spec s).bind fun next s₁ hnext => ?_
      refine wp_ite.mpr ⟨fun _ => Gives.none s₁, fun hnull => wp_ite.mpr ⟨fun _ => ?_, fun _ =>
        wp_ite.mpr ⟨fun hvar => ?_, fun _ => wp_ite.mpr ⟨fun _ => ?_, fun _ => Gives.none s₁⟩⟩⟩⟩
      · refine Gives.bind (fun _ => hexpression.node fun o ho => .bind fun next => ?_) s₁
        exact .ite (fun _ => .bind fun _ => .none) fun _ => .pure ho
      · -- the name is the character that was looked at
        obtain ⟨s₂, hs₂⟩ := hnext hnull
        rw [wp_bind_of_ok hs₂, initVarNode, if_neg hnull]
        exact Gives.pure (fun e he => Option.some.inj he ▸ hvar) s₂
      · exact Gives.bind (fun numAsStr => .pure (gives_map fun _ _ => trivial)) s₁
    · rw [term]
      exact hfactor.node htermLoop
    · rw [termLoop]
      refine .bind fun next => .ite (fun _ => .bind fun _ => .pure ho) fun hop => ?_
      refine hfactor.node fun right hright => htermLoop _ (isExpr_binary ?_ ho hright)
      rcases not_not.mp hop with rfl | rfl
      · decide
      · decide
    · rw [expression]
      exact .bind fun next => .ite (fun _ => .none) fun _ => hterm.node hexpressionLoop
    · rw [expressionLoop]
      refine .bind fun next => .ite (fun _ => .bind fun _ => .pure ho) fun hop => ?_
      refine hterm.node fun right hright => hexpressionLoop _ (isExpr_binary ?_ ho hright)
      rcases not_not.mp hop with rfl | rfl
      · decide
      · decide

theorem expression_gives (n : Nat) : Gives Node.IsExpr (expression n) := (grammar_gives n).2.2.2.1

theorem comparison_gives (n : Nat) : Gives Node.IsComparison (comparison n) := by
  refine (expression_gives n).node fun left hleft => .bind fun op => ?_
  refine .ite (fun _ => .none) fun hop => (expression_gives n).node fun right hright => ?_
  refine .pure (gives_binary fun l hl r hr => ⟨?_, hleft l hl, hright r hr⟩)
  rcases not_not.mp hop with rfl | rfl | rfl
  · decide
  · decide
  · decide

theorem statement_gives (n : Nat) : Gives Node.IsStatement (statement n) := by
  induction n with
  | zero =>
    rw [statement]
    exact .throw _
  | succ n ih =>
    rw [statement]
    refine .bind fun next => ?_
    cases next with
    | none => exact .none
    | some next =>
      refine .ite (fun _ => .none) fun hne => .ite (fun _ => .bind fun _ => .none) fun _ =>
        .ite (fun _ => ?_) fun _ => .ite (fun _ => ?_) fun _ => .ite (fun _ => ?_) fun _ =>
        .ite (fun _ => ?_) fun _ => ?_
      · exact .bind fun label => .pure (gives_map fun _ _ => trivial)
      · exact (expression_gives n).node fun e he => .pure (gives_map he)
      · refine .bind fun var => .ite (fun hvar => .bind fun op => ?_) fun _ => .none
        refine .ite (fun _ => (expression_gives n).node fun value hvalue => ?_) fun _ => .none
        have hnull : ¬ var = '\x00' := by
          rintro rfl
          cases hvar
        rw [initLetNode, if_neg hnull]
        exact .pure (gives_map fun e he => ⟨hvar, hvalue e he⟩)
      · refine (comparison_gives n).node fun cond hcond => .bind fun next => ?_
        cases next with
        | none => exact .throw _
        | some next =>
          refine .ite (fun _ => .none) fun _ => ih.node fun branch hbranch => .pure ?_
          intro e he
          cases cond with
          | none => cases he
          | some c =>
            cases branch with
            | none => cases he
            | some b =>
              obtain rfl := Option.some.inj he
              exact ⟨hcond c rfl, hbranch b rfl⟩
      · refine .pure (gives_map fun l hl => ?_)
        obtain rfl := Option.some.inj hl
        exact fun h => hne (by rw [← String.toList_ofList (l := next), h]; rfl)

theorem compileLoop_eof (heof : s.eof = true) (k : Nat) :
    compileLoop (n + 1) k s = .ok (([], true), s) := by
  rw [compileLoop, bind_of_ok (show reads Stream.eof s = .ok (_, _) from rfl), if_pos heof]
  rfl

theorem compileLoop_none {s₁ : Stream} (heof : s.eof = false)
    (hst : statement n s = .ok (none, s₁)) (k : Nat) :
    compileLoop (n + 1) k s = compileLoop n k s₁ := by
  rw [compileLoop, bind_of_ok (show reads Stream.eof s = .ok (_, _) from rfl),
    if_neg (ne_true_of_eq_false heof), parse, bind_of_ok hst]

theorem compileLoop_some {s₁ : Stream} {ast : Node} (heof : s.eof = false)
    (hst : statement n s = .ok (some ast, s₁)) (k : Nat) : compileLoop (n + 1) k s =
      (compileLoop n (compileAst ast k).2.1 >>= fun r =>
        pure ((compileAst ast k).1 ++ r.1, r.2)) s₁ := by
  rw [compileLoop, bind_of_ok (show reads Stream.eof s = .ok (_, _) from rfl),
    if_neg (ne_true_of_eq_false heof), parse, bind_of_ok hst]
  have hok := compiles_of_statement hst k
  rcases hc : compileAst ast k with ⟨ac, labelNo, ok⟩
  rw [hc] at hok
  simp only at hok
  simp only [hc, hok, if_true]

theorem compileStatements_cons {ast : Node} (hok : (compileAst ast k).2.2 = true) :
    compileStatements (ast :: asts) k =
      (compileStatements asts (compileAst ast k).2.1).map ((compileAst ast k).1 ++ ·) := by
  rw [compileStatements]
  rcases hc : compileAst ast k with ⟨ac, labelNo, ok⟩
  rw [hc] at hok
  simp only at hok
  subst hok
  rfl

theorem compileLoop_spec {compiled : Bool}
    (h : compileLoop n k s = .ok ((lines, compiled), s')) : compiled = true ∧
      ∃ asts, mainLoop n k s = .ok ((asts, true), s') ∧ (∀ ast ∈ asts, ast.IsStatement) ∧
        compileStatements asts k = some lines := by
  induction n generalizing k s lines with
  | zero =>
    rw [compileLoop] at h
    cases h
  | succ n ih =>
    cases heof : s.eof with
    | true =>
      rw [compileLoop_eof heof] at h
      cases h
      exact ⟨rfl, [], mainLoop_eof heof k, List.forall_mem_nil _, rfl⟩
    | false =>
      cases hst : statement n s with
      | error e =>
        rw [compileLoop, bind_of_ok (show reads Stream.eof s = .ok (_, _) from rfl),
          if_neg (ne_true_of_eq_false heof), parse, bind_of_error hst] at h
        cases h
      | ok r =>
        obtain ⟨o, s₁⟩ := r
        cases o with
        | none =>
          rw [compileLoop_none heof hst] at h
          rw [mainLoop_none heof hst]
          exact ih h
        | some ast =>
          rw [compileLoop_some heof hst] at h
          obtain ⟨⟨rest, compiled'⟩, s₂, hrest, hlines⟩ := bind_eq_ok.mp h
          obtain ⟨heq, rfl⟩ := pure_eq_ok hlines
          obtain ⟨rfl, rfl⟩ := Prod.mk.inj heq
          obtain ⟨hcompiled, asts, hmain, hparsed, hcode⟩ := ih hrest
          refine ⟨hcompiled, ast :: asts, ?_, ?_, ?_⟩
          · rw [mainLoop_some heof hst, bind_of_ok hmain]
            rfl
          · exact List.forall_mem_cons.mpr ⟨(statement_gives n).ok hst, hparsed⟩
          · rw [compileStatements_cons (compiles_of_statement hst k), hcode]
            rfl

theorem compileLoop_of_mainLoop (h : mainLoop n k s = .ok ((asts, true), s')) :
    ∃ lines, compileLoop n k s = .ok ((lines, true), s') := by
  induction n generalizing k s asts with
  | zero =>
    rw [mainLoop] at h
    cases h
  | succ n ih =>
    cases heof : s.eof with
    | true =>
      rw [mainLoop_eof heof] at h
      cases h
      exact ⟨[], compileLoop_eof heof k⟩
    | false =>
      cases hst : statement n s with
      | error e =>
        rw [mainLoop, bind_of_ok (show reads Stream.eof s = .ok (_, _) from rfl),
          if_neg (ne_true_of_eq_false heof), parse, bind_of_error hst] at h
        cases h
      | ok r =>
        obtain ⟨o, s₁⟩ := r
        cases o with
        | none =>
          rw [mainLoop_none heof hst] at h
          rw [compileLoop_none heof hst]
          exact ih h
        | some ast =>
          rw [mainLoop_some heof hst] at h
          obtain ⟨⟨rest, compiled⟩, s₂, hrest, hasts⟩ := bind_eq_ok.mp h
          obtain ⟨heq, rfl⟩ := pure_eq_ok hasts
          obtain ⟨-, rfl⟩ := Prod.mk.inj heq
          obtain ⟨lines, hlines⟩ := ih hrest
          refine ⟨(compileAst ast k).1 ++ lines, ?_⟩
          rw [compileLoop_some heof hst, bind_of_ok hlines]
          rfl

theorem compilerMain_eq {compiled : Bool}
    (h : compileLoop n 0 (fopen text) = .ok ((lines, compiled), s')) :
    compilerMain n text = .ok (if compiled then ⟨header ++ lines ++ footer, 0⟩
      else ⟨header ++ lines, 3⟩) := by
  rw [compilerMain, h]
  cases compiled
  · rfl
  · rfl

theorem compilerMain_spec {c : Compilation} (h : compilerMain n text = .ok c) :
    c.status = 0 ∧ ∃ asts, Yields (fopen text) asts ∧ (∀ ast ∈ asts, ast.IsStatement) ∧
      compileProgram asts = some c.lines := by
  cases hloop : compileLoop n 0 (fopen text) with
  | error e =>
    rw [compilerMain, hloop] at h
    cases h
  | ok r =>
    obtain ⟨⟨lines, compiled⟩, s'⟩ := r
    obtain ⟨rfl, asts, hmain, hparsed, hcode⟩ := compileLoop_spec hloop
    rw [compilerMain_eq hloop] at h
    obtain rfl := Except.ok.inj h
    refine ⟨rfl, asts, ⟨s', n, hmain⟩, hparsed, ?_⟩
    rw [compileProgram, hcode]
    rfl

/-- The run of the file is the run of the program: both print the same, and end the same
way. -/
def SameRuns (prog : List Node) (asm : List Line) : Prop :=
  ∀ (libc : Libc) (s : State), libc.Conforms → Entry asm s → ∀ out : List Int,
    (Outputs (run libc asm) State.output s out ↔
      Outputs (step prog) Config.output ⟨prog, initialEnv s, []⟩ out) ∧
    ∀ i, Ends (run libc asm) State.output (State.Stopped asm · i) s out ↔
      Ends (step prog) Config.output (Config.Stopped · i) ⟨prog, initialEnv s, []⟩ out

theorem sameRuns {prog : List Node} {asm : List Line} (hwf : WellFormed prog)
    (hasm : compileProgram prog = some asm) : (defined asm).Nodup ∧ SameRuns prog asm := by
  obtain ⟨asm', hasm', ha⟩ := compileProgram_assembled hwf
  obtain rfl : asm' = asm := Option.some.inj (hasm'.symm.trans hasm)
  refine ⟨ha.nodup, fun libc s hlibc hentry out => ?_⟩
  obtain ⟨s', hs', hr⟩ := entry_related libc ha hwf hentry
  have href := refines (s.regs .rsp) ha hwf hlibc
  refine ⟨?_, fun i => ?_⟩
  · rw [outputs_of_steps (fun _ _ => run_grows hlibc) hs']
    exact href.outputs_iff hr
  · rw [ends_of_steps hs']
    exact href.ends_iff hr i

/-- On every text the compiler either fails in `parse` or ends with status 0. What it prints
is then the code of the statements it has read, and if their labels can be assembled, are
distinct and are defined where a `GOTO` names them, it runs as these statements do. -/
theorem compiler_main_sound (n : Nat) (text : List Char) (c : Compilation)
    (h : compilerMain n text = .ok c) :
    c.status = 0 ∧ ∃ asts, Yields (fopen text) asts ∧ (∀ ast ∈ asts, ast.IsStatement) ∧
      compileProgram asts = some c.lines ∧
      ((∀ ast ∈ asts, ast.Plain) → (asts.flatMap Node.labels).Nodup →
        (∀ ast ∈ asts, ∀ l ∈ ast.targets, l ∈ asts.flatMap Node.labels) →
        (defined c.lines).Nodup ∧ SameRuns asts c.lines) := by
  obtain ⟨hstatus, asts, hyields, hparsed, hcode⟩ := compilerMain_spec h
  refine ⟨hstatus, asts, hyields, hparsed, hcode, fun hplain hdistinct hdefined => ?_⟩
  exact sameRuns ⟨hparsed, hplain, hdistinct, hdefined⟩ hcode

/-- The second line is dropped by `parse`: it has no `=`. -/
def letText : List Char := "PRINT 6*7\nLET A\n".toList

def letCompilation : Compilation :=
  match compilerMain 30 letText with
  | .ok c => c
  | .error _ => ⟨[], 1⟩

theorem compiler_main_sound_let :
    letCompilation.status = 0 ∧ ∃ asts, Yields (fopen letText) asts ∧
      (∀ ast ∈ asts, ast.IsStatement) ∧ compileProgram asts = some letCompilation.lines ∧
      ((∀ ast ∈ asts, ast.Plain) → (asts.flatMap Node.labels).Nodup →
        (∀ ast ∈ asts, ∀ l ∈ ast.targets, l ∈ asts.flatMap Node.labels) →
        (defined letCompilation.lines).Nodup ∧ SameRuns asts letCompilation.lines) := by
  have hok : (compilerMain 30 letText).isOk = true := by decide +kernel
  have hmain : compilerMain 30 letText = .ok letCompilation := by
    rw [letCompilation]
    cases h : compilerMain 30 letText with
    | ok c => rfl
    | error e =>
      rw [h] at hok
      cases hok
  exact compiler_main_sound 30 letText letCompilation hmain

theorem Command.node_plain {c : Command} (hv : c.Valid) : c.node.Plain := by
  induction c with
  | label name =>
    intro l hl
    obtain rfl := List.mem_singleton.mp hl
    rw [String.toList_ofList]
    exact fun c hc => .inl (List.all_eq_true.mp hv.2.1 c hc)
  | goto | print | assign => exact fun l hl => absurd hl List.not_mem_nil
  | cond gap left before op after right gap' gap'' body ih => exact ih hv.2.2.2.2.2.2.2.2

theorem SourceLine.nodes_plain {l : SourceLine} (hv : l.Valid) : ∀ ast ∈ l.nodes, ast.Plain := by
  cases l with
  | empty | comment => exact fun ast hast => absurd hast List.not_mem_nil
  | command c =>
    intro ast hast
    obtain rfl := List.mem_singleton.mp hast
    exact c.node_plain hv

theorem Item.nodes_plain {i : Item} (hv : i.Valid) : ∀ ast ∈ i.nodes, ast.Plain := by
  cases i with
  | line l => exact l.nodes_plain hv
  | labelled name gap =>
    intro ast hast
    obtain rfl := List.mem_singleton.mp hast
    exact Command.node_plain (c := .label name) hv.1

theorem SourceText.nodes_plain {p : SourceText} (hv : p.Valid) : ∀ ast ∈ p.nodes, ast.Plain := by
  intro ast hast
  rcases List.mem_append.mp hast with hitems | hlast
  · obtain ⟨i, hi, hast⟩ := List.mem_flatMap.mp hitems
    exact i.nodes_plain (hv.1 i hi) ast hast
  · cases hl : p.last with
    | none =>
      rw [hl] at hlast
      cases hlast
    | some l =>
      rw [hl] at hlast
      exact l.nodes_plain (hv.2 l hl) ast hlast

/-- A text in the grammar is compiled to a file that runs as the statements written in it,
if each label is defined once and each `GOTO` names a label. -/
theorem compiler_main_correct (p : SourceText) (hv : p.Valid) (hspaced : p.Spaced)
    (hdistinct : (p.nodes.flatMap Node.labels).Nodup)
    (hdefined : ∀ ast ∈ p.nodes, ∀ l ∈ ast.targets, l ∈ p.nodes.flatMap Node.labels) :
    ∃ asm, (∃ n, compilerMain n p.text = .ok ⟨asm, 0⟩) ∧ (defined asm).Nodup ∧
      SameRuns p.nodes asm := by
  have hyields := (yields_iff_spaced hv).mpr hspaced
  obtain ⟨s', n, hn⟩ := hyields
  obtain ⟨lines, hloop⟩ := compileLoop_of_mainLoop hn
  have hmain := compilerMain_eq hloop
  obtain ⟨-, asts, hasts, hparsed, hcode⟩ := compilerMain_spec hmain
  obtain rfl : asts = p.nodes := hasts.unique ⟨s', n, hn⟩
  obtain ⟨hnodup, hruns⟩ :=
    sameRuns ⟨hparsed, SourceText.nodes_plain hv, hdistinct, hdefined⟩ hcode
  exact ⟨_, ⟨n, hmain⟩, hnodup, hruns⟩

theorem compiler_main_correct_loop :
    ∃ asm, (∃ n, compilerMain n loopText.text = .ok ⟨asm, 0⟩) ∧ (defined asm).Nodup ∧
      SameRuns loopText.nodes asm := by
  have hspaced : loopText.Spaced := by
    refine ⟨fun i hi => ?_, fun l hl => absurd hl (Option.not_mem_none l)⟩
    simp only [loopText, List.mem_cons, List.not_mem_nil, or_false] at hi
    rcases hi with rfl | rfl
    · trivial
    · exact ⟨rfl, rfl⟩
  exact compiler_main_correct loopText loopText_valid hspaced (by decide) (by decide)

end CS24.TeenyBasic
