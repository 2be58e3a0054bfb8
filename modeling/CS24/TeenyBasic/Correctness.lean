import CS24.TeenyBasic.Labels

/-!
# Correctness of the TeenyBASIC compiler

A program in the middle of its run is related to a machine whose control is, up to
labels of `IF`s, at the code of the statements still to come and whose frame holds
the variables. Every statement of the source is matched by one or more lines of the
generated file, so the file prints what the program prints and stops as it stops.
-/

namespace CS24.TeenyBasic
open Machine

variable {libc : Libc} {tail asm body : List Line} {s s' : State} {env : Env} {pc n j : Nat}
  {l : String} {st : Node} {k prog : List Node} {c c' : Config} {top : Int} {out : List Int}

/-- From line `pc` on the file runs the statements `k` and then the lines `tail`. -/
inductive Continues (tail asm : List Line) : Nat → List Node → Prop where
  | done {pc : Nat} : CodeAt asm pc tail → Continues tail asm pc []
  | skip {pc : Nat} {l : String} {k : List Node} : asm[pc]? = some (.label l) →
      Continues tail asm (pc + 1) k → Continues tail asm pc k
  | statement {pc n : Nat} {st : Node} {k : List Node} : st.IsStatement →
      CodeAt asm pc (compileAst st n).1 →
      Continues tail asm (pc + (compileAst st n).1.length) k → Continues tail asm pc (st :: k)

def Arrived (tail asm : List Line) (pc : Nat) : List Node → Prop
  | [] => CodeAt asm pc tail
  | st :: k => st.IsStatement ∧ ∃ n, CodeAt asm pc (compileAst st n).1 ∧
      Continues tail asm (pc + (compileAst st n).1.length) k

theorem run_label (h : asm[s.pc]? = some (.label l)) : run libc asm s = some s.next := by
  simp [run, h]

variable (libc) in
theorem Continues.arrive (h : Continues tail asm pc k) (hpc : s.pc = pc) :
    ∃ pc', Steps (run libc asm) s (s.jump pc') ∧ Arrived tail asm pc' k := by
  induction h generalizing s with
  | done hc => exact ⟨s.pc, .refl s, hpc ▸ hc⟩
  | skip hl _ ih =>
    obtain ⟨pc', hsteps, hat⟩ := ih (s := s.next) (by rw [State.next_pc, hpc])
    exact ⟨pc', .step_trans (run_label (hpc ▸ hl)) hsteps, hat⟩
  | @statement pc n st k hst hc hk _ => exact ⟨s.pc, .refl s, hst, n, hpc ▸ hc, hpc ▸ hk⟩

theorem condLabel_continues (hst : st.IsStatement) (hc : CodeAt asm pc (compileAst st n).1)
    (hl : asm[pc + (compileAst st n).1.length]? = some (.label (condLabel (compileAst st n).2.1)))
    (hk : Continues tail asm (pc + (compileAst st n).1.length) k) :
    ∃ j, asm[j]? = some (.label (condLabel n)) ∧ Continues tail asm j k := by
  induction st generalizing pc n with
  | print e =>
    have he := congrArg Prod.fst (compileAst_expr (e := e) hst n)
    exact ⟨_, by simpa [compileAst, he] using hl, hk⟩
  | letVar name value =>
    have he := congrArg Prod.fst (compileAst_expr hst.2 n)
    exact ⟨_, by simpa [compileAst, he] using hl, hk⟩
  | label l => exact ⟨_, hl, hk⟩
  | goto l => exact ⟨_, hl, hk⟩
  | cond c b _ ihb =>
    obtain ⟨hcomp, hb⟩ := hst
    obtain ⟨hcn, -⟩ := compileAst_comparison hcomp n
    simp only [compileAst, hcn] at hc hk
    obtain ⟨hpre, hend, -⟩ := CodeAt.append.mp hc
    obtain ⟨-, hbc⟩ := CodeAt.append.mp hpre
    rw [List.length_append, ← Nat.add_assoc] at hend hk
    refine ihb hb hbc hend (.skip hend ?_)
    rw [List.length_append, ← Nat.add_assoc] at hk
    simpa [Nat.add_assoc] using hk
  | num | var | binaryOp => exact hst.elim

theorem userLabel_continues (hst : st.IsStatement) (hl : l ∈ st.labels)
    (hc : CodeAt asm pc (compileAst st n).1)
    (hk : Continues tail asm (pc + (compileAst st n).1.length) k) :
    ∃ j, asm[j]? = some (.label (userLabel l)) ∧ Continues tail asm (j + 1) k := by
  induction st generalizing pc n with
  | label l' =>
    obtain rfl := List.mem_singleton.mp hl
    exact ⟨pc, hc.1, hk⟩
  | cond c b _ ihb =>
    obtain ⟨hcomp, hb⟩ := hst
    obtain ⟨hcn, -⟩ := compileAst_comparison hcomp n
    simp only [compileAst, hcn] at hc hk
    obtain ⟨hpre, hend, -⟩ := CodeAt.append.mp hc
    obtain ⟨-, hbc⟩ := CodeAt.append.mp hpre
    rw [List.length_append, ← Nat.add_assoc] at hend hk
    refine ihb hb hl hbc (.skip hend ?_)
    rw [List.length_append, ← Nat.add_assoc] at hk
    simpa [Nat.add_assoc] using hk
  | print | letVar | goto => simp [Node.labels] at hl
  | num | var | binaryOp => exact hst.elim

theorem compileStatements_continues (hst : ∀ st ∈ prog, st.IsStatement)
    (hb : compileStatements prog n = some body) (hc : CodeAt asm pc (body ++ tail)) :
    Continues tail asm pc prog ∧ ∀ l k, findLabel l prog = some k →
      ∃ j, asm[j]? = some (.label (userLabel l)) ∧ Continues tail asm (j + 1) k := by
  induction prog generalizing n pc body with
  | nil =>
    obtain rfl : [] = body := by simpa [compileStatements] using hb
    exact ⟨.done hc, by simp [findLabel]⟩
  | cons st prog ih =>
    obtain ⟨k, hk, -⟩ := compileAst_statement (hst st (by simp)) n
    rw [compileStatements] at hb
    rcases hst' : compileAst st n with ⟨ac, labelNo, ok⟩
    rw [hst'] at hk
    obtain ⟨rfl, rfl⟩ := Prod.mk.inj hk
    rw [hst'] at hb
    obtain ⟨rest, hrest, rfl⟩ := Option.map_eq_some_iff.mp hb
    rw [List.append_assoc] at hc
    obtain ⟨hac, hrc⟩ := CodeAt.append.mp hc
    obtain ⟨hcont, hfind⟩ := ih (fun st h => hst st (by simp [h])) hrest hrc
    have hac' : CodeAt asm pc (compileAst st n).1 := by rwa [hst']
    have hcont' : Continues tail asm (pc + (compileAst st n).1.length) prog := by rwa [hst']
    refine ⟨.statement (hst st (by simp)) hac' hcont', fun l k' hl => ?_⟩
    rw [findLabel] at hl
    split_ifs at hl with hmem
    · obtain rfl := Option.some.inj hl
      exact userLabel_continues (hst st (by simp)) hmem hac' hcont'
    · exact hfind l k' hl

/-- What the run of the file depends on: its labels are unique, it starts with the
header, and jumps and the control flow between statements are those of `prog`. -/
structure Assembled (tail : List Line) (prog : List Node) (asm : List Line) : Prop where
  nodup : (defined asm).Nodup
  head : CodeAt asm 0 header
  printf : "printf@plt" ∉ defined asm
  start : Continues tail asm header.length prog
  jumps : ∀ l k, findLabel l prog = some k →
    ∃ j, labelIndex asm (userLabel l) = some j ∧ asm[j]? = some (.label (userLabel l)) ∧
      Continues tail asm (j + 1) k

theorem compileStatements_assembled (hwf : WellFormed prog) : ∃ body,
    compileStatements prog 0 = some body ∧
      ∀ tail, defined tail = [] → Assembled tail prog (header ++ body ++ tail) := by
  obtain ⟨body, k, hbody, hperm⟩ := compileStatements_spec hwf.statements 0
  refine ⟨body, hbody, fun tail htail => ?_⟩
  have hnodup := defined_nodup hwf.distinct hperm htail
  have hat : CodeAt (header ++ body ++ tail) header.length (body ++ tail) := by
    have h : CodeAt (header ++ (body ++ tail) ++ []) _ _ := CodeAt.of_append header
    rwa [List.append_nil, ← List.append_assoc] at h
  have hhead : CodeAt (header ++ body ++ tail) 0 header := by
    have h : CodeAt ([] ++ header ++ (body ++ tail)) _ _ := CodeAt.of_append []
    rwa [List.nil_append, ← List.append_assoc] at h
  obtain ⟨hstart, hjumps⟩ := compileStatements_continues hwf.statements hbody hat
  refine ⟨hnodup, hhead, ?_, hstart, fun l k' hl => ?_⟩
  · have hheader : defined header = ["intfmt", "print_int", "main"] := rfl
    rw [defined_append, defined_append, hheader, htail, List.append_nil]
    intro hmem
    rcases List.mem_append.mp hmem with hmem | hmem
    · revert hmem
      decide
    · have hmem' := hperm.mem_iff.mp hmem
      rcases List.mem_append.mp hmem' with hs | hs
      · obtain ⟨l, -, h⟩ := List.mem_map.mp hs
        have hhd := congrArg (fun s => s.toList.head?) h
        simp [userLabel_toList] at hhd
      · obtain ⟨m, -, h⟩ := List.mem_map.mp hs
        have hhd := congrArg (fun s => s.toList.head?) h
        simp [condLabel_toList] at hhd
  · obtain ⟨j, hj, hcont⟩ := hjumps l k' hl
    exact ⟨j, labelIndex_eq hnodup hj, hj, hcont⟩

theorem compileProgram_assembled (hwf : WellFormed prog) :
    ∃ asm, compileProgram prog = some asm ∧ Assembled footer prog asm := by
  obtain ⟨body, hbody, ha⟩ := compileStatements_assembled hwf
  exact ⟨_, by rw [compileProgram, hbody]; rfl, ha footer rfl⟩

theorem labelIndex_eq_none (h : l ∉ defined asm) : labelIndex asm l = none := by
  refine List.findIdx?_eq_none_iff.mpr fun x hx => ?_
  cases x with
  | label k =>
    have hk : k ∈ defined asm := List.mem_filterMap.mpr ⟨_, hx, rfl⟩
    exact beq_eq_false_iff_ne.mpr fun heq => h (heq ▸ hk)
  | directive | instr => rfl

theorem exec_call {target : String} (h : labelIndex asm target = some j) :
    exec libc asm s (.call target) =
      some (((s.put (s.regs .rsp - 8) (s.pc + 1)).set .rsp (s.regs .rsp - 8)).jump j) := by
  simp [exec, h]

theorem print_int_spec (ha : Assembled tail prog asm) (hlibc : libc.Conforms)
    (hcall : asm[s.pc]? = some (.instr (.call "print_int"))) :
    ∃ s', StepsPlus (run libc asm) s s' ∧ s'.pc = s.pc + 1 ∧
      s'.regs .rsp = s.regs .rsp ∧ s'.regs .rbp = s.regs .rbp ∧
      s'.output = s.output ++ [s.regs .rdi] ∧ ∀ a, s.regs .rsp ≤ a → s'.mem a = s.mem a := by
  obtain ⟨-, -, -, -, hlab, hmov, hlea, hmovb, hprintf, hret, -⟩ := ha.head
  have hidx : labelIndex asm "print_int" = some 4 := labelIndex_eq ha.nodup hlab
  obtain ⟨s₁, hs₁, hpc₁, hrsp₁, hrbp₁, hrdi₁, hout₁, hret₁, hmem₁⟩ : ∃ s₁,
      run libc asm s = some s₁ ∧ s₁.pc = 4 ∧ s₁.regs .rsp = s.regs .rsp - 8 ∧
      s₁.regs .rbp = s.regs .rbp ∧ s₁.regs .rdi = s.regs .rdi ∧ s₁.output = s.output ∧
      s₁.mem (s.regs .rsp - 8) = (s.pc + 1 : Nat) ∧
      ∀ a, s.regs .rsp ≤ a → s₁.mem a = s.mem a := by
    refine ⟨_, (run_instr libc hcall).trans (exec_call hidx), rfl, by simp, by simp, by simp, rfl,
      by simp, fun a ha => ?_⟩
    simp [Function.update_of_ne (show a ≠ s.regs .rsp - 8 by omega)]
  -- the body of `print_int` up to the call of `printf`
  have hs₂ : run libc asm s₁ = some s₁.next := run_label (by rw [hpc₁]; exact hlab)
  obtain ⟨s₃, hexec, hk₃, hrsi₃, hrdi₃, hal⟩ : ∃ s₃,
      execCode libc asm [.mov .rdi .rsi, .leaq "intfmt" .rdi, .movb 0] s₁.next = some s₃ ∧
      Kept s₁ s₃ ∧ s₃.regs .rsi = s₁.regs .rdi ∧ s₃.regs .rdi = libc.intfmt ∧
      s₃.regs .rax % 256 = 0 :=
    ⟨_, rfl, ⟨by simp, by simp, rfl, fun _ _ => rfl⟩, by simp, by simp,
      by simp⟩
  obtain ⟨hs₃, hpc₃⟩ := steps_code rfl
    (by rw [State.next_pc, hpc₁]; exact ⟨hmov, hlea, hmovb, trivial⟩) hexec
  rw [State.next_pc, hpc₁] at hpc₃
  have hnone := labelIndex_eq_none ha.printf
  have hs₄ : run libc asm s₃ = some ((libc.printf s₃).jump (s₃.pc + 1)) :=
    (run_instr libc (by rw [hpc₃]; exact hprintf)).trans (by simp [exec, hnone])
  have hout₄ := hlibc.output s₃ hrdi₃ hal
  have hrsp₄ := hlibc.rsp s₃
  have hrbp₄ := hlibc.rbp s₃
  have hmem₄ := hlibc.mem s₃
  have hs₅ := run_instr libc (i := .ret)
    (s := (libc.printf s₃).jump (s₃.pc + 1)) (by rw [State.jump_pc, hpc₃]; exact hret)
  have hback : (libc.printf s₃).mem (s.regs .rsp - 8) = (s.pc + 1 : Nat) := by
    rw [hmem₄ _ (Int.le_of_eq (hk₃.rsp.trans hrsp₁)), hk₃.mem _ (Int.le_of_eq hrsp₁), hret₁]
  refine ⟨_, (StepsPlus.of_step hs₁).trans_steps ((Steps.step_trans hs₂ hs₃).trans
    (.step_trans hs₄ (.of_step hs₅))), ?_, ?_, ?_, ?_, fun a ha => ?_⟩
  · rw [State.jump_pc, State.jump_mem, State.jump_regs, hrsp₄, hk₃.rsp, hrsp₁, hback]
    rfl
  · simp [hrsp₄, hk₃.rsp, hrsp₁]
  · simp [hrbp₄, hk₃.rbp, hrbp₁]
  · simp [hout₄, hk₃.output, hout₁, hrsi₃, hrdi₁]
  · have ha' : s₃.regs .rsp ≤ a := by
      rw [hk₃.rsp, hrsp₁]
      omega
    simp only [State.jump_mem, State.set_mem]
    rw [hmem₄ a ha', hk₃.mem a (hk₃.rsp ▸ ha'), hmem₁ a ha]

/-- The machine is at the statements still to come, in the frame `main` has set up
below the return address at `top`. -/
structure Related (tail : List Line) (prog : List Node) (asm : List Line) (top : Int)
    (c : Config) (s : State) : Prop where
  framed : Framed c.env s
  rsp : s.regs .rsp = top - 8 - 0xd0
  rbp : s.regs .rbp = top - 8
  ret : s.mem top = asm.length
  output : c.output = s.output
  continues : Continues tail asm s.pc c.rest
  targets : ∀ st ∈ c.rest, ∀ l ∈ st.targets, l ∈ prog.flatMap Node.labels

theorem Related.of_frame (h : Related tail prog asm top c s) {rest : List Node} {out : List Int}
    (hrsp : s'.regs .rsp = s.regs .rsp) (hrbp : s'.regs .rbp = s.regs .rbp)
    (hmem : ∀ a, s.regs .rsp ≤ a → s'.mem a = s.mem a) (ho : out = s'.output)
    (hc : Continues tail asm s'.pc rest)
    (ht : ∀ st ∈ rest, ∀ l ∈ st.targets, l ∈ prog.flatMap Node.labels) :
    Related tail prog asm top ⟨rest, c.env, out⟩ s' := by
  have hbelow := h.framed.below
  have htop := h.rsp
  refine ⟨⟨by rw [hrsp, hrbp]; exact hbelow, fun c hcup => ?_⟩, hrsp.trans h.rsp, hrbp.trans h.rbp,
    ?_, ho, hc, ht⟩
  · have hslot := slot_bounds hcup
    rw [hrbp, hmem _ (by omega), h.framed.vars c hcup]
  · rw [hmem _ (by omega), h.ret]

theorem Related.rest_targets (h : Related tail prog asm top ⟨st :: k, env, out⟩ s) :
    ∀ st ∈ k, ∀ l ∈ st.targets, l ∈ prog.flatMap Node.labels :=
  fun st hst => h.targets st (List.mem_cons_of_mem _ hst)

theorem simulates_print {e : Node} {v : Int64} (ha : Assembled tail prog asm)
    (hlibc : libc.Conforms) (h : Related tail prog asm top ⟨.print e :: k, env, out⟩ s)
    (he : e.IsExpr)
    (hc : CodeAt asm s.pc (compileAst (.print e) n).1)
    (hk : Continues tail asm (s.pc + (compileAst (.print e) n).1.length) k)
    (hv : eval env e = some v) :
    ∃ s', StepsPlus (run libc asm) s s' ∧
      Related tail prog asm top ⟨k, env, out ++ [v.toInt]⟩ s' := by
  simp only [compileAst] at hc hk
  obtain ⟨hec, hmov, hcall, -⟩ := CodeAt.append.mp hc
  have hcomp := expr_computes libc he h.framed hec
  rw [hv] at hcomp
  obtain ⟨s₁, hs₁, hk₁, hpc₁, hrax₁⟩ := hcomp
  have hs₂ := run_instr libc (hpc₁ ▸ hmov)
  have hcall' : asm[(s₁.set .rdi (s₁.regs .rax)).next.pc]? = some (.instr (.call "print_int")) := by
    rw [State.next_pc, State.set_pc, hpc₁]
    exact hcall
  obtain ⟨s₃, hs₃, hpc₃, hrsp₃, hrbp₃, hout₃, hmem₃⟩ := print_int_spec ha hlibc hcall'
  refine ⟨s₃, (hs₁.trans (.of_step hs₂)).trans_plus hs₃, h.of_frame ?_ ?_ (fun a ha' => ?_) ?_ ?_
    h.rest_targets⟩
  · simp [hrsp₃, hk₁.rsp]
  · simp [hrbp₃, hk₁.rbp]
  · rw [hmem₃ a (by simpa [hk₁.rsp] using ha')]
    exact hk₁.mem a ha'
  · simp [hout₃, hk₁.output, hrax₁, ← h.output]
  · rw [hpc₃, State.next_pc, State.set_pc, hpc₁]
    simpa [Nat.add_assoc] using hk

theorem simulates_let {name : Char} {e : Node} {v : Int64}
    (h : Related tail prog asm top ⟨.letVar name e :: k, env, out⟩ s) (hup : name.isUpper)
    (he : e.IsExpr) (hc : CodeAt asm s.pc (compileAst (.letVar name e) n).1)
    (hk : Continues tail asm (s.pc + (compileAst (.letVar name e) n).1.length) k)
    (hv : eval env e = some v) :
    ∃ s', StepsPlus (run libc asm) s s' ∧
      Related tail prog asm top ⟨k, Function.update env name v, out⟩ s' := by
  simp only [compileAst] at hc hk
  obtain ⟨hec, hmov, -⟩ := CodeAt.append.mp hc
  have hcomp := expr_computes libc he h.framed hec
  rw [hv] at hcomp
  obtain ⟨s₁, hs₁, hk₁, hpc₁, hrax₁⟩ := hcomp
  have hs₂ := run_instr libc (hpc₁ ▸ hmov)
  have hf₁ := h.framed.kept hk₁
  have hslot := slot_bounds hup
  have hrbp := h.rbp
  have hrsp := h.rsp
  refine ⟨_, hs₁.trans_plus (.of_step hs₂), ⟨⟨hf₁.below, fun c hcup => ?_⟩, ?_, ?_, ?_, ?_, ?_,
    h.rest_targets⟩⟩
  · by_cases hcn : c = name
    · subst hcn
      simp [hrax₁]
    · have hne : s₁.regs .rbp + slot c ≠ s₁.regs .rbp + slot name :=
        fun heq => hcn (slot_inj (by omega))
      simpa [Function.update_of_ne hne, Function.update_of_ne hcn] using hf₁.vars c hcup
  · simp [hk₁.rsp, hrsp]
  · simp [hk₁.rbp, hrbp]
  · have hne : top ≠ s₁.regs .rbp + slot name := by
      rw [hk₁.rbp, hrbp]
      omega
    simp only [State.next_mem, State.put_mem, Function.update_of_ne hne]
    rw [hk₁.mem _ (by omega), h.ret]
  · simp [hk₁.output, ← h.output]
  · rw [State.next_pc, State.put_pc, hpc₁]
    simpa [Nat.add_assoc] using hk

theorem simulates_goto {rest : List Node} (ha : Assembled tail prog asm) (hwf : WellFormed prog)
    (h : Related tail prog asm top ⟨.goto l :: k, env, out⟩ s)
    (hc : CodeAt asm s.pc (compileAst (.goto l) n).1) (hl : findLabel l prog = some rest) :
    ∃ s', StepsPlus (run libc asm) s s' ∧ Related tail prog asm top ⟨rest, env, out⟩ s' := by
  obtain ⟨j, hidx, hj, hcont⟩ := ha.jumps l rest hl
  have hstep : run libc asm s = some (s.jump j) :=
    (run_instr libc hc.1).trans (by simp [exec, hidx])
  have hsuffix : rest <:+ prog := by
    clear hidx hj hcont ha hwf h
    induction prog with
    | nil => simp [findLabel] at hl
    | cons st prog ih =>
      rw [findLabel] at hl
      split_ifs at hl with hmem
      · obtain rfl := Option.some.inj hl
        exact List.suffix_cons _ _
      · exact (ih hl).trans (List.suffix_cons _ _)
  exact ⟨s.jump j, .of_step hstep, h.of_frame rfl rfl (fun _ _ => rfl) h.output (.skip hj hcont)
    fun st hst => hwf.defined st (hsuffix.subset hst)⟩

theorem simulates_cond {e b : Node} {holds : Bool} (ha : Assembled tail prog asm)
    (h : Related tail prog asm top ⟨.cond e b :: k, env, out⟩ s) (hst : (Node.cond e b).IsStatement)
    (hc : CodeAt asm s.pc (compileAst (.cond e b) n).1)
    (hk : Continues tail asm (s.pc + (compileAst (.cond e b) n).1.length) k)
    (hv : evalComparison env e = some holds) :
    ∃ s', StepsPlus (run libc asm) s s' ∧
      Related tail prog asm top ⟨if holds then b :: k else k, env, out⟩ s' := by
  obtain ⟨hcomp, hb⟩ := hst
  obtain ⟨hcn, -⟩ := compileAst_comparison hcomp n
  simp only [compileAst, hcn] at hc hk
  obtain ⟨hpre, hend, -⟩ := CodeAt.append.mp hc
  obtain ⟨hpre, hbc⟩ := CodeAt.append.mp hpre
  obtain ⟨hcc, htest, hje, -⟩ := CodeAt.append.mp hpre
  have hbc' : CodeAt asm (s.pc + (compileAst e n).1.length + 2) (compileAst b n).1 :=
    hbc.at (by simp [Nat.add_assoc])
  have hend' : asm[s.pc + (compileAst e n).1.length + 2 + (compileAst b n).1.length]? =
      some (.label (condLabel (compileAst b n).2.1)) := by
    rw [← hend]
    simp [Nat.add_assoc]
  have hbody :
      Continues tail asm (s.pc + (compileAst e n).1.length + 2 + (compileAst b n).1.length) k :=
    .skip hend' (by simpa [Nat.add_assoc] using hk)
  have hcomp' := comparison_computes libc hcomp h.framed hcc
  rw [hv] at hcomp'
  obtain ⟨s₁, hs₁, hk₁, hpc₁, hrax₁⟩ := hcomp'
  obtain ⟨s₂, hs₂, hpc₂, hzf, hk₂⟩ : ∃ s₂, run libc asm s₁ = some s₂ ∧ s₂.pc = s₁.pc + 1 ∧
      s₂.zf = !holds ∧ Kept s₁ s₂ := by
    have htest' := run_instr libc (hpc₁ ▸ htest)
    refine ⟨_, htest', rfl, ?_, ⟨by simp, by simp, rfl, fun _ _ => rfl⟩⟩
    simp only [State.next_zf, State.setFlags, hrax₁]
    cases holds <;> decide
  have hk₁₂ := hk₁.trans hk₂
  have hje' : asm[s₂.pc]? = some (.instr (.je (condLabel n))) := by
    rw [hpc₂, hpc₁]
    exact hje
  have hs₃ := run_instr libc hje'
  cases holds with
  | true =>
    have hfall : exec libc asm s₂ (.je (condLabel n)) = some s₂.next := by simp [exec, hzf]
    refine ⟨s₂.next, (hs₁.trans (.of_step hs₂)).trans_plus (.of_step (hs₃.trans hfall)),
      h.of_frame hk₁₂.rsp hk₁₂.rbp hk₁₂.mem (h.output.trans hk₁₂.output.symm) ?_ ?_⟩
    · refine .statement (n := n) hb ?_ ?_
      · exact hbc'.at (by rw [State.next_pc, hpc₂, hpc₁])
      · rwa [State.next_pc, hpc₂, hpc₁]
    · intro st hst l hl
      rcases List.mem_cons.mp hst with rfl | hst
      · exact h.targets _ (List.mem_cons_self ..) l hl
      · exact h.rest_targets st hst l hl
  | false =>
    obtain ⟨j, hj, hcont⟩ := condLabel_continues hb hbc' hend' hbody
    have hjump : exec libc asm s₂ (.je (condLabel n)) = some (s₂.jump j) := by
      simp [exec, hzf, labelIndex_eq ha.nodup hj]
    exact ⟨s₂.jump j, (hs₁.trans (.of_step hs₂)).trans_plus (.of_step (hs₃.trans hjump)),
      h.of_frame hk₁₂.rsp hk₁₂.rbp hk₁₂.mem (h.output.trans hk₁₂.output.symm) hcont h.rest_targets⟩

theorem simulates (ha : Assembled tail prog asm) (hwf : WellFormed prog) (hlibc : libc.Conforms) :
    Simulates (step prog) (run libc asm) (Related tail prog asm top) := by
  rintro ⟨rest, env, out⟩ c' s h hstep
  obtain ⟨pc, hskip, hat⟩ := h.continues.arrive libc rfl
  -- the machine is at the code of the next statement
  suffices hgo : ∃ s', StepsPlus (run libc asm) (s.jump pc) s' ∧ Related tail prog asm top c' s' by
    obtain ⟨s', hs', hr'⟩ := hgo
    exact ⟨s', hskip.trans_plus hs', hr'⟩
  cases rest with
  | nil => simp [step] at hstep
  | cons st k =>
    obtain ⟨hst, n, hc, hk⟩ := hat
    have h' : Related tail prog asm top ⟨st :: k, env, out⟩ (s.jump pc) :=
      h.of_frame rfl rfl (fun _ _ => rfl) h.output (.statement hst hc hk) h.targets
    cases st with
    | print e =>
      obtain ⟨v, hv, rfl⟩ := Option.map_eq_some_iff.mp hstep
      exact simulates_print ha hlibc h' hst hc hk hv
    | letVar name e =>
      obtain ⟨v, hv, rfl⟩ := Option.map_eq_some_iff.mp hstep
      exact simulates_let h' hst.1 hst.2 hc hk hv
    | label l =>
      obtain rfl := Option.some.inj hstep
      exact ⟨_, .of_step (run_label hc.1),
        h'.of_frame rfl rfl (fun _ _ => rfl) h'.output hk h'.rest_targets⟩
    | goto l =>
      obtain ⟨rest, hl, rfl⟩ := Option.map_eq_some_iff.mp hstep
      exact simulates_goto ha hwf h' hc hl
    | cond e b =>
      obtain ⟨holds, hv, rfl⟩ := Option.map_eq_some_iff.mp hstep
      exact simulates_cond ha h' hst hc hk hv
    | num | var | binaryOp => exact hst.elim

variable (libc) in
theorem stops_finished (h : Related footer prog asm top ⟨[], env, out⟩ s) :
    ∃ s', Steps (run libc asm) s s' ∧ run libc asm s' = none ∧ s'.Stopped asm .finished ∧
      s'.output = out := by
  obtain ⟨pc, hskip, hadd, hpop, hmovl, hret, -⟩ := h.continues.arrive libc rfl
  have hrsp := h.rsp
  obtain ⟨s₁, hexec, hrsp₁, hmem₁, hout₁⟩ : ∃ s₁,
      execCode libc asm [.addImm 0xd0 .rsp, .pop .rbp, .movl 0] (s.jump pc) = some s₁ ∧
      s₁.regs .rsp = top ∧ s₁.mem = s.mem ∧ s₁.output = s.output :=
    ⟨_, rfl, by simp [hrsp], rfl, rfl⟩
  have hcode : CodeAt asm (s.jump pc).pc (code [.addImm 0xd0 .rsp, .pop .rbp, .movl 0]) :=
    ⟨hadd, hpop, hmovl, trivial⟩
  obtain ⟨hs₁, hpc₁⟩ := steps_code rfl hcode hexec
  have hs₂ := run_instr libc (s := s₁) (i := .ret) (by rw [hpc₁]; exact hret)
  have hend : (s₁.mem (s₁.regs .rsp)).toNat = asm.length := by
    rw [hmem₁, hrsp₁, h.ret]
    rfl
  have hstop : asm.length ≤ ((s₁.set .rsp (s₁.regs .rsp + 8)).jump
      (s₁.mem (s₁.regs .rsp)).toNat).pc := by rw [State.jump_pc, hend]
  refine ⟨_, (hskip.trans hs₁).trans (.of_step hs₂), ?_, hstop, ?_⟩
  · rw [run, List.getElem?_eq_none hstop]
  · simp [hout₁, ← h.output]

theorem stopped_none {i : Stop} (h : s.Stopped asm i) : run libc asm s = none := by
  cases i with
  | finished => rw [run, List.getElem?_eq_none h]
  | trapped =>
    obtain ⟨r, hr, htrap⟩ := h
    simp [run_instr libc hr, exec, htrap]

theorem findLabel_isSome (h : l ∈ prog.flatMap Node.labels) : (findLabel l prog).isSome := by
  induction prog with
  | nil => simp at h
  | cons st prog ih =>
    rw [findLabel]
    split_ifs with hmem
    · rfl
    · rw [List.flatMap_cons] at h
      exact ih ((List.mem_append.mp h).resolve_left hmem)

theorem evalComparison_eq_none {e : Node} (he : e.IsComparison) :
    evalComparison env e = none ↔ Divides env e := by
  cases e with
  | binaryOp op left right =>
    obtain ⟨hop, hl, hr⟩ := he
    have hne : op ≠ '/' := by
      rintro rfl
      simp at hop
    cases hel : eval env left <;> cases her : eval env right <;>
      simp [evalComparison, Divides, ← eval_eq_none hl, ← eval_eq_none hr, hel, her, hne]
  | num | var | print | letVar | label | goto | cond => exact he.elim

variable (libc) in
theorem stops_trapped (h : Related tail prog asm top ⟨st :: k, env, out⟩ s)
    (hstuck : step prog ⟨st :: k, env, out⟩ = none) :
    Divides env st ∧ ∃ s', Steps (run libc asm) s s' ∧ s'.Stopped asm .trapped ∧
      s'.output = out := by
  obtain ⟨pc, hskip, hst, n, hc, hk⟩ := h.continues.arrive libc rfl
  have h' : Related tail prog asm top ⟨st :: k, env, out⟩ (s.jump pc) :=
    h.of_frame rfl rfl (fun _ _ => rfl) h.output (.statement hst hc hk) h.targets
  have hout := h.output
  cases st with
  | print e =>
    have hnone : eval env e = none := Option.map_eq_none_iff.mp hstuck
    simp only [compileAst] at hc
    have hcomp := expr_computes libc hst h'.framed (CodeAt.append.mp hc).1
    rw [hnone] at hcomp
    obtain ⟨s', hs', hout', hstop⟩ := hcomp
    exact ⟨(eval_eq_none hst).mp hnone, s', hskip.trans hs', hstop, hout'.trans hout.symm⟩
  | letVar name e =>
    have hnone : eval env e = none := Option.map_eq_none_iff.mp hstuck
    simp only [compileAst] at hc
    have hcomp := expr_computes libc hst.2 h'.framed (CodeAt.append.mp hc).1
    rw [hnone] at hcomp
    obtain ⟨s', hs', hout', hstop⟩ := hcomp
    exact ⟨(eval_eq_none hst.2).mp hnone, s', hskip.trans hs', hstop, hout'.trans hout.symm⟩
  | label l => simp [step] at hstuck
  | goto l =>
    have hl := findLabel_isSome (h.targets (.goto l) (by simp) l (by simp [Node.targets]))
    have hnone : findLabel l prog = none := Option.map_eq_none_iff.mp hstuck
    simp [hnone] at hl
  | cond e b =>
    have hnone : evalComparison env e = none := Option.map_eq_none_iff.mp hstuck
    simp only [compileAst] at hc
    have hpre := (CodeAt.append.mp hc).1
    have hec := (CodeAt.append.mp (CodeAt.append.mp hpre).1).1
    have hcomp := comparison_computes libc hst.1 h'.framed hec
    rw [hnone] at hcomp
    obtain ⟨s', hs', hout', hstop⟩ := hcomp
    exact ⟨(evalComparison_eq_none hst.1).mp hnone, s', hskip.trans hs', hstop,
      hout'.trans hout.symm⟩
  | num | var | binaryOp => exact hst.elim

theorem exec_grows {i : Instr} (hlibc : libc.Conforms) (h : exec libc asm s i = some s') :
    s.output <+: s'.output := by
  cases i with
  | leaq | idiv =>
    simp only [exec] at h
    split_ifs at h
    exact Option.some.inj h ▸ List.prefix_refl _
  | cmovl | cmovg | cmove =>
    simp only [exec, Option.some.injEq] at h
    rw [← h, State.next_output]
    split_ifs <;> exact List.prefix_refl _
  | jmp target =>
    obtain ⟨j, -, rfl⟩ := Option.map_eq_some_iff.mp h
    exact List.prefix_refl _
  | je target =>
    simp only [exec] at h
    split_ifs at h
    · obtain ⟨j, -, rfl⟩ := Option.map_eq_some_iff.mp h
      exact List.prefix_refl _
    · exact Option.some.inj h ▸ List.prefix_refl _
  | call target =>
    simp only [exec] at h
    split at h
    · exact Option.some.inj h ▸ List.prefix_refl _
    · split_ifs at h
      exact Option.some.inj h ▸ hlibc.grows s
  | _ => exact Option.some.inj h ▸ List.prefix_refl _

theorem run_grows (hlibc : libc.Conforms) (h : run libc asm s = some s') :
    s.output <+: s'.output := by
  unfold run at h
  split at h
  · cases h
  · exact exec_grows hlibc h
  · exact Option.some.inj h ▸ List.prefix_refl _

variable (top) in
theorem refines (ha : Assembled footer prog asm) (hwf : WellFormed prog) (hlibc : libc.Conforms) :
    Refines (step prog) (run libc asm) Config.output State.output (fun i c => c.Stopped i)
      (fun i s => s.Stopped asm i) (Related footer prog asm top) where
  simulates := simulates ha hwf hlibc
  out_eq _ _ h := h.output
  grows _ _ h := run_grows hlibc h
  stops := by
    rintro ⟨rest, env, out⟩ s h hstuck
    cases rest with
    | nil =>
      obtain ⟨s', hs', hnone, hstop, hout⟩ := stops_finished libc h
      exact ⟨.finished, s', rfl, hs', hnone, hstop, hout⟩
    | cons st k =>
      obtain ⟨hdiv, s', hs', hstop, hout⟩ := stops_trapped libc h hstuck
      exact ⟨.trapped, s', ⟨st, k, rfl, hdiv⟩, hs', stopped_none hstop, hstop, hout⟩
  kinds _ _ _ := Config.Stopped.unique
  kinds' _ _ _ := State.Stopped.unique

/-- What `main` finds in the slot of a variable: in that of `A` it has itself saved the
`%rbp` of its caller, the others are memory below its return address. -/
def frameCell (s : State) (c : Char) : Int :=
  if c = 'A' then s.regs .rbp else s.mem (s.regs .rsp - 8 + slot c)

/-- The variables start with the contents of the frame. -/
def initialEnv (s : State) : Env := fun c => Int64.ofInt (frameCell s c)

/-- `main` has been called from outside the file and nothing is printed yet. -/
structure Entry (asm : List Line) (s : State) : Prop where
  pc : labelIndex asm "main" = some s.pc
  ret : s.mem (s.regs .rsp) = asm.length
  words : ∀ c, c.isUpper → -2 ^ 63 ≤ frameCell s c ∧ frameCell s c < 2 ^ 63
  output : s.output = []

variable (libc) in
theorem entry_related (ha : Assembled tail prog asm) (hwf : WellFormed prog) (h : Entry asm s) :
    ∃ s', Steps (run libc asm) s s' ∧
      Related tail prog asm (s.regs .rsp) ⟨prog, initialEnv s, []⟩ s' := by
  obtain ⟨-, -, -, -, -, -, -, -, -, -, -, hmain, hpush, hmov, hsub, -⟩ := ha.head
  have hpc : s.pc = 11 :=
    Option.some.inj (h.pc.symm.trans (labelIndex_eq ha.nodup hmain))
  have hs₁ : run libc asm s = some s.next := run_label (by rw [hpc]; exact hmain)
  obtain ⟨s₂, hexec, hrsp, hrbp, hmem, hout⟩ : ∃ s₂,
      execCode libc asm [.push .rbp, .mov .rsp .rbp, .subImm 0xd0 .rsp] s.next = some s₂ ∧
      s₂.regs .rsp = s.regs .rsp - 8 - 0xd0 ∧ s₂.regs .rbp = s.regs .rsp - 8 ∧
      s₂.mem = Function.update s.mem (s.regs .rsp - 8) (s.regs .rbp) ∧ s₂.output = s.output :=
    ⟨_, rfl, by simp, by simp, rfl, rfl⟩
  obtain ⟨hs₂, hpc₂⟩ := steps_code rfl
    (by rw [State.next_pc, hpc]; exact ⟨hpush, hmov, hsub, trivial⟩) hexec
  refine ⟨s₂, .step_trans hs₁ hs₂, ⟨⟨Int.le_of_eq (by rw [hrsp, hrbp]), fun c hc => ?_⟩, hrsp, hrbp,
    ?_, ?_, ?_, hwf.defined⟩⟩
  · obtain ⟨hlo, hhi⟩ := h.words c hc
    have hcell : (initialEnv s c).toInt = frameCell s c := Int64.toInt_ofInt_of_le hlo hhi
    rw [hcell, hmem, hrbp, frameCell]
    by_cases hcA : c = 'A'
    · subst hcA
      simp [slot, asciiOffset]
    · have hslot : slot c ≠ 0 := fun h0 => hcA (slot_inj (h0.trans rfl))
      rw [if_neg hcA, Function.update_of_ne (by omega)]
  · rw [hmem, Function.update_of_ne (by omega), h.ret]
  · rw [hout, h.output]
  · rw [hpc₂, State.next_pc, hpc]
    exact ha.start

/-- The generated file prints what the program prints, and it ends or traps at an
`idiv` with the same output exactly when the program ends or divides by zero or the
least value by -1. -/
theorem compiler_correct (prog : List Node) (hwf : WellFormed prog) :
    ∃ asm, compileProgram prog = some asm ∧ (defined asm).Nodup ∧
      ∀ (libc : Libc) (s : State), libc.Conforms → Entry asm s → ∀ out : List Int,
        (Outputs (run libc asm) State.output s out ↔
          Outputs (step prog) Config.output ⟨prog, initialEnv s, []⟩ out) ∧
        ∀ i, Ends (run libc asm) State.output (State.Stopped asm · i) s out ↔
          Ends (step prog) Config.output (Config.Stopped · i) ⟨prog, initialEnv s, []⟩ out := by
  obtain ⟨asm, hasm, ha⟩ := compileProgram_assembled hwf
  refine ⟨asm, hasm, ha.nodup, fun libc s hlibc hentry out => ?_⟩
  obtain ⟨s', hs', hr⟩ := entry_related libc ha hwf hentry
  have href := refines (s.regs .rsp) ha hwf hlibc
  refine ⟨?_, fun i => ?_⟩
  · rw [outputs_of_steps (fun _ _ => run_grows hlibc) hs']
    exact href.outputs_iff hr
  · rw [ends_of_steps hs']
    exact href.ends_iff hr i

/-- A loop that counts from 1 to 3 with an `IF` around its jump. -/
def countProgram : List Node :=
  [.letVar 'A' (.num 1), .label "10", .print (.var 'A'),
    .letVar 'A' (.binaryOp '+' (.var 'A') (.num 1)),
    .cond (.binaryOp '<' (.var 'A') (.num 4)) (.goto "10")]

def countAsm : List Line := (compileProgram countProgram).getD []

/-- A `printf` that only prints. -/
def printLibc : Libc := ⟨fun s => { s with output := s.output ++ [s.regs .rsi] }, 0⟩

def countEntry : State :=
  ⟨fun r => if r = .rsp then 0x8000 else 0, fun a => if a = 0x8000 then countAsm.length else 0,
    false, false, false, 11, []⟩

theorem compiler_correct_count :
    Ends (run printLibc countAsm) State.output (State.Stopped countAsm · .finished) countEntry
      [1, 2, 3] := by
  have hwf : WellFormed countProgram :=
    ⟨by simp [countProgram, Node.IsStatement, Node.IsExpr, Node.IsComparison],
      by simp [countProgram, Node.Plain, Node.labels], by decide,
      by simp [countProgram, Node.targets, Node.labels]⟩
  have hlibc : printLibc.Conforms :=
    ⟨fun _ _ _ => rfl, fun _ => rfl, fun _ => rfl, fun _ _ _ => rfl, fun _ => List.prefix_append ..⟩
  obtain ⟨asm, hasm, -, hcorrect⟩ := compiler_correct countProgram hwf
  obtain rfl : countAsm = asm := by rw [countAsm, hasm, Option.getD_some]
  have hentry : Entry countAsm countEntry := by
    refine ⟨by decide +kernel, by simp [countEntry], fun c hc => ?_, rfl⟩
    have hslot := slot_bounds hc
    have hzero : frameCell countEntry c = 0 := by
      simp [frameCell, countEntry]
      omega
    rw [hzero]
    decide
  refine ((hcorrect printLibc countEntry hlibc hentry [1, 2, 3]).2 .finished).mpr ?_
  have hrun : (stepN (step countProgram) 13 ⟨countProgram, initialEnv countEntry, []⟩).any
      (fun c => c.rest.isEmpty && c.output == [1, 2, 3]) = true := by decide +kernel
  obtain ⟨c, hc, hend⟩ := (Option.any_eq_true _ _).mp hrun
  rw [Bool.and_eq_true, List.isEmpty_iff, beq_iff_eq] at hend
  exact ⟨c, ⟨13, hc⟩, by simp [step, hend.1], hend.1, hend.2⟩

end CS24.TeenyBasic
