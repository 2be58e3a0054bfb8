import CS24.TeenyBasic.Frame

/-!
# The stack pointer at calls

The code of a statement pushes and pops in pairs and jumps only where nothing is pushed, so
every line has a fixed distance from the frame. `main` aligns the stack for its own calls,
but it calls `print_int`, which calls `printf` without adjusting for its return address.
-/

namespace CS24.TeenyBasic
open Machine

variable {libc : Libc} {asm body pre rest xs ys : List Line} {s s' : State} {top : Int}
  {d d' e : Nat} {i : Instr} {n : Nat} {st : Node} {prog : List Node} {l : String}

def Reg.IsData (r : Reg) : Prop := r ≠ .rsp ∧ r ≠ .rbp

def Instr.IsPlain : Instr → Prop
  | .movImm _ dst | .mov _ dst | .movLoad _ _ dst | .addq _ dst | .subq _ dst | .imulq _ dst
  | .cmovl _ dst | .cmovg _ dst | .cmove _ dst => dst.IsData
  | .movStore _ disp base => disp ≤ 0 ∧ base = .rbp
  | .cqto | .idiv _ | .cmp _ _ | .test _ _ => True
  | _ => False

/-- The target of a jump of `compile_ast` -/
def IsJumpTarget (l : String) : Prop := l.toList.head? = some 'L' ∨ l.toList.head? = some 'C'

/-- With `d` temporaries on the stack the lines leave `d'` of them there. -/
inductive Balanced : Nat → List Line → Nat → Prop where
  | nil {d : Nat} : Balanced d [] d
  | label {l : String} {xs : List Line} {d' : Nat} : Balanced 0 xs d' →
      Balanced 0 (.label l :: xs) d'
  | plain {d d' : Nat} {i : Instr} {xs : List Line} : i.IsPlain → Balanced d xs d' →
      Balanced d (.instr i :: xs) d'
  | push {d d' : Nat} {r : Reg} {xs : List Line} : Balanced (d + 1) xs d' →
      Balanced d (.instr (.push r) :: xs) d'
  | pop {d d' : Nat} {r : Reg} {xs : List Line} : r.IsData → Balanced d xs d' →
      Balanced (d + 1) (.instr (.pop r) :: xs) d'
  | jump {d' : Nat} {i : Instr} {l : String} {xs : List Line} : i = .jmp l ∨ i = .je l →
      IsJumpTarget l → Balanced 0 xs d' → Balanced 0 (.instr i :: xs) d'
  | call {d' : Nat} {xs : List Line} : Balanced 0 xs d' →
      Balanced 0 (.instr (.call "print_int") :: xs) d'

theorem Balanced.append (h : Balanced d xs e) (h' : Balanced e ys d') :
    Balanced d (xs ++ ys) d' := by
  induction h with
  | nil => exact h'
  | label _ ih => exact .label (ih h')
  | plain hi _ ih => exact .plain hi (ih h')
  | push _ ih => exact .push (ih h')
  | pop hr _ ih => exact .pop hr (ih h')
  | jump hi hl _ ih => exact .jump hi hl (ih h')
  | call _ ih => exact .call (ih h')

theorem Balanced.split (h : Balanced d (xs ++ ys) d') : ∃ e, Balanced e ys d' := by
  induction xs generalizing d with
  | nil => exact ⟨d, h⟩
  | cons x xs ih =>
    rw [List.cons_append] at h
    cases h with
    | label h | plain _ h | push h | pop _ h | jump _ _ h | call h => exact ih h

theorem balanced_code {is : List Instr} (h : ∀ i ∈ is, i.IsPlain) (d : Nat) :
    Balanced d (code is) d := by
  induction is with
  | nil => exact .nil
  | cons i is ih => exact .plain (h i (by simp)) (ih fun j hj => h j (by simp [hj]))

theorem balanced_op (op : Char) (d : Nat) : Balanced d (compileOp op).1 d := by
  unfold compileOp
  split <;> exact balanced_code (by simp [Instr.IsPlain, Reg.IsData]) d

theorem balanced_binary {left right : Node} {op : Char}
    (hl : ∀ d n, Balanced d (compileAst left n).1 d)
    (hr : ∀ d n, Balanced d (compileAst right n).1 d) (d n : Nat) :
    Balanced d (compileAst (.binaryOp op left right) n).1 d := by
  have hpush : Balanced d (code [.push .rax]) (d + 1) := .push .nil
  have hpop : Balanced (d + 1) (code [.pop .rdi]) d := .pop ⟨by decide, by decide⟩ .nil
  exact ((((hl d n).append hpush).append (hr (d + 1) _)).append hpop).append (balanced_op op d)

theorem balanced_expr {e : Node} (he : e.IsExpr) (d n : Nat) :
    Balanced d (compileAst e n).1 d := by
  induction e generalizing d n with
  | num v | var c => exact balanced_code (by simp [Instr.IsPlain, Reg.IsData]) d
  | binaryOp op left right ihl ihr => exact balanced_binary (ihl he.2.1) (ihr he.2.2) d n
  | print | letVar | label | goto | cond => exact he.elim

theorem balanced_comparison {e : Node} (he : e.IsComparison) (d n : Nat) :
    Balanced d (compileAst e n).1 d := by
  cases e with
  | binaryOp op left right =>
    exact balanced_binary (balanced_expr he.2.1) (balanced_expr he.2.2) d n
  | num | var | print | letVar | label | goto | cond => exact he.elim

theorem isJumpTarget_userLabel (l : String) : IsJumpTarget (userLabel l) :=
  .inl (by rw [userLabel_toList]; rfl)

theorem isJumpTarget_condLabel (n : Nat) : IsJumpTarget (condLabel n) :=
  .inr (by rw [condLabel_toList]; rfl)

theorem balanced_statement (hst : st.IsStatement) (n : Nat) : Balanced 0 (compileAst st n).1 0 := by
  induction st generalizing n with
  | print e =>
    have hend : Balanced 0 (code [.mov .rax .rdi, .call "print_int"]) 0 :=
      .plain ⟨by decide, by decide⟩ (.call .nil)
    exact (balanced_expr hst 0 n).append hend
  | letVar name value =>
    have hend : Balanced 0 (code [.movStore .rax (slot name) .rbp]) 0 :=
      .plain ⟨(slot_bounds hst.1).2, rfl⟩ .nil
    exact (balanced_expr hst.2 0 n).append hend
  | label l => exact .label .nil
  | goto l => exact .jump (.inl rfl) (isJumpTarget_userLabel l) .nil
  | cond c b _ ihb =>
    have hje : Balanced 0 (code [.test .rax .rax, .je (condLabel (compileAst c n).2.1)]) 0 :=
      .plain trivial (.jump (.inr rfl) (isJumpTarget_condLabel _) .nil)
    exact (((balanced_comparison hst.1 0 n).append hje).append (ihb hst.2 _)).append (.label .nil)
  | num | var | binaryOp => exact hst.elim

theorem balanced_statements (hst : ∀ st ∈ prog, st.IsStatement) {n : Nat}
    (hbody : compileStatements prog n = some body) : Balanced 0 body 0 := by
  induction prog generalizing n body with
  | nil =>
    obtain rfl : [] = body := Option.some.inj hbody
    exact .nil
  | cons st prog ih =>
    have hfirst := balanced_statement (hst st (by simp)) n
    rw [compileStatements] at hbody
    split at hbody
    · rename_i ac labelNo hac
      obtain ⟨body', hbody', rfl⟩ := Option.map_eq_some_iff.mp hbody
      rw [hac] at hfirst
      exact hfirst.append (ih (fun u hu => hst u (by simp [hu])) hbody')
    · cases hbody

/-- The frame of `main`, which was called with the stack pointer `top`. -/
structure InFrame (asm : List Line) (top : Int) (s : State) : Prop where
  rbp : s.regs .rbp = top - 8
  ret : s.mem top = asm.length

/-- Control is in the code of the statements, before the lines `rest`. -/
structure AtCode (body : List Line) (top : Int) (rest : List Line) (d : Nat) (s : State) :
    Prop where
  before : ∃ pre, body = pre ++ rest ∧ s.pc = 15 + pre.length
  balanced : Balanced d rest 0
  rsp : s.regs .rsp = top - 216 - 8 * d

/-- Control is in line `k` of `print_int`, which was called from the code of a statement. -/
structure Printing (libc : Libc) (body : List Line) (top : Int) (k : Nat) (s : State) : Prop where
  pc : s.pc = 4 + k
  rsp : s.regs .rsp = top - 224
  ret : ∃ pre rest, body = pre ++ rest ∧ Balanced 0 rest 0 ∧ s.mem (top - 224) = 15 + pre.length
  format : k = 3 ∨ k = 4 → s.regs .rdi = libc.intfmt
  floats : k = 4 → s.regs .rax % 256 = 0

/-- The places of control in `main` and in what it calls, with the stack pointer there. -/
inductive Located (libc : Libc) (asm body : List Line) (top : Int) (s : State) : Prop where
  | entered : s.pc = 11 ∨ s.pc = 12 → s.regs .rsp = top → s.mem top = asm.length → Located ..
  | saved : s.pc = 13 → s.regs .rsp = top - 8 → s.mem top = asm.length → Located ..
  | framed : s.pc = 14 → s.regs .rsp = top - 8 → InFrame asm top s → Located ..
  | code (rest : List Line) (d : Nat) : InFrame asm top s → AtCode body top rest d s → Located ..
  | printing (k : Nat) : k ≤ 5 → InFrame asm top s → Printing libc body top k s → Located ..
  | popping : s.pc + 3 = asm.length → s.regs .rsp = top - 8 → s.mem top = asm.length → Located ..
  | leaving : s.pc + 2 = asm.length ∨ s.pc + 1 = asm.length → s.regs .rsp = top →
      s.mem top = asm.length → Located ..
  | left : asm.length ≤ s.pc → Located ..

theorem exec_plain (hi : i.IsPlain) (h : exec libc asm s i = some s') :
    s'.pc = s.pc + 1 ∧ s'.regs .rsp = s.regs .rsp ∧ s'.regs .rbp = s.regs .rbp ∧
      ∀ a, s.regs .rbp < a → s'.mem a = s.mem a := by
  cases i with
  | movImm imm dst | mov src dst | movLoad disp base dst | addq src dst | subq src dst
  | imulq src dst =>
    obtain rfl := Option.some.inj h
    have hdst : dst ≠ .rsp ∧ dst ≠ .rbp := hi
    simp [Function.update_of_ne hdst.1.symm, Function.update_of_ne hdst.2.symm]
  | movStore src disp base =>
    obtain rfl := Option.some.inj h
    obtain ⟨hdisp, rfl⟩ : disp ≤ 0 ∧ base = .rbp := hi
    refine ⟨rfl, rfl, rfl, fun a ha => ?_⟩
    exact Function.update_of_ne (by omega) _ _
  | cqto | cmp | test =>
    obtain rfl := Option.some.inj h
    simp
  | idiv divisor =>
    simp only [exec] at h
    split_ifs at h
    obtain rfl := Option.some.inj h
    simp
  | cmovl src dst | cmovg src dst | cmove src dst =>
    have hdst : dst ≠ .rsp ∧ dst ≠ .rbp := hi
    simp only [exec, Option.some.injEq] at h
    rw [← h]
    split_ifs <;> simp [Function.update_of_ne hdst.1.symm, Function.update_of_ne hdst.2.symm]
  | _ => exact hi.elim

theorem InFrame.of_plain (h : InFrame asm top s) (hrbp : s'.regs .rbp = s.regs .rbp)
    (hmem : ∀ a, s.regs .rbp < a → s'.mem a = s.mem a) : InFrame asm top s' where
  rbp := hrbp.trans h.rbp
  ret := by rw [hmem top (by rw [h.rbp]; omega), h.ret]

section
variable (hasm : asm = header ++ body ++ footer) (hbody : Balanced 0 body 0)
include hasm

theorem length_eq : asm.length = 15 + body.length + 4 := by
  rw [hasm, List.length_append, List.length_append]
  rfl

theorem header_line {j : Nat} (hj : j < 15) : asm[j]? = header[j]? := by
  rw [hasm, List.append_assoc, List.getElem?_append_left (by exact hj)]

theorem body_line {x : Line} (hsplit : body = pre ++ x :: rest) :
    asm[15 + pre.length]? = some x := by
  have hlist : asm = header ++ (pre ++ x :: (rest ++ footer)) := by
    rw [hasm, hsplit]
    simp
  have hheader : header.length = 15 := rfl
  rw [hlist, List.getElem?_append_right (by omega), hheader, Nat.add_sub_cancel_left,
    List.getElem?_append_right le_rfl, Nat.sub_self]
  rfl

theorem footer_line {j : Nat} : asm[15 + body.length + j]? = footer[j]? := by
  have hlength : (header ++ body).length = 15 + body.length := by
    rw [List.length_append]
    rfl
  rw [hasm, List.getElem?_append_right (by omega), hlength, Nat.add_sub_cancel_left]

theorem Printing.step (hlibc : libc.Conforms) (hprintf : labelIndex asm "printf@plt" = none)
    {k : Nat} (hk : k ≤ 5) (hframe : InFrame asm top s) (h : Printing libc body top k s)
    (hs : run libc asm s = some s') : Located libc asm body top s' := by
  have hpc := h.pc
  have hline : asm[s.pc]? = header[4 + k]? := by
    rw [hpc]
    exact header_line hasm (by omega)
  match k, hk with
  | 0, _ =>
    have hrun : run libc asm s = some s.next := run_label hline
    obtain rfl := Option.some.inj (hrun.symm.trans hs)
    exact .printing 1 (by omega) ⟨hframe.rbp, hframe.ret⟩
      ⟨by rw [State.next_pc, hpc], h.rsp, h.ret, fun h => by omega, fun h => by omega⟩
  | 1, _ =>
    obtain rfl := Option.some.inj ((run_instr libc hline).symm.trans hs)
    exact .printing 2 (by omega) ⟨by simp [hframe.rbp], hframe.ret⟩
      ⟨by simp [hpc], by simp [h.rsp], h.ret, fun h => by omega, fun h => by omega⟩
  | 2, _ =>
    obtain rfl := Option.some.inj ((run_instr libc hline).symm.trans hs)
    exact .printing 3 (by omega) ⟨by simp [hframe.rbp], hframe.ret⟩
      ⟨by simp [hpc], by simp [h.rsp], h.ret, fun _ => by simp, fun h => by omega⟩
  | 3, _ =>
    obtain rfl := Option.some.inj ((run_instr libc hline).symm.trans hs)
    refine .printing 4 (by omega) ⟨by simp [hframe.rbp], hframe.ret⟩
      ⟨by simp [hpc], by simp [h.rsp], h.ret, fun _ => by simp [h.format (.inl rfl)],
        fun _ => ?_⟩
    simp only [State.next_regs, State.set_regs, Function.update_self]
    omega
  | 4, _ =>
    have hexec := (run_instr libc hline).symm.trans hs
    simp only [exec, hprintf, if_true] at hexec
    obtain rfl := Option.some.inj hexec
    obtain ⟨pre, rest, hbody', hrest, hback⟩ := h.ret
    refine .printing 5 le_rfl ⟨?_, ?_⟩ ⟨by simp [hpc], ?_, ⟨pre, rest, hbody', hrest, ?_⟩,
      fun h => by omega, fun h => by omega⟩
    · rw [State.jump_regs, hlibc.rbp, hframe.rbp]
    · rw [State.jump_mem, hlibc.mem _ _ (by rw [h.rsp]; omega), hframe.ret]
    · rw [State.jump_regs, hlibc.rsp, h.rsp]
    · rw [State.jump_mem, hlibc.mem _ _ (Int.le_of_eq h.rsp), hback]
  | 5, _ =>
    obtain rfl := Option.some.inj ((run_instr libc hline).symm.trans hs)
    obtain ⟨pre, rest, hbody', hrest, hback⟩ := h.ret
    refine .code rest 0 ⟨by simp [hframe.rbp], hframe.ret⟩ ⟨⟨pre, hbody', ?_⟩, hrest, ?_⟩
    · rw [State.jump_pc, h.rsp, hback]
      omega
    · simp [h.rsp]
      omega

/-- Control is at the `call printf@plt` of `print_int`. -/
def AtPrintf (asm : List Line) (s : State) : Prop :=
  asm[s.pc]? = some (.instr (.call "printf@plt"))

theorem Located.atPrintf (h : Located libc asm body top s) (hat : AtPrintf asm s) :
    Printing libc body top 4 s := by
  unfold AtPrintf at hat
  have hlength := length_eq hasm
  cases h with
  | entered hpc =>
    rcases hpc with hpc | hpc
    · rw [hpc, header_line hasm (by omega)] at hat
      cases hat
    · rw [hpc, header_line hasm (by omega)] at hat
      cases hat
  | saved hpc =>
    rw [hpc, header_line hasm (by omega)] at hat
    cases hat
  | framed hpc =>
    rw [hpc, header_line hasm (by omega)] at hat
    cases hat
  | code rest d hframe hcode =>
    obtain ⟨⟨pre, hpre, hpc⟩, hbalanced, -⟩ := hcode
    rw [hpc] at hat
    cases rest with
    | nil =>
      rw [List.append_nil] at hpre
      have hline := footer_line hasm (j := 0)
      rw [Nat.add_zero, hpre] at hline
      rw [hline] at hat
      cases hat
    | cons x xs =>
      rw [body_line hasm hpre] at hat
      have hx := Option.some.inj hat
      cases hbalanced with
      | label | push | pop => cases hx
      | plain hi _ =>
        cases hx
        exact hi.elim
      | jump hi _ _ =>
        cases hx
        rcases hi with hi | hi <;> cases hi
      | call => simp at hx
  | printing k hk hframe hprinting =>
    have hk' : k = 4 := by
      rw [hprinting.pc, header_line hasm (by omega)] at hat
      match k, hk with
      | 0, _ | 1, _ | 2, _ | 3, _ | 5, _ => cases hat
      | 4, _ => rfl
    exact hk' ▸ hprinting
  | popping hpc =>
    have hpc' : s.pc = 15 + body.length + 1 := by omega
    rw [hpc', footer_line hasm] at hat
    cases hat
  | leaving hpc =>
    rcases hpc with hpc | hpc
    · have hpc' : s.pc = 15 + body.length + 2 := by omega
      rw [hpc', footer_line hasm] at hat
      cases hat
    · have hpc' : s.pc = 15 + body.length + 3 := by omega
      rw [hpc', footer_line hasm] at hat
      cases hat
  | left hpc =>
    rw [List.getElem?_eq_none hpc] at hat
    cases hat

include hbody

theorem atCode_jump (hl : IsJumpTarget l) {j : Nat} (hj : labelIndex asm l = some j)
    (hrsp : s.regs .rsp = top - 216) : ∃ rest, AtCode body top rest 0 (s.jump j) := by
  obtain ⟨hlt, hline, -⟩ := List.findIdx?_eq_some_iff_getElem.mp hj
  have hat : asm[j]? = some (.label l) := by
    rw [List.getElem?_eq_getElem hlt]
    split at hline
    · rename_i k hk
      rw [hk, beq_iff_eq.mp hline]
    · cases hline
  have hlength := length_eq hasm
  have hbounds : 15 ≤ j ∧ j < 15 + body.length := by
    constructor
    · by_contra hlow
      rw [header_line hasm (by omega)] at hat
      have hmem : Line.label l ∈ header := List.mem_of_getElem? hat
      simp [header, code] at hmem
      rcases hmem with rfl | rfl | rfl <;> simp [IsJumpTarget] at hl
    · by_contra hhigh
      obtain ⟨i, rfl⟩ : ∃ i, j = 15 + body.length + i := ⟨j - (15 + body.length), by omega⟩
      rw [footer_line hasm] at hat
      have hmem : Line.label l ∈ footer := List.mem_of_getElem? hat
      simp [footer, code] at hmem
  obtain ⟨i, rfl⟩ : ∃ i, j = 15 + i := ⟨j - 15, by omega⟩
  have hbody_at : body[i]? = some (.label l) := by
    have hi : i < body.length := by omega
    have hsplit : body = body.take i ++ body[i] :: body.drop (i + 1) := by
      rw [List.cons_getElem_drop_succ, List.take_append_drop]
    have hx := body_line hasm hsplit
    rw [List.length_take, Nat.min_eq_left hi.le, hat] at hx
    rw [List.getElem?_eq_getElem hi, hx]
  obtain ⟨pre, rest, hsplit, hpre⟩ : ∃ pre rest, body = pre ++ .label l :: rest ∧
      pre.length = i := by
    obtain ⟨hi, hget⟩ := List.getElem?_eq_some_iff.mp hbody_at
    refine ⟨body.take i, body.drop (i + 1), ?_, ?_⟩
    · rw [← hget, List.cons_getElem_drop_succ, List.take_append_drop]
    · rw [List.length_take, Nat.min_eq_left hi.le]
  rw [hsplit] at hbody
  obtain ⟨e, he⟩ := hbody.split
  refine ⟨_, ⟨pre, hsplit, by rw [State.jump_pc, hpre]⟩, ?_, ?_⟩
  · cases he with
    | label h => exact .label h
  · rw [State.jump_regs, hrsp]
    simp

variable (libc) in
theorem AtCode.step (hframe : InFrame asm top s) (h : AtCode body top rest d s)
    (hs : run libc asm s = some s') : Located libc asm body top s' := by
  obtain ⟨⟨pre, hpre, hpc⟩, hbalanced, hrsp⟩ := h
  have hline : ∀ x xs, rest = x :: xs → asm[s.pc]? = some x := by
    rintro x xs rfl
    rw [hpc]
    exact body_line hasm hpre
  have hbefore : ∀ x xs, rest = x :: xs → ∀ t : State, t.pc = s.pc + 1 →
      ∃ pre, body = pre ++ xs ∧ t.pc = 15 + pre.length := by
    rintro x xs rfl t ht
    refine ⟨pre ++ [x], by simp [hpre], ?_⟩
    rw [ht, hpc, List.length_append, List.length_singleton, Nat.add_assoc]
  cases hbalanced with
  | nil =>
    have hat : asm[s.pc]? = footer[0]? := by
      rw [hpc, ← footer_line hasm, hpre, List.append_nil, Nat.add_zero]
    obtain rfl := Option.some.inj ((run_instr libc hat).symm.trans hs)
    have hlength := length_eq hasm
    rw [List.append_nil] at hpre
    subst hpre
    refine .popping ?_ ?_ hframe.ret
    · simp only [State.next_pc, State.set_pc]
      omega
    · simp [hrsp]
      omega
  | @label l xs d' hxs =>
    have hrun : run libc asm s = some s.next := run_label (hline _ xs rfl)
    obtain rfl := Option.some.inj (hrun.symm.trans hs)
    exact .code xs 0 ⟨hframe.rbp, hframe.ret⟩ ⟨hbefore _ xs rfl _ rfl, hxs, hrsp⟩
  | @plain d d' i xs hi hxs =>
    obtain ⟨hpc', hrsp', hrbp', hmem'⟩ :=
      exec_plain hi ((run_instr libc (hline _ xs rfl)).symm.trans hs)
    exact .code xs d (hframe.of_plain hrbp' hmem')
      ⟨hbefore _ xs rfl _ hpc', hxs, hrsp'.trans hrsp⟩
  | @push d d' r xs hxs =>
    obtain rfl := Option.some.inj ((run_instr libc (hline _ xs rfl)).symm.trans hs)
    refine .code xs (d + 1) ⟨?_, ?_⟩ ⟨hbefore _ xs rfl _ rfl, hxs, ?_⟩
    · simp [hframe.rbp]
    · simp only [State.next_mem, State.set_mem, State.put_mem]
      rw [Function.update_of_ne (by rw [hrsp]; omega), hframe.ret]
    · simp [hrsp]
      omega
  | @pop d d' r xs hr hxs =>
    obtain rfl := Option.some.inj ((run_instr libc (hline _ xs rfl)).symm.trans hs)
    obtain ⟨hrsp_ne, hrbp_ne⟩ := hr
    refine .code xs d ⟨?_, hframe.ret⟩ ⟨hbefore _ xs rfl _ rfl, hxs, ?_⟩
    · simp [Function.update_of_ne hrbp_ne.symm, hframe.rbp]
    · simp [Function.update_of_ne hrsp_ne.symm, hrsp]
      omega
  | @jump d' i l xs hi hl hxs =>
    have hexec := (run_instr libc (hline _ xs rfl)).symm.trans hs
    have hbase : s.regs .rsp = top - 216 := by
      rw [hrsp]
      simp
    have hgo : ∀ j, labelIndex asm l = some j → Located libc asm body top (s.jump j) := by
      intro j hj
      obtain ⟨rest, hrest⟩ := atCode_jump hasm hbody hl hj hbase
      exact .code rest 0 ⟨hframe.rbp, hframe.ret⟩ hrest
    rcases hi with rfl | rfl
    · obtain ⟨j, hj, rfl⟩ := Option.map_eq_some_iff.mp hexec
      exact hgo j hj
    · simp only [exec] at hexec
      split_ifs at hexec
      · obtain ⟨j, hj, rfl⟩ := Option.map_eq_some_iff.mp hexec
        exact hgo j hj
      · obtain rfl := Option.some.inj hexec
        exact .code xs 0 ⟨hframe.rbp, hframe.ret⟩ ⟨hbefore _ xs rfl _ rfl, hxs, hrsp⟩
  | @call d' xs hxs =>
    have hindex : labelIndex asm "print_int" = some 4 := by
      rw [hasm, List.append_assoc, labelIndex_append]
      rfl
    have hexec := (run_instr libc (hline _ xs rfl)).symm.trans hs
    simp only [exec, hindex] at hexec
    obtain rfl := Option.some.inj hexec
    have hbase : s.regs .rsp - 8 = top - 224 := by
      rw [hrsp]
      omega
    refine .printing 0 (by omega) ⟨?_, ?_⟩ ⟨rfl, ?_,
      ⟨pre ++ [.instr (.call "print_int")], xs, by simp [hpre],
        hxs, ?_⟩,
      fun h => by omega, fun h => by omega⟩
    · simp [hframe.rbp]
    · simp only [State.jump_mem, State.set_mem, State.put_mem]
      rw [Function.update_of_ne (by omega), hframe.ret]
    · simp [hbase]
    · simp only [State.jump_mem, State.set_mem, State.put_mem, hbase, Function.update_self]
      rw [hpc, List.length_append, List.length_singleton]
      omega

theorem Located.step (hlibc : libc.Conforms) (hprintf : labelIndex asm "printf@plt" = none)
    (h : Located libc asm body top s) (hs : run libc asm s = some s') :
    Located libc asm body top s' := by
  have hlength := length_eq hasm
  cases h with
  | entered hpc hrsp hret =>
    rcases hpc with hpc | hpc
    · have hline : asm[s.pc]? = header[11]? := hpc ▸ header_line hasm (by omega)
      have hrun : run libc asm s = some s.next := run_label hline
      obtain rfl := Option.some.inj (hrun.symm.trans hs)
      exact .entered (.inr (by rw [State.next_pc, hpc])) hrsp hret
    · have hline : asm[s.pc]? = header[12]? := hpc ▸ header_line hasm (by omega)
      obtain rfl := Option.some.inj ((run_instr libc hline).symm.trans hs)
      refine .saved (by simp [hpc]) (by simp [hrsp]) ?_
      simp only [State.next_mem, State.set_mem, State.put_mem]
      rw [Function.update_of_ne (by omega), hret]
  | saved hpc hrsp hret =>
    have hline : asm[s.pc]? = header[13]? := hpc ▸ header_line hasm (by omega)
    obtain rfl := Option.some.inj ((run_instr libc hline).symm.trans hs)
    exact .framed (by simp [hpc]) (by simp [hrsp]) ⟨by simp [hrsp], hret⟩
  | framed hpc hrsp hframe =>
    have hline : asm[s.pc]? = header[14]? := hpc ▸ header_line hasm (by omega)
    obtain rfl := Option.some.inj ((run_instr libc hline).symm.trans hs)
    refine .code body 0 ⟨by simp [hframe.rbp], hframe.ret⟩ ⟨⟨[], rfl, by simp [hpc]⟩, hbody, ?_⟩
    simp [hrsp]
    omega
  | code rest d hframe hcode => exact hcode.step libc hasm hbody hframe hs
  | printing k hk hframe hprinting =>
    exact hprinting.step hasm hlibc hprintf hk hframe hs
  | popping hpc hrsp hret =>
    have hpc' : s.pc = 15 + body.length + 1 := by omega
    have hline : asm[s.pc]? = footer[1]? := hpc' ▸ footer_line hasm
    obtain rfl := Option.some.inj ((run_instr libc hline).symm.trans hs)
    refine .leaving (.inl ?_) (by simp [hrsp]) hret
    simp only [State.next_pc, State.set_pc]
    omega
  | leaving hpc hrsp hret =>
    rcases hpc with hpc | hpc
    · have hpc' : s.pc = 15 + body.length + 2 := by omega
      have hline : asm[s.pc]? = footer[2]? := hpc' ▸ footer_line hasm
      obtain rfl := Option.some.inj ((run_instr libc hline).symm.trans hs)
      refine .leaving (.inr ?_) (by simp [hrsp]) hret
      simp only [State.next_pc, State.set_pc]
      omega
    · have hpc' : s.pc = 15 + body.length + 3 := by omega
      have hline : asm[s.pc]? = footer[3]? := hpc' ▸ footer_line hasm
      obtain rfl := Option.some.inj ((run_instr libc hline).symm.trans hs)
      refine .left ?_
      rw [State.jump_pc, hrsp, hret]
      omega
  | left hpc =>
    rw [run, List.getElem?_eq_none hpc] at hs
    cases hs

end

theorem run_silent (hat : ¬AtPrintf asm s) (h : run libc asm s = some s') :
    s'.output = s.output := by
  unfold run at h
  split at h
  · cases h
  · rename_i i hi
    cases i with
    | leaq | idiv =>
      simp only [exec] at h
      split_ifs at h
      exact Option.some.inj h ▸ rfl
    | cmovl | cmovg | cmove =>
      simp only [exec, Option.some.injEq] at h
      rw [← h, State.next_output]
      split_ifs <;> rfl
    | jmp target =>
      obtain ⟨j, -, rfl⟩ := Option.map_eq_some_iff.mp h
      rfl
    | je target =>
      simp only [exec] at h
      split_ifs at h
      · obtain ⟨j, -, rfl⟩ := Option.map_eq_some_iff.mp h
        rfl
      · exact Option.some.inj h ▸ rfl
    | call target =>
      simp only [exec] at h
      split at h
      · exact Option.some.inj h ▸ rfl
      · split_ifs at h with htarget
        subst htarget
        exact absurd hi hat
    | _ => exact Option.some.inj h ▸ rfl
  · exact Option.some.inj h ▸ rfl

theorem located_entry (hasm : asm = header ++ body ++ footer) (h : Entry asm s) :
    Located libc asm body (s.regs .rsp) s := by
  have hindex : labelIndex asm "main" = some 11 := by
    rw [hasm, List.append_assoc, labelIndex_append]
    rfl
  have hpc : s.pc = 11 := Option.some.inj (h.pc.symm.trans hindex)
  exact .entered (.inl hpc) rfl h.ret

/-- In an execution that was entered with an aligned stack, `printf` is only called with an
aligned stack if and only if the program prints nothing. -/
theorem calls_aligned_iff (prog : List Node) (hwf : WellFormed prog) :
    ∃ asm, compileProgram prog = some asm ∧ ∀ (libc : Libc) (s : State), libc.Conforms →
      Entry asm s → s.regs .rsp % 16 = 8 →
        ((∀ s', Steps (run libc asm) s s' → AtPrintf asm s' → s'.regs .rsp % 16 = 0) ↔
          ∀ out, Outputs (step prog) Config.output ⟨prog, initialEnv s, []⟩ out → out = []) := by
  obtain ⟨asm, hcompile, -, hcorrect⟩ := compiler_correct prog hwf
  refine ⟨asm, hcompile, fun libc s hlibc hentry haligned => ?_⟩
  obtain ⟨body, hbody, hasm⟩ := Option.map_eq_some_iff.mp hcompile
  have hbalanced := balanced_statements hwf.statements hbody
  have hprintf : labelIndex asm "printf@plt" = none := by
    obtain ⟨asm', hasm', ha⟩ := compileProgram_assembled hwf
    obtain rfl : asm = asm' := Option.some.inj (hcompile.symm.trans hasm')
    exact labelIndex_eq_none ha.printf
  have hlocated : ∀ s', Steps (run libc asm) s s' → Located libc asm body (s.regs .rsp) s' :=
    fun s' hs' => hs'.invariant
      (fun u u' hu hstep => hu.step hasm.symm hbalanced hlibc hprintf hstep)
      (located_entry hasm.symm hentry)
  constructor
  · intro h out hout
    have hnever : ∀ s', Steps (run libc asm) s s' → ¬AtPrintf asm s' := by
      intro s' hs' hat
      have hrsp := ((hlocated s' hs').atPrintf hasm.symm hat).rsp
      have hmod := h s' hs' hat
      omega
    obtain ⟨s', hs', hprefix⟩ := ((hcorrect libc s hlibc hentry out).1).mpr hout
    have hsilent : Steps (run libc asm) s s' ∧ s'.output = [] :=
      hs'.invariant (P := fun u => Steps (run libc asm) s u ∧ u.output = [])
        (fun u u' hu hstep => ⟨hu.1.trans (.of_step hstep),
          (run_silent (hnever u hu.1) hstep).trans hu.2⟩) ⟨.refl s, hentry.output⟩
    rw [hsilent.2] at hprefix
    exact List.prefix_nil.mp hprefix
  · intro h s' hs' hat
    have hprinting := (hlocated s' hs').atPrintf hasm.symm hat
    have hrun : run libc asm s' = some ((libc.printf s').jump (s'.pc + 1)) := by
      rw [run_instr libc hat]
      simp only [exec, hprintf, if_true]
    have hout := hlibc.output s' (hprinting.format (.inr rfl)) (hprinting.floats rfl)
    have hnil := h _ (((hcorrect libc s hlibc hentry (s'.output ++ [s'.regs .rsi])).1).mp
      ⟨_, hs'.trans (.of_step hrun), by rw [State.jump_output, hout]⟩)
    exact absurd hnil (List.append_ne_nil_of_right_ne_nil _ (by simp))

def alignedEntry (asm : List Line) : State :=
  ⟨fun r => if r = .rsp then 0x8008 else 0, fun a => if a = 0x8008 then asm.length else 0,
    false, false, false, 11, []⟩

theorem alignedEntry_entry (hpc : labelIndex asm "main" = some 11) :
    Entry asm (alignedEntry asm) := by
  refine ⟨hpc, by simp [alignedEntry], fun c hc => ?_, rfl⟩
  have hslot := slot_bounds hc
  have hcell : frameCell (alignedEntry asm) c = 0 := by
    rw [frameCell]
    split_ifs
    · rfl
    · have hne : (0x8008 : Int) - 8 + slot c ≠ 0x8008 := by omega
      exact if_neg hne
  rw [hcell]
  decide

theorem calls_aligned_iff_silent : compileProgram (assignProgram 'B') = some (assignAsm 'B') ∧
    ∀ s', Steps (run printLibc (assignAsm 'B')) (alignedEntry (assignAsm 'B')) s' →
      AtPrintf (assignAsm 'B') s' → s'.regs .rsp % 16 = 0 := by
  obtain ⟨asm, hasm, haligned⟩ :=
    calls_aligned_iff (assignProgram 'B') (assignProgram_wellFormed rfl)
  obtain rfl : assignAsm 'B' = asm := by rw [assignAsm, hasm, Option.getD_some]
  have hentry : Entry (assignAsm 'B') (alignedEntry (assignAsm 'B')) :=
    alignedEntry_entry (by decide +kernel)
  refine ⟨hasm, (haligned printLibc _ printLibc_conforms hentry rfl).mpr ?_⟩
  rintro out ⟨c, hc, hprefix⟩
  have hsilent : c.output = [] := hc.invariant (P := fun c => (∀ st ∈ c.rest,
      st = .letVar 'B' (.num 1)) ∧ c.output = []) (fun c c' hinv hstep => ?_) ?_ |>.2
  · rw [hsilent] at hprefix
    exact List.prefix_nil.mp hprefix
  · obtain ⟨rest, env, out⟩ := c
    cases rest with
    | nil => cases hstep
    | cons st k =>
      obtain ⟨hrest, hout⟩ := hinv
      obtain rfl := hrest st (by simp)
      obtain rfl := Option.some.inj hstep
      exact ⟨fun u hu => hrest u (by simp [hu]), hout⟩
  · exact ⟨by simp [assignProgram], rfl⟩

def printProgram : List Node := [.print (.num 1)]

def printAsm : List Line := (compileProgram printProgram).getD []

/-- `PRINT 1` calls `printf` with a stack that is not aligned. -/
theorem print_calls_misaligned : ¬ ∀ (prog : List Node) (asm : List Line) (libc : Libc)
    (s s' : State), WellFormed prog → compileProgram prog = some asm → libc.Conforms →
      Entry asm s → s.regs .rsp % 16 = 8 → Steps (run libc asm) s s' → AtPrintf asm s' →
        s'.regs .rsp % 16 = 0 := by
  intro h
  have hwf : WellFormed printProgram :=
    ⟨by simp [printProgram, Node.IsStatement, Node.IsExpr],
      by simp [printProgram, Node.Plain, Node.labels], by decide,
      by simp [printProgram, Node.targets]⟩
  have hcompile : compileProgram printProgram = some printAsm := by
    obtain ⟨asm, hasm, -⟩ := compileProgram_assembled hwf
    rw [printAsm, hasm, Option.getD_some]
  have hrun : (stepN (run printLibc printAsm) 11 (alignedEntry printAsm)).any (fun s =>
      decide (s.pc = 8) && decide (s.regs .rsp % 16 = 8)) = true := by decide +kernel
  obtain ⟨s', hs', hend⟩ := (Option.any_eq_true _ _).mp hrun
  rw [Bool.and_eq_true, decide_eq_true_eq, decide_eq_true_eq] at hend
  have hat : AtPrintf printAsm s' := by
    rw [AtPrintf, hend.1]
    rfl
  have hzero := h printProgram printAsm printLibc (alignedEntry printAsm) s' hwf hcompile
    printLibc_conforms (alignedEntry_entry (by decide +kernel)) rfl ⟨11, hs'⟩ hat
  omega

end CS24.TeenyBasic
