import CS24.TeenyBasic.Ast

/-!
# The assembly language of the generated code

The instructions `compile_ast`, `header` and `footer` print, with the meaning x86-64
gives them. A register or an 8-byte cell of memory holds an integer; arithmetic on
data wraps to 64 bits. Stack addresses do not wrap, so the stack is never exhausted,
and the generated code only accesses cells at a distance from the stack pointer that
is a multiple of 8. Code addresses are line numbers.
-/

namespace CS24.TeenyBasic
open Machine

inductive Reg where
  | rax | rdi | rsi | rdx | rsp | rbp
  deriving DecidableEq

inductive Instr where
  | movImm (imm : Int) (dst : Reg)
  | mov (src dst : Reg)
  | movLoad (disp : Int) (base dst : Reg)
  | movStore (src : Reg) (disp : Int) (base : Reg)
  | movb (imm : Int)
  | movl (imm : Int)
  | leaq (sym : String) (dst : Reg)
  | push (src : Reg)
  | pop (dst : Reg)
  | addq (src dst : Reg)
  | subq (src dst : Reg)
  | imulq (src dst : Reg)
  | addImm (imm : Int) (dst : Reg)
  | subImm (imm : Int) (dst : Reg)
  | cqto
  | idiv (divisor : Reg)
  | cmp (src dst : Reg)
  | test (src dst : Reg)
  | cmovl (src dst : Reg)
  | cmovg (src dst : Reg)
  | cmove (src dst : Reg)
  | je (target : String)
  | jmp (target : String)
  | call (target : String)
  | ret

inductive Line where
  | label (name : String)
  | directive (text : String)
  | instr (i : Instr)

structure State where
  regs : Reg → Int
  mem : Int → Int
  zf : Bool
  sf : Bool
  of : Bool
  pc : Nat
  output : List Int

namespace State

def set (s : State) (r : Reg) (v : Int) : State := { s with regs := Function.update s.regs r v }

def put (s : State) (a v : Int) : State := { s with mem := Function.update s.mem a v }

def jump (s : State) (pc : Nat) : State := { s with pc := pc }

def next (s : State) : State := s.jump (s.pc + 1)

end State

def wrap (x : Int) : Int := x.bmod (2 ^ 64)

/-- The flags after an operation whose exact result is `x`. -/
def State.setFlags (s : State) (x : Int) : State :=
  { s with zf := wrap x == 0, sf := decide (wrap x < 0), of := wrap x != x }

/-- The code that is linked in: `printf` and the address of its format string. -/
structure Libc where
  printf : State → State
  intfmt : Int

/-- `printf(intfmt, rsi)` prints `rsi`, keeps the callee-saved registers and the stack
pointer, and writes no memory at or above its caller's stack pointer. -/
structure Libc.Conforms (libc : Libc) : Prop where
  output : ∀ s, s.regs .rdi = libc.intfmt → s.regs .rax % 256 = 0 →
    (libc.printf s).output = s.output ++ [s.regs .rsi]
  rsp : ∀ s, (libc.printf s).regs .rsp = s.regs .rsp
  rbp : ∀ s, (libc.printf s).regs .rbp = s.regs .rbp
  mem : ∀ s a, s.regs .rsp ≤ a → (libc.printf s).mem a = s.mem a
  grows : ∀ s, s.output <+: (libc.printf s).output

def labelIndex (asm : List Line) (name : String) : Option Nat :=
  asm.findIdx? fun
    | .label l => l == name
    | _ => false

def idivTraps (s : State) (divisor : Reg) : Bool :=
  let n := s.regs .rdx * 2 ^ 64 + s.regs .rax % 2 ^ 64
  let q := n.tdiv (s.regs divisor)
  s.regs divisor == 0 || wrap q != q

/-- One instruction; `none` is a trap or an undefined symbol. -/
def exec (libc : Libc) (asm : List Line) (s : State) : Instr → Option State
  | .movImm imm dst => some (s.set dst imm).next
  | .mov src dst => some (s.set dst (s.regs src)).next
  | .movLoad disp base dst => some (s.set dst (s.mem (s.regs base + disp))).next
  | .movStore src disp base => some (s.put (s.regs base + disp) (s.regs src)).next
  | .movb imm => some (s.set .rax (s.regs .rax - s.regs .rax % 256 + imm)).next
  | .movl imm => some (s.set .rax imm).next
  | .leaq sym dst => if sym = "intfmt" then some (s.set dst libc.intfmt).next else none
  | .push src =>
    some ((s.put (s.regs .rsp - 8) (s.regs src)).set .rsp (s.regs .rsp - 8)).next
  | .pop dst =>
    some ((s.set .rsp (s.regs .rsp + 8)).set dst (s.mem (s.regs .rsp))).next
  | .addq src dst =>
    let x := s.regs dst + s.regs src
    some ((s.setFlags x).set dst (wrap x)).next
  | .subq src dst =>
    let x := s.regs dst - s.regs src
    some ((s.setFlags x).set dst (wrap x)).next
  | .imulq src dst =>
    let x := s.regs dst * s.regs src
    some ((s.setFlags x).set dst (wrap x)).next
  | .addImm imm dst => some (s.set dst (s.regs dst + imm)).next
  | .subImm imm dst => some (s.set dst (s.regs dst - imm)).next
  | .cqto => some (s.set .rdx (if s.regs .rax < 0 then -1 else 0)).next
  | .idiv divisor =>
    let n := s.regs .rdx * 2 ^ 64 + s.regs .rax % 2 ^ 64
    if idivTraps s divisor then none
    else some ((s.set .rax (n.tdiv (s.regs divisor))).set .rdx (n.tmod (s.regs divisor))).next
  | .cmp src dst => some (s.setFlags (s.regs dst - s.regs src)).next
  | .test src dst =>
    some (s.setFlags (Int64.ofInt (s.regs src) &&& Int64.ofInt (s.regs dst)).toInt).next
  | .cmovl src dst => some (if s.sf != s.of then s.set dst (s.regs src) else s).next
  | .cmovg src dst => some (if !s.zf && s.sf == s.of then s.set dst (s.regs src) else s).next
  | .cmove src dst => some (if s.zf then s.set dst (s.regs src) else s).next
  | .je target =>
    if s.zf then (labelIndex asm target).map s.jump else some s.next
  | .jmp target => (labelIndex asm target).map s.jump
  | .call target =>
    match labelIndex asm target with
    | some i => some (((s.put (s.regs .rsp - 8) (s.pc + 1)).set .rsp (s.regs .rsp - 8)).jump i)
    | none => if target = "printf@plt" then some ((libc.printf s).jump (s.pc + 1)) else none
  | .ret => some ((s.set .rsp (s.regs .rsp + 8)).jump (s.mem (s.regs .rsp)).toNat)

def run (libc : Libc) (asm : List Line) (s : State) : Option State :=
  match asm[s.pc]? with
  | none => none
  | some (.instr i) => exec libc asm s i
  | some _ => some s.next

/-- The run of the file is over when control is at a line past its end, which is
where the caller of `main` is; it has trapped at an `idiv` that cannot divide. -/
def State.Stopped (asm : List Line) (s : State) : Stop → Prop
  | .finished => asm.length ≤ s.pc
  | .trapped => ∃ r, asm[s.pc]? = some (.instr (.idiv r)) ∧ idivTraps s r

theorem State.Stopped.unique {asm : List Line} {s : State} {i j : Stop} (hi : s.Stopped asm i)
    (hj : s.Stopped asm j) : i = j := by
  have hne : s.Stopped asm .finished → ¬ s.Stopped asm .trapped := by
    rintro hend ⟨r, hr, -⟩
    rw [List.getElem?_eq_none hend] at hr
    cases hr
  cases i <;> cases j
  · rfl
  · exact absurd hj (hne hi)
  · exact absurd hi (hne hj)
  · rfl

end CS24.TeenyBasic
