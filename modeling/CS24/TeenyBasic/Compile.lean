import CS24.TeenyBasic.Assembly

/-!
# The TeenyBASIC compiler

`compile_ast` of `compile.c`, and `header`, `footer` and the loop of `main` of
`compiler.c`. `compileAst` returns the lines printed, the new value of `label_no`
and the result; as in the source, the results for the operands are not looked at.
-/

namespace CS24.TeenyBasic

def bytesPerInt : Int := 8
def asciiOffset : Int := 'A'.toNat

/-- The offset of a variable from `%rbp`. -/
def slot (name : Char) : Int := -((name.toNat - asciiOffset) * bytesPerInt)

def userLabel (l : String) : String := "L" ++ l

def condLabel (n : Nat) : String := "C" ++ n.repr

def code (is : List Instr) : List Line := is.map .instr

/-- The code after both operands: the left one in `%rdi`, the right one in `%rax`. -/
def compileOp (op : Char) : List Line × Bool :=
  let compare := [Instr.cmp .rax .rdi, .movImm 0 .rax, .movImm 1 .rsi]
  match op with
  | '+' => (code [.addq .rdi .rax], true)
  | '-' => (code [.subq .rax .rdi, .mov .rdi .rax], true)
  | '*' => (code [.imulq .rdi .rax], true)
  | '/' => (code [.mov .rax .rsi, .mov .rdi .rax, .cqto, .idiv .rsi], true)
  | '<' => (code (compare ++ [.cmovl .rsi .rax]), true)
  | '>' => (code (compare ++ [.cmovg .rsi .rax]), true)
  | '=' => (code (compare ++ [.cmove .rsi .rax]), true)
  | _ => (code compare, false)

def compileAst : Node → Nat → List Line × Nat × Bool
  | .num value, labelNo => (code [.movImm value.toInt .rax], labelNo, true)
  | .print e, labelNo =>
    let (ec, labelNo, _) := compileAst e labelNo
    (ec ++ code [.mov .rax .rdi, .call "print_int"], labelNo, true)
  | .var n, labelNo => (code [.movLoad (slot n) .rbp .rax], labelNo, true)
  | .letVar n value, labelNo =>
    let (vc, labelNo, _) := compileAst value labelNo
    (vc ++ code [.movStore .rax (slot n) .rbp], labelNo, true)
  | .binaryOp op l r, labelNo =>
    let (lc, labelNo, _) := compileAst l labelNo
    let (rc, labelNo, _) := compileAst r labelNo
    let (oc, ok) := compileOp op
    (lc ++ code [.push .rax] ++ rc ++ code [.pop .rdi] ++ oc, labelNo, ok)
  | .label l, labelNo => ([.label (userLabel l)], labelNo, true)
  | .goto l, labelNo => (code [.jmp (userLabel l)], labelNo, true)
  | .cond condition ifBranch, labelNo =>
    let (cc, labelNo, _) := compileAst condition labelNo
    let je := code [.test .rax .rax, .je (condLabel labelNo)]
    let (bc, labelNo, _) := compileAst ifBranch labelNo
    (cc ++ je ++ bc ++ [.label (condLabel labelNo)], labelNo + 1, true)

def header : List Line :=
  [.directive ".section .rodata", .label "intfmt", .directive ".string \"%ld\\n\"",
    .directive ".text", .label "print_int"] ++
  code [.mov .rdi .rsi, .leaq "intfmt" .rdi, .movb 0, .call "printf@plt", .ret] ++
  [.directive ".globl main", .label "main"] ++
  code [.push .rbp, .mov .rsp .rbp, .subImm 0xd0 .rsp]

def footer : List Line := code [.addImm 0xd0 .rsp, .pop .rbp, .movl 0, .ret]

/-- The loop of `main`, which exits when a statement does not compile. -/
def compileStatements : List Node → Nat → Option (List Line)
  | [], _ => some []
  | ast :: asts, labelNo =>
    match compileAst ast labelNo with
    | (ac, labelNo, true) => (compileStatements asts labelNo).map (ac ++ ·)
    | (_, _, false) => none

def compileProgram (asts : List Node) : Option (List Line) :=
  (compileStatements asts 0).map fun body => header ++ body ++ footer

end CS24.TeenyBasic
