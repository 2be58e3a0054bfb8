import CS24.TeenyJvm.ClassFile

/-!
# The Java virtual machine

What the class file means to a JVM: instructions with their operands, typed operand
stacks, and 32-bit arithmetic. `println` is the only use of an object. Type checking
assigns to the start of each instruction that can be reached the types of the operand
stack and of the locals there.
-/

namespace CS24.TeenyJvm.Jvm

inductive ArithOp where
  | add | sub | mul | div | rem

inductive Cond where
  | eq | ne | lt | ge | gt | le

inductive Instruction where
  | const (v : Int32)
  | ldc (index : Nat)
  | load (n : Nat)
  | store (n : Nat)
  | arith (op : ArithOp)
  | neg
  | inc (n : Nat) (v : Int32)
  | ifZero (c : Cond) (offset : Int)
  | ifCompare (c : Cond) (offset : Int)
  | goto (offset : Int)
  | ireturn
  | return
  | getstatic (index : Nat)
  | invokevirtual (index : Nat)
  | invokestatic (index : Nat)

def u2 (high low : UInt8) : Nat := high.toNat * 256 + low.toNat

def s2 (high low : UInt8) : Int :=
  if u2 high low < 2 ^ 15 then u2 high low else u2 high low - 2 ^ 16

def s1 (b : UInt8) : Int := if b.toNat < 2 ^ 7 then b.toNat else b.toNat - 2 ^ 8

section
variable (code : List UInt8) (pc : Nat)

def u1At : Option Nat := (code[pc]?).map UInt8.toNat
def s1At : Option Int := (code[pc]?).map s1
def u2At : Option Nat := do return u2 (← code[pc]?) (← code[pc + 1]?)
def s2At : Option Int := do return s2 (← code[pc]?) (← code[pc + 1]?)

/-- The instruction at `pc`, given its opcode, and its length in bytes. -/
def decodeOperands (i : JvmInstruction) : Option (Instruction × Nat) :=
  match i with
  | .iconst_m1 => some (.const (-1), 1)
  | .iconst_0 => some (.const 0, 1)
  | .iconst_1 => some (.const 1, 1)
  | .iconst_2 => some (.const 2, 1)
  | .iconst_3 => some (.const 3, 1)
  | .iconst_4 => some (.const 4, 1)
  | .iconst_5 => some (.const 5, 1)
  | .bipush => return (.const (Int32.ofInt (← s1At code (pc + 1))), 2)
  | .sipush => return (.const (Int32.ofInt (← s2At code (pc + 1))), 3)
  | .ldc => return (.ldc (← u1At code (pc + 1)), 2)
  | .iload => return (.load (← u1At code (pc + 1)), 2)
  | .iload_0 => some (.load 0, 1)
  | .iload_1 => some (.load 1, 1)
  | .iload_2 => some (.load 2, 1)
  | .iload_3 => some (.load 3, 1)
  | .istore => return (.store (← u1At code (pc + 1)), 2)
  | .istore_0 => some (.store 0, 1)
  | .istore_1 => some (.store 1, 1)
  | .istore_2 => some (.store 2, 1)
  | .istore_3 => some (.store 3, 1)
  | .iadd => some (.arith .add, 1)
  | .isub => some (.arith .sub, 1)
  | .imul => some (.arith .mul, 1)
  | .idiv => some (.arith .div, 1)
  | .irem => some (.arith .rem, 1)
  | .ineg => some (.neg, 1)
  | .iinc => return (.inc (← u1At code (pc + 1)) (Int32.ofInt (← s1At code (pc + 2))), 3)
  | .ifeq => return (.ifZero .eq (← s2At code (pc + 1)), 3)
  | .ifne => return (.ifZero .ne (← s2At code (pc + 1)), 3)
  | .iflt => return (.ifZero .lt (← s2At code (pc + 1)), 3)
  | .ifge => return (.ifZero .ge (← s2At code (pc + 1)), 3)
  | .ifgt => return (.ifZero .gt (← s2At code (pc + 1)), 3)
  | .ifle => return (.ifZero .le (← s2At code (pc + 1)), 3)
  | .if_icmpeq => return (.ifCompare .eq (← s2At code (pc + 1)), 3)
  | .if_icmpne => return (.ifCompare .ne (← s2At code (pc + 1)), 3)
  | .if_icmplt => return (.ifCompare .lt (← s2At code (pc + 1)), 3)
  | .if_icmpge => return (.ifCompare .ge (← s2At code (pc + 1)), 3)
  | .if_icmpgt => return (.ifCompare .gt (← s2At code (pc + 1)), 3)
  | .if_icmple => return (.ifCompare .le (← s2At code (pc + 1)), 3)
  | .goto => return (.goto (← s2At code (pc + 1)), 3)
  | .ireturn => some (.ireturn, 1)
  | .return => some (.return, 1)
  | .getstatic => return (.getstatic (← u2At code (pc + 1)), 3)
  | .invokevirtual => return (.invokevirtual (← u2At code (pc + 1)), 3)
  | .invokestatic => return (.invokestatic (← u2At code (pc + 1)), 3)

def decode : Option (Instruction × Nat) := do
  decodeOperands code pc (← JvmInstruction.ofByte (← code[pc]?))

end

inductive Value where
  | int (v : Int32)
  | printStream
  deriving DecidableEq

/-- Wraps around; a division by zero throws an exception, which is `none` here. -/
def ArithOp.apply : ArithOp → Int32 → Int32 → Option Int32
  | .add, a, b => some (a + b)
  | .sub, a, b => some (a - b)
  | .mul, a, b => some (a * b)
  | .div, a, b => if b = 0 then none else some (a / b)
  | .rem, a, b => if b = 0 then none else some (a % b)

def Cond.holds : Cond → Int32 → Int32 → Bool
  | .eq, a, b => a == b
  | .ne, a, b => a != b
  | .lt, a, b => decide (a < b)
  | .ge, a, b => decide (b ≤ a)
  | .gt, a, b => decide (b < a)
  | .le, a, b => decide (a ≤ b)

def parameters (descriptor : String) : List Char :=
  (descriptor.toList.drop 1).takeWhile (· != ')')

def returnType (descriptor : String) : List Char :=
  (descriptor.toList.dropWhile (· != ')')).drop 1

def intTypes : List Char := ['Z', 'B', 'C', 'S', 'I']

/-- The value of an `ireturn` is converted to the return type of the method. -/
def narrow (type : List Char) (v : Int32) : Int32 :=
  match type with
  | ['Z'] => v &&& 1
  | ['B'] => v.toInt8.toInt32
  | ['S'] => v.toInt16.toInt32
  | ['C'] => v &&& 0xffff
  | _ => v

/-- The method a `Methodref` names, when it is one of the class `this`. -/
def resolve (this : String) (cls : ClassFile) (index : Nat) : Option Method :=
  match getConstant cls index with
  | some (.methodref classIndex nameAndType) =>
    match getConstant cls classIndex, getConstant cls nameAndType with
    | some (.class stringIndex), some (.nameAndType nameIndex descriptorIndex) =>
      match getUtf8 cls stringIndex, getUtf8 cls nameIndex, getUtf8 cls descriptorIndex with
      | some owner, some name, some descriptor =>
        if owner = this then
          cls.methods.find? fun m => m.name == name && m.descriptor == descriptor
        else none
      | _, _, _ => none
    | _, _ => none
  | _ => none

def popInts : Nat → List Value → Option (List Int32 × List Value)
  | 0, stack => some ([], stack)
  | n + 1, .int v :: stack => (popInts n stack).map fun (args, stack) => (args ++ [v], stack)
  | _ + 1, _ => none

/-- The locals of a method that starts with the arguments. -/
def startLocals (m : Method) (args : List Int32) : List (Option Int32) :=
  args.map some ++ List.replicate (m.maxLocals - args.length) none

def invoke (m : Method) (args : List Int32) : Frame Value := ⟨m, 0, [], startLocals m args⟩

def resume (value : Option Int32) (callers : List (Frame Value)) (output : List Int32) :
    State Value :=
  match callers, value with
  | [], _ => .returned value output
  | f :: callers, none => .running { f with pc := f.pc + 3 } callers output
  | f :: callers, some v =>
    .running { f with pc := f.pc + 3, stack := .int v :: f.stack } callers output

/-- Continue `offset` bytes after the start of the current instruction. -/
def branch (f : Frame Value) (stack : List Value) (offset : Int) : Frame Value :=
  { f with pc := (f.pc + offset).toNat, stack := stack }

def step (this : String) (cls : ClassFile) : State Value → Option (State Value)
  | .returned _ _ => none
  | .running f callers output => do
    let (i, length) ← decode f.method.code f.pc
    let continue_ (stack : List Value) (locals : List (Option Int32)) : State Value :=
      .running ⟨f.method, f.pc + length, stack, locals⟩ callers output
    match i, f.stack with
    | .const v, stack => some (continue_ (.int v :: stack) f.locals)
    | .ldc index, stack =>
      match getConstant cls index with
      | some (.integer v) => some (continue_ (.int v :: stack) f.locals)
      | _ => none
    | .load n, stack => do
      let v ← f.locals[n]?.join
      return continue_ (.int v :: stack) f.locals
    | .store n, .int v :: stack =>
      if n < f.locals.length then some (continue_ stack (f.locals.set n (some v))) else none
    | .arith op, .int b :: .int a :: stack => do
      let v ← op.apply a b
      return continue_ (.int v :: stack) f.locals
    | .neg, .int v :: stack => some (continue_ (.int (-v) :: stack) f.locals)
    | .inc n d, stack => do
      let v ← f.locals[n]?.join
      return continue_ stack (f.locals.set n (some (v + d)))
    | .ifZero c offset, .int v :: stack =>
      some (.running (branch f stack (if c.holds v 0 then offset else length)) callers output)
    | .ifCompare c offset, .int b :: .int a :: stack =>
      some (.running (branch f stack (if c.holds a b then offset else length)) callers output)
    | .goto offset, stack => some (.running (branch f stack offset) callers output)
    | .ireturn, .int v :: _ =>
      some (resume (some (narrow (returnType f.method.descriptor) v)) callers output)
    | .return, _ => some (resume none callers output)
    | .getstatic _, stack => some (continue_ (.printStream :: stack) f.locals)
    | .invokevirtual _, .int v :: .printStream :: stack =>
      some (.running ⟨f.method, f.pc + length, stack, f.locals⟩ callers (output ++ [v]))
    | .invokestatic index, stack => do
      let m ← resolve this cls index
      let (args, stack) ← popInts (parameters m.descriptor).length stack
      return .running (invoke m args) ({ f with stack := stack } :: callers) output
    | _, _ => none

inductive VType where
  | int
  | printStream
  deriving DecidableEq

structure FrameType where
  stack : List VType
  locals : List Bool

/-- A frame of type `t` may be used where one of type `t'` is expected. -/
def FrameType.Assignable (t t' : FrameType) : Prop :=
  t.stack = t'.stack ∧ t.locals.length = t'.locals.length ∧
    ∀ n : Nat, t'.locals[n]? = some true → t.locals[n]? = some true

/-- The field `System.out`. -/
def IsSystemOut (cls : ClassFile) (index : Nat) : Prop :=
  ∃ c nt s n d, getConstant cls index = some (.fieldref c nt) ∧
    getConstant cls c = some (.class s) ∧ getUtf8 cls s = some "java/lang/System" ∧
    getConstant cls nt = some (.nameAndType n d) ∧ getUtf8 cls n = some "out" ∧
    getUtf8 cls d = some "Ljava/io/PrintStream;"

/-- The method `PrintStream.println(I)V`. -/
def IsPrintln (cls : ClassFile) (index : Nat) : Prop :=
  ∃ c nt s n d, getConstant cls index = some (.methodref c nt) ∧
    getConstant cls c = some (.class s) ∧ getUtf8 cls s = some "java/io/PrintStream" ∧
    getConstant cls nt = some (.nameAndType n d) ∧ getUtf8 cls n = some "println" ∧
    getUtf8 cls d = some "(I)V"

structure IntSignature (descriptor : String) : Prop where
  parse : descriptor.toList = '(' :: parameters descriptor ++ ')' :: returnType descriptor
  params : ∀ c ∈ parameters descriptor, c ∈ intTypes
  result : returnType descriptor = ['V'] ∨ ∃ c ∈ intTypes, returnType descriptor = [c]

inductive InstructionStart (code : List UInt8) : Nat → Prop where
  | zero : InstructionStart code 0
  | next {pc length : Nat} {i : Instruction} : InstructionStart code pc →
      decode code pc = some (i, length) → InstructionStart code (pc + length)

section
variable (this : String) (cls : ClassFile) (m : Method) (types : Nat → Option FrameType)

/-- Control may go on at `pc` with a frame of type `t`. -/
def Flows (pc : Nat) (t : FrameType) : Prop := ∃ t', types pc = some t' ∧ t.Assignable t'

def FlowsTo (pc : Int) (t : FrameType) : Prop := ∃ k : Nat, pc = k ∧ Flows types k t

def Pops (t : FrameType) (operands rest : List VType) : Prop := t.stack = operands ++ rest

/-- The rule for each instruction at `pc`, whose frame has type `t`. -/
def Checks (pc : Nat) (t : FrameType) : Prop :=
  match decode m.code pc with
  | none => False
  | some (i, length) =>
    match i with
    | .const _ => Flows types (pc + length) ⟨.int :: t.stack, t.locals⟩
    | .ldc index => (∃ v, getConstant cls index = some (.integer v)) ∧
        Flows types (pc + length) ⟨.int :: t.stack, t.locals⟩
    | .load n => t.locals[n]? = some true ∧
        Flows types (pc + length) ⟨.int :: t.stack, t.locals⟩
    | .store n => n < t.locals.length ∧ ∃ k, Pops t [.int] k ∧
        Flows types (pc + length) ⟨k, t.locals.set n true⟩
    | .arith _ => ∃ k, Pops t [.int, .int] k ∧ Flows types (pc + length) ⟨.int :: k, t.locals⟩
    | .neg => ∃ k, Pops t [.int] k ∧ Flows types (pc + length) ⟨.int :: k, t.locals⟩
    | .inc n _ => t.locals[n]? = some true ∧ Flows types (pc + length) t
    | .ifZero _ offset => ∃ k, Pops t [.int] k ∧ Flows types (pc + length) ⟨k, t.locals⟩ ∧
        FlowsTo types (pc + offset) ⟨k, t.locals⟩
    | .ifCompare _ offset => ∃ k, Pops t [.int, .int] k ∧
        Flows types (pc + length) ⟨k, t.locals⟩ ∧ FlowsTo types (pc + offset) ⟨k, t.locals⟩
    | .goto offset => FlowsTo types (pc + offset) t
    | .ireturn => (∃ k, Pops t [.int] k) ∧ ∃ c ∈ intTypes, returnType m.descriptor = [c]
    | .return => returnType m.descriptor = ['V']
    | .getstatic index => IsSystemOut cls index ∧
        Flows types (pc + length) ⟨.printStream :: t.stack, t.locals⟩
    | .invokevirtual index => IsPrintln cls index ∧ ∃ k, Pops t [.int, .printStream] k ∧
        Flows types (pc + length) ⟨k, t.locals⟩
    | .invokestatic index => ∃ callee k, resolve this cls index = some callee ∧
        callee.name ≠ "<init>" ∧ IntSignature callee.descriptor ∧
        Pops t (List.replicate (parameters callee.descriptor).length .int) k ∧
        Flows types (pc + length)
          ⟨if returnType callee.descriptor = ['V'] then k else .int :: k, t.locals⟩

/-- The descriptor of `main`, whose parameter is no int. -/
def mainDescriptor : String := "([Ljava/lang/String;)V"

/-- Which locals hold an int when they start with these parameters, read inside an array type
or in the name of a class. -/
def parameterLocals : Bool → Bool → List Char → List Bool
  | _, _, [] => []
  | _, true, ';' :: l => false :: parameterLocals false false l
  | array, true, _ :: l => parameterLocals array true l
  | _, false, '[' :: l => parameterLocals true false l
  | array, false, 'L' :: l => parameterLocals array true l
  | true, false, _ :: l => false :: parameterLocals false false l
  | false, false, c :: l =>
    if c = 'J' ∨ c = 'D' then false :: false :: parameterLocals false false l
    else decide (c ∈ intTypes) :: parameterLocals false false l

/-- The locals of the arguments, where the array that `main` gets is left out. -/
def argumentLocals (m : Method) : List Bool :=
  if m.descriptor = mainDescriptor then []
  else parameterLocals false false (parameters m.descriptor)

/-- `types` is a correct assignment of types to the instructions of `m`. -/
structure Typed : Prop where
  size : m.code.length < 65536
  arguments : (argumentLocals m).length ≤ m.maxLocals ∧ m.maxLocals < 65536
  entry : Flows types 0
    ⟨[], argumentLocals m ++ List.replicate (m.maxLocals - (argumentLocals m).length) false⟩
  starts : ∀ pc t, types pc = some t → InstructionStart m.code pc
  bounded : ∀ pc t, types pc = some t →
    t.stack.length ≤ m.maxStack ∧ t.locals.length = m.maxLocals
  checks : ∀ pc t, types pc = some t → Checks this cls m types pc t

end

/-- Every method that is not a constructor passes type checking. -/
def WellTyped (this : String) (cls : ClassFile) : Prop :=
  ∀ m ∈ cls.methods, m.name ≠ "<init>" → ∃ types, Typed this cls m types

/-- The next instruction divides by zero, or the least int by -1. -/
def dividesBadly : State Value → Bool
  | .returned _ _ => false
  | .running f _ _ =>
    match decode f.method.code f.pc, f.stack with
    | some (.arith .div, _), .int b :: .int a :: _
    | some (.arith .rem, _), .int b :: .int a :: _ => b == 0 || a == Int32.minValue && b == -1
    | _, _ => false

/-- An `ireturn` that is next returns a value in the range of the return type. -/
def returnsInRange : State Value → Bool
  | .returned _ _ => true
  | .running f _ _ =>
    match decode f.method.code f.pc, f.stack with
    | some (.ireturn, _), .int v :: _ => narrow (returnType f.method.descriptor) v == v
    | _, _ => true

end CS24.TeenyJvm.Jvm
