import CS24.TeenyJvm.ClassFile

/-!
# The interpreter

`execute` of `jvm.c`, one iteration of its loop at a time. A recursive call of
`execute` is a frame on the list of callers. `pc` is a `size_t`. A step is `none`
when the C code reads or writes outside an array, reads a local that was not
assigned, fails an assertion or traps at a division.
-/

namespace CS24.TeenyJvm

def add (a b : Int32) : Option Int32 := some (a + b)
def subtract (a b : Int32) : Option Int32 := some (a - b)
def multiply (a b : Int32) : Option Int32 := some (a * b)
def divide (a b : Int32) : Option Int32 :=
  if b = 0 ∨ a = Int32.minValue ∧ b = -1 then none else some (a / b)
def remain (a b : Int32) : Option Int32 :=
  if b = 0 ∨ a = Int32.minValue ∧ b = -1 then none else some (a % b)

def arithmetic : List (Int32 → Int32 → Option Int32) := [add, subtract, multiply, divide, remain]

def eq (a b : Int32) : Bool := a == b
def ne (a b : Int32) : Bool := a != b
def lt (a b : Int32) : Bool := decide (a < b)
def ge (a b : Int32) : Bool := decide (b ≤ a)
def gt (a b : Int32) : Bool := decide (b < a)
def le (a b : Int32) : Bool := decide (a ≤ b)

def compare : List (Int32 → Int32 → Bool) := [eq, ne, lt, ge, gt, le]

def constOffset : Int := 0x3
def loadOffset : Nat := 0x1a
def storeOffset : Nat := 0x3b
def arithmeticOffset : Nat := 0x60
def jumpZeroOffset : Nat := 0x99
def jumpOffset : Nat := 0x9f

namespace Frame

/-- `method->code.code[pc + k]` -/
def byte (f : Frame Int32) (k : Nat) : Option UInt8 := f.method.code[f.pc + k]?

/-- `pc += k` -/
def skip (f : Frame Int32) (k : Nat) : Frame Int32 := { f with pc := (f.pc + k) % 2 ^ 64 }

/-- `stack[size++] = v` -/
def push (f : Frame Int32) (v : Int32) : Option (Frame Int32) :=
  if f.stack.length < f.method.maxStack then some { f with stack := v :: f.stack } else none

/-- `stack[--size]` -/
def pop (f : Frame Int32) : Option (Int32 × Frame Int32) :=
  match f.stack with
  | [] => none
  | v :: stack => some (v, { f with stack := stack })

def load (f : Frame Int32) (n : Nat) : Option Int32 := f.locals[n]?.join

def store (f : Frame Int32) (n : Nat) (v : Int32) : Option (Frame Int32) :=
  if n < f.locals.length then some { f with locals := f.locals.set n (some v) } else none

end Frame

/-- The unsigned 16-bit operand after the opcode: `code[pc + 1] << 8 | code[pc + 2]`. -/
def operand16 (f : Frame Int32) : Option Nat := do
  let high ← f.byte 1
  let low ← f.byte 2
  return high.toNat <<< 8 ||| low.toNat

/-- A `uint16_t` as an `int16_t`. -/
def int16 (n : Nat) : Int := (n : Int).bmod (2 ^ 16)

def conditionalJump (condition : Bool) (f : Frame Int32) : Option (Frame Int32) :=
  if condition then do
    let n ← operand16 f
    return { f with pc := ((f.pc + int16 n - 1) % 2 ^ 64).toNat }
  else some (f.skip 2)

/-- `locals_new[params - 1 - i] = stack[--size]` for the `params` arguments. -/
def transferArguments : Nat → List Int32 → List (Option Int32) →
    Option (List Int32 × List (Option Int32))
  | 0, stack, localsNew => some (stack, localsNew)
  | params + 1, v :: stack, localsNew =>
    if params < localsNew.length then
      transferArguments params stack (localsNew.set params (some v))
    else none
  | _ + 1, [], _ => none

/-- How the `switch` ends: at `pc++`, also after a `printf`, in a call of `execute`, or
in a `return`. -/
inductive Outcome where
  | next (f : Frame Int32)
  | printed (v : Int32) (f : Frame Int32)
  | called (callee caller : Frame Int32)
  | left (v : Int32)

def switch (cls : ClassFile) (f : Frame Int32) (op : UInt8) : Option Outcome :=
  match JvmInstruction.ofByte op with
  | none | some .return => some (.next f)
  | some .iconst_m1 | some .iconst_0 | some .iconst_1 | some .iconst_2 | some .iconst_3
  | some .iconst_4 | some .iconst_5 =>
    (f.push (Int32.ofInt (op.toNat - constOffset))).map .next
  | some .bipush => do
    let b ← f.byte 1
    (f.skip 1 |>.push b.toInt8.toInt32).map .next
  | some .sipush => do
    let high ← f.byte 1
    let low ← f.byte 2
    let v := Int32.ofInt (int16 (high.toNat <<< 8)) ||| Int32.ofInt (int16 low.toNat)
    (f.push v).map fun f => .next (f.skip 2)
  | some .ldc => do
    let b ← f.byte 1
    match getConstant cls b.toNat with
    | some (.integer bytes) => (f.skip 1 |>.push bytes).map .next
    | _ => none
  | some .iload => do
    let b ← f.byte 1
    let v ← f.load b.toNat
    (f.skip 1 |>.push v).map .next
  | some .iload_0 | some .iload_1 | some .iload_2 | some .iload_3 => do
    let v ← f.load (op.toNat - loadOffset)
    (f.push v).map .next
  | some .istore => do
    let b ← f.byte 1
    let (v, f) ← f.pop
    (f.skip 1 |>.store b.toNat v).map .next
  | some .istore_0 | some .istore_1 | some .istore_2 | some .istore_3 => do
    let (v, f) ← f.pop
    (f.store (op.toNat - storeOffset) v).map .next
  | some .iadd | some .isub | some .imul | some .idiv | some .irem =>
    match f.stack, arithmetic[(op.toNat - arithmeticOffset) / 4]? with
    | b :: a :: stack, some g => do
      let v ← g a b
      return .next { f with stack := v :: stack }
    | _, _ => none
  | some .ineg =>
    match f.stack with
    | v :: stack => some (.next { f with stack := v * -1 :: stack })
    | [] => none
  | some .iinc => do
    let n ← f.byte 1
    let by' ← f.byte 2
    let v ← f.load n.toNat
    (f.store n.toNat (v + by'.toInt8.toInt32)).map fun f => .next (f.skip 2)
  | some .ifeq | some .ifne | some .iflt | some .ifge | some .ifgt | some .ifle =>
    match f.stack, compare[op.toNat - jumpZeroOffset]? with
    | v :: stack, some g => (conditionalJump (g v 0) { f with stack := stack }).map .next
    | _, _ => none
  | some .if_icmpeq | some .if_icmpne | some .if_icmplt | some .if_icmpge | some .if_icmpgt
  | some .if_icmple =>
    match f.stack, compare[op.toNat - jumpOffset]? with
    | b :: a :: stack, some g =>
      (conditionalJump (g a b) f).map fun f => .next { f with stack := stack }
    | _, _ => none
  | some .goto => (conditionalJump true f).map .next
  | some .ireturn => do
    let (v, _) ← f.pop
    return .left v
  | some .getstatic => some (.next (f.skip 2))
  | some .invokevirtual => do
    let (v, f) ← f.pop
    return .printed v (f.skip 2)
  | some .invokestatic => do
    let index ← operand16 f
    let nextMethod ← findMethodFromIndex index cls
    let (stack, localsNew) ← transferArguments (getNumberOfParameters nextMethod) f.stack
      (List.replicate nextMethod.maxLocals none)
    return .called ⟨nextMethod, 0, [], localsNew⟩ { f with stack := stack }

/-- The caller goes on after `execute` returned: it pushes a value that is not null. -/
def resume (value : Option Int32) (callers : List (Frame Int32)) (output : List Int32) :
    Option (State Int32) :=
  match callers, value with
  | [], _ => some (.returned value output)
  | f :: callers, none => some (.running ((f.skip 2).skip 1) callers output)
  | f :: callers, some v => (f.skip 2 |>.push v).map fun f => .running (f.skip 1) callers output

def Outcome.finish (callers : List (Frame Int32)) (output : List Int32) :
    Outcome → Option (State Int32)
  | .next f => some (.running (f.skip 1) callers output)
  | .printed v f => some (.running (f.skip 1) callers (output ++ [v]))
  | .called callee caller => some (.running callee (caller :: callers) output)
  | .left v => resume (some v) callers output

def execute (cls : ClassFile) : State Int32 → Option (State Int32)
  | .returned _ _ => none
  | .running f callers output => do
    let op ← f.byte 0
    if JvmInstruction.ofByte op = some .return then resume none callers output
    else (switch cls f op).bind (Outcome.finish callers output)

end CS24.TeenyJvm
