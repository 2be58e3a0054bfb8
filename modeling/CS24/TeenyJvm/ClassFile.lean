import CS24.Machine.Transition

/-!
# Class files

The parsed class file of `class_file.h` and the functions of `read_class.c` that
look things up in it. A failed assertion, and a null method, is `none`. A `char *` is
a `String` with one character, below 256, for each byte.
-/

namespace CS24.TeenyJvm

/-- `cp_info`, by `cp_tag_t`. -/
inductive CpInfo where
  | utf8 (value : String)
  | integer (bytes : Int32)
  | class (stringIndex : Nat)
  | fieldref (classIndex nameAndTypeIndex : Nat)
  | methodref (classIndex nameAndTypeIndex : Nat)
  | nameAndType (nameIndex descriptorIndex : Nat)
  deriving DecidableEq

/-- `method_t` with its `code_t`; the length of the list is `code_length`. -/
structure Method where
  name : String
  descriptor : String
  maxStack : Nat
  maxLocals : Nat
  code : List UInt8
  deriving DecidableEq

structure ClassFile where
  constantPool : List CpInfo
  methods : List Method

/-- `jvm_instruction_t` -/
inductive JvmInstruction where
  | iconst_m1 | iconst_0 | iconst_1 | iconst_2 | iconst_3 | iconst_4 | iconst_5
  | bipush | sipush | ldc
  | iload | iload_0 | iload_1 | iload_2 | iload_3
  | istore | istore_0 | istore_1 | istore_2 | istore_3
  | iadd | isub | imul | idiv | irem | ineg | iinc
  | ifeq | ifne | iflt | ifge | ifgt | ifle
  | if_icmpeq | if_icmpne | if_icmplt | if_icmpge | if_icmpgt | if_icmple
  | goto | ireturn | return | getstatic | invokevirtual | invokestatic
  deriving DecidableEq

def JvmInstruction.opcodes : List (UInt8 × JvmInstruction) :=
  [(0x2, .iconst_m1), (0x3, .iconst_0), (0x4, .iconst_1), (0x5, .iconst_2), (0x6, .iconst_3),
    (0x7, .iconst_4), (0x8, .iconst_5), (0x10, .bipush), (0x11, .sipush), (0x12, .ldc),
    (0x15, .iload), (0x1a, .iload_0), (0x1b, .iload_1), (0x1c, .iload_2), (0x1d, .iload_3),
    (0x36, .istore), (0x3b, .istore_0), (0x3c, .istore_1), (0x3d, .istore_2), (0x3e, .istore_3),
    (0x60, .iadd), (0x64, .isub), (0x68, .imul), (0x6c, .idiv), (0x70, .irem), (0x74, .ineg),
    (0x84, .iinc), (0x99, .ifeq), (0x9a, .ifne), (0x9b, .iflt), (0x9c, .ifge), (0x9d, .ifgt),
    (0x9e, .ifle), (0x9f, .if_icmpeq), (0xa0, .if_icmpne), (0xa1, .if_icmplt), (0xa2, .if_icmpge),
    (0xa3, .if_icmpgt), (0xa4, .if_icmple), (0xa7, .goto), (0xac, .ireturn), (0xb1, .return),
    (0xb2, .getstatic), (0xb6, .invokevirtual), (0xb8, .invokestatic)]

def JvmInstruction.opcode (i : JvmInstruction) : UInt8 :=
  ((opcodes.map Prod.swap).lookup i).getD 0

def JvmInstruction.ofByte (b : UInt8) : Option JvmInstruction := opcodes.lookup b

def getConstant (cls : ClassFile) (index : Nat) : Option CpInfo :=
  if 0 < index ∧ index ≤ cls.constantPool.length then cls.constantPool[index - 1]? else none

def getMethodNameAndType (cls : ClassFile) (index : Nat) : Option (Nat × Nat) :=
  match getConstant cls index with
  | some (.methodref _ nameAndTypeIndex) =>
    match getConstant cls nameAndTypeIndex with
    | some (.nameAndType nameIndex descriptorIndex) => some (nameIndex, descriptorIndex)
    | _ => none
  | _ => none

def getUtf8 (cls : ClassFile) (index : Nat) : Option String :=
  match getConstant cls index with
  | some (.utf8 value) => some value
  | _ => none

/-- `strlen(method->descriptor) - 3` as a `uint16_t`. -/
def getNumberOfParameters (m : Method) : Nat := (m.descriptor.length + 2 ^ 16 - 3) % 2 ^ 16

def findMethod (name descriptor : String) (cls : ClassFile) : Option Method :=
  cls.methods.find? fun m => m.name == name && m.descriptor == descriptor

def findMethodFromIndex (index : Nat) (cls : ClassFile) : Option Method := do
  let (nameIndex, descriptorIndex) ← getMethodNameAndType cls index
  let name ← getUtf8 cls nameIndex
  let descriptor ← getUtf8 cls descriptorIndex
  findMethod name descriptor cls

/-- A method that is running: the entries of its operand stack, the top one first,
and its locals, of which those not yet assigned are `none`. -/
structure Frame (α : Type) where
  method : Method
  pc : Nat
  stack : List α
  locals : List (Option Int32)

/-- A run in the middle, with the frames of the callers, or at its end. -/
inductive State (α : Type) where
  | running (frame : Frame α) (callers : List (Frame α)) (output : List Int32)
  | returned (value : Option Int32) (output : List Int32)

end CS24.TeenyJvm
