import CS24.Machine.FileReader
import CS24.TeenyJvm.ClassFile

/-!
# Reading a class file

`get_class` of `read_class.c` on the bytes of a file. An allocation succeeds, and the
operands of `|` are evaluated from left to right. The array of methods, which ends with a
null name, is a list.
-/

namespace CS24.TeenyJvm
open Machine

/-- How the program stops inside `get_class`. -/
inductive ReadError where
  | assertion (message : String)
  | unknownConstant (tag : Nat)
  deriving DecidableEq

abbrev ClassReader := FileReader ReadError

def assert (p : Prop) [Decidable p] (message : String) : ClassReader Unit :=
  if p then pure () else throw (.assertion message)

def readU1 : ClassReader UInt8 := do
  match ← fgetc with
  | some result => return result
  | none => throw (.assertion "Reached end of file prematurely")

def readU2 : ClassReader Nat := do
  let high ← readU1
  let low ← readU1
  return high.toNat <<< 8 ||| low.toNat

def readU4 : ClassReader Nat := do
  let high ← readU2
  let low ← readU2
  return high <<< 16 ||| low

structure ClassHeader where
  magic : Nat
  majorVersion : Nat
  minorVersion : Nat

structure ClassInfo where
  accessFlags : Nat
  thisClass : Nat
  superClass : Nat

def getClassHeader : ClassReader ClassHeader := do
  let magic ← readU4
  let majorVersion ← readU2
  let minorVersion ← readU2
  return ⟨magic, majorVersion, minorVersion⟩

/-- The string at a `char *`: the bytes before the first `'\0'`. -/
def cString (bytes : List UInt8) : String :=
  String.ofList ((bytes.takeWhile (· ≠ 0)).map fun b => Char.ofNat b.toNat)

/-- One turn of the loop of `get_constant_pool`. -/
def readConstant : ClassReader CpInfo := do
  let tag ← readU1
  match tag.toNat with
  | 1 =>
    let length ← readU2
    let value ← fread length
    assert (value.length = length) "Failed to read UTF8 constant"
    return .utf8 (cString value)
  | 3 =>
    let bytes ← readU4
    return .integer (Int32.ofNat bytes)
  | 7 =>
    let stringIndex ← readU2
    return .class stringIndex
  | 9 =>
    let classIndex ← readU2
    let nameAndTypeIndex ← readU2
    return .fieldref classIndex nameAndTypeIndex
  | 10 =>
    let classIndex ← readU2
    let nameAndTypeIndex ← readU2
    return .methodref classIndex nameAndTypeIndex
  | 12 =>
    let nameIndex ← readU2
    let descriptorIndex ← readU2
    return .nameAndType nameIndex descriptorIndex
  | tag => throw (.unknownConstant tag)

/-- The count in the file includes index 0, and is a `u2` after one is subtracted. -/
def getConstantPool : ClassReader (List CpInfo) := do
  let count ← readU2
  times readConstant ((count + 2 ^ 16 - 1) % 2 ^ 16)

def getClassInfo : ClassReader ClassInfo := do
  let accessFlags ← readU2
  let thisClass ← readU2
  let superClass ← readU2
  let interfacesCount ← readU2
  assert (interfacesCount = 0) "This VM does not support interfaces."
  let fieldsCount ← readU2
  assert (fieldsCount = 0) "This VM does not support fields."
  return ⟨accessFlags, thisClass, superClass⟩

/-- `get_constant` and the assertion that the constant is a string. -/
def readUtf8 (pool : List CpInfo) (index : Nat) : ClassReader String :=
  match getConstant ⟨pool, []⟩ index with
  | none => throw (.assertion "Invalid constant pool index")
  | some (.utf8 value) => return value
  | some _ => throw (.assertion "Expected a UTF8")

/-- `code_t`; the length of the list is `code_length`. -/
structure Code where
  maxStack : Nat
  maxLocals : Nat
  code : List UInt8
  deriving DecidableEq

def readCode : ClassReader Code := do
  let maxStack ← readU2
  let maxLocals ← readU2
  let codeLength ← readU4
  let code ← fread codeLength
  assert (code.length = codeLength) "Failed to read method code"
  return ⟨maxStack, maxLocals, code⟩

def readAttributeInfo (pool : List CpInfo) (attributeNameIndex : Nat) (foundCode : Option Code) :
    ClassReader (Option Code) := do
  let type ← readUtf8 pool attributeNameIndex
  if type = "Code" then
    assert (foundCode = none) "Duplicate method code"
    let code ← readCode
    return some code
  else return foundCode

/-- One turn of the loop of `read_method_attributes`. -/
def readMethodAttribute (pool : List CpInfo) (foundCode : Option Code) :
    ClassReader (Option Code) := do
  let attributeNameIndex ← readU2
  let attributeLength ← readU4
  let start ← ftell
  let foundCode ← readAttributeInfo pool attributeNameIndex foundCode
  fseek (start + attributeLength)
  return foundCode

def readMethodAttributes (attributesCount : Nat) (pool : List CpInfo) : ClassReader Code := do
  let foundCode ← loop (readMethodAttribute pool) attributesCount none
  match foundCode with
  | some code => return code
  | none => throw (.assertion "Missing method code")

def isStatic : Nat := 0x0008

/-- One turn of the loop of `get_methods`. -/
def getMethod (pool : List CpInfo) : ClassReader Method := do
  let accessFlags ← readU2
  let nameIndex ← readU2
  let descriptorIndex ← readU2
  let attributesCount ← readU2
  let name ← readUtf8 pool nameIndex
  let descriptor ← readUtf8 pool descriptorIndex
  assert (name = "<init>" ∨ accessFlags &&& isStatic ≠ 0) "This VM only supports static methods."
  let code ← readMethodAttributes attributesCount pool
  return ⟨name, descriptor, code.maxStack, code.maxLocals, code.code⟩

def getMethods (pool : List CpInfo) : ClassReader (List Method) := do
  let methodCount ← readU2
  times (getMethod pool) methodCount

def getClass : ClassReader ClassFile := do
  let _ ← getClassHeader
  let pool ← getConstantPool
  let _ ← getClassInfo
  let methods ← getMethods pool
  return ⟨pool, methods⟩

end CS24.TeenyJvm
