import CS24.TeenyJvm.Encoding
import CS24.TeenyJvm.Execute
import CS24.TeenyJvm.Specification

/-!
# The method that `invokestatic` runs

A `Methodref` names a class besides a name and a descriptor. `find_method_from_index` looks
at the name and the descriptor only, and `execute` does not ask whether a method was found.
A call is right when the class it names is the one in the file and declares the method.
-/

namespace CS24.TeenyJvm
open Machine

/-- The name and the descriptor in a `Methodref`, when no assertion about it fails. -/
def methodRef (cls : ClassFile) (index : Nat) : Option (String × String) := do
  let (nameIndex, descriptorIndex) ← getMethodNameAndType cls index
  let name ← getUtf8 cls nameIndex
  let descriptor ← getUtf8 cls descriptorIndex
  return (name, descriptor)

/-- The name in a `Class` constant. -/
def className (cls : ClassFile) (index : Nat) : Option String :=
  match getConstant cls index with
  | some (.class stringIndex) => getUtf8 cls stringIndex
  | _ => none

/-- The class that a `Methodref` names. -/
def methodRefClass (cls : ClassFile) (index : Nat) : Option String :=
  match getConstant cls index with
  | some (.methodref classIndex _) => className cls classIndex
  | _ => none

/-- `this_class`, which `get_class` reads and drops. -/
def readThisClass : ClassReader Nat := do
  let _ ← getClassHeader
  let _ ← getConstantPool
  let info ← getClassInfo
  return info.thisClass

/-- A file that `get_class` accepts, with the class it returns. -/
structure AcceptedFile where
  bytes : List UInt8
  cls : ClassFile
  stop : Nat
  accepted : getClass bytes 0 = .ok (cls, stop)

/-- The class whose methods the file declares. -/
def AcceptedFile.declaredClass (file : AcceptedFile) : Option String :=
  match readThisClass file.bytes 0 with
  | .ok (index, _) => className file.cls index
  | .error _ => none

/-- A call goes to the method with the name and the descriptor in the class it names. -/
structure InvokesNamed (file : AcceptedFile) (index : Nat) (nextMethod : Method) : Prop where
  notNull : findMethodFromIndex index file.cls = some nextMethod
  named : ∃ this, file.declaredClass = some this ∧
    Jvm.resolve this file.cls index = some nextMethod
  runs : ∀ f callers output s, f.byte 0 = some JvmInstruction.invokestatic.opcode →
    operand16 f = some index → execute file.cls (.running f callers output) = some s →
    ∃ callee caller, s = .running callee (caller :: callers) output ∧ callee.method = nextMethod

section
variable {cls : ClassFile} {index : Nat} {name descriptor this : String}
  {m : Method}

theorem methodRef_eq_some (h : methodRef cls index = some (name, descriptor)) :
    ∃ n d, getMethodNameAndType cls index = some (n, d) ∧ getUtf8 cls n = some name ∧
      getUtf8 cls d = some descriptor := by
  simp only [methodRef, Option.bind_eq_bind, Option.bind_eq_some_iff, Option.pure_def,
    Option.some.injEq] at h
  obtain ⟨⟨n, d⟩, hindices, name', hn, descriptor', hd, hpair⟩ := h
  cases hpair
  exact ⟨n, d, hindices, hn, hd⟩

theorem findMethodFromIndex_eq (h : methodRef cls index = some (name, descriptor)) :
    findMethodFromIndex index cls = findMethod name descriptor cls := by
  obtain ⟨n, d, hindices, hn, hd⟩ := methodRef_eq_some h
  simp only [findMethodFromIndex, hindices, hn, hd, Option.bind_eq_bind, Option.bind_some]

theorem resolve_eq (h : methodRef cls index = some (name, descriptor)) :
    Jvm.resolve this cls index =
      if methodRefClass cls index = some this then findMethod name descriptor cls else none := by
  obtain ⟨n, d, hindices, hn, hd⟩ := methodRef_eq_some h
  unfold getMethodNameAndType at hindices
  split at hindices
  · rename_i classIndex nameAndType hmethod
    split at hindices
    · rename_i hnt
      cases hindices
      simp only [Jvm.resolve, methodRefClass, className, hmethod, hnt]
      cases hclass : getConstant cls classIndex with
      | none => rfl
      | some c =>
        cases c with
        | «class» stringIndex =>
          dsimp only
          rw [hn, hd]
          by_cases howner : getUtf8 cls stringIndex = some this
          · rw [if_pos howner, howner]
            exact if_pos rfl
          · rw [if_neg howner]
            cases hutf8 : getUtf8 cls stringIndex with
            | none => rfl
            | some owner =>
              apply if_neg
              rintro rfl
              exact howner hutf8
        | _ => rfl
    · cases hindices
  · cases hindices

theorem findMethod_eq_some (h : findMethod name descriptor cls = some m) :
    m ∈ cls.methods ∧ m.name = name ∧ m.descriptor = descriptor := by
  have hfound := List.find?_some h
  rw [Bool.and_eq_true, beq_iff_eq, beq_iff_eq] at hfound
  exact ⟨List.mem_of_find?_eq_some h, hfound⟩

theorem findMethod_isSome (hm : m ∈ cls.methods) :
    (findMethod m.name m.descriptor cls).isSome := by
  apply List.find?_isSome.mpr
  refine ⟨m, hm, ?_⟩
  rw [Bool.and_eq_true, beq_iff_eq, beq_iff_eq]
  exact ⟨rfl, rfl⟩

theorem switch_invokestatic (f : Frame Int32) :
    switch cls f JvmInstruction.invokestatic.opcode = (operand16 f).bind fun index =>
      (findMethodFromIndex index cls).bind fun nextMethod =>
        (transferArguments (getNumberOfParameters nextMethod) f.stack
          (List.replicate nextMethod.maxLocals none)).bind fun p =>
            some (.called ⟨nextMethod, 0, [], p.2⟩ { f with stack := p.1 }) := rfl

theorem execute_invokestatic {f : Frame Int32} {callers : List (Frame Int32)}
    {output : List Int32} {s : State Int32}
    (hbyte : f.byte 0 = some JvmInstruction.invokestatic.opcode)
    (hindex : operand16 f = some index) (hfound : findMethodFromIndex index cls = some m)
    (hs : execute cls (.running f callers output) = some s) :
    ∃ callee caller, s = .running callee (caller :: callers) output ∧ callee.method = m := by
  have hexecute : execute cls (.running f callers output) =
      (switch cls f JvmInstruction.invokestatic.opcode).bind (Outcome.finish callers output) := by
    change (f.byte 0).bind _ = _
    rw [hbyte]
    rfl
  rw [hexecute, switch_invokestatic, hindex, Option.bind_some, hfound, Option.bind_some] at hs
  obtain ⟨outcome, hcalled, hfinish⟩ := Option.bind_eq_some_iff.mp hs
  obtain ⟨⟨stack, localsNew⟩, -, hnext⟩ := Option.bind_eq_some_iff.mp hcalled
  cases hnext
  cases hfinish
  exact ⟨_, _, rfl, rfl⟩

end

/-- The call goes right exactly when the file declares the method and the class that the
`Methodref` names. -/
theorem invokestatic_resolves_iff {file : AcceptedFile} {index : Nat} {name descriptor : String}
    (hindex : methodRef file.cls index = some (name, descriptor)) :
    (∃ nextMethod, InvokesNamed file index nextMethod) ↔
      (∃ m ∈ file.cls.methods, m.name = name ∧ m.descriptor = descriptor) ∧
      ∃ this, file.declaredClass = some this ∧ methodRefClass file.cls index = some this := by
  have hfind := findMethodFromIndex_eq hindex
  constructor
  · rintro ⟨m, hm⟩
    obtain ⟨this, hthis, hresolve⟩ := hm.named
    rw [resolve_eq hindex] at hresolve
    split_ifs at hresolve with howner
    obtain ⟨hmem, hname, hdescriptor⟩ := findMethod_eq_some hresolve
    exact ⟨⟨m, hmem, hname, hdescriptor⟩, this, hthis, howner⟩
  · rintro ⟨⟨m, hmem, rfl, rfl⟩, this, hthis, howner⟩
    obtain ⟨nextMethod, hnext⟩ := Option.isSome_iff_exists.mp (findMethod_isSome hmem)
    rw [hnext] at hfind
    have hresolve : Jvm.resolve this file.cls index = some nextMethod := by
      rw [resolve_eq hindex, if_pos howner, hnext]
    exact ⟨nextMethod, hfind, ⟨this, hthis, hresolve⟩,
      fun f callers output s hbyte hop hs => execute_invokestatic hbyte hop hfind hs⟩

def ClassDescription.acceptedFile (c : ClassDescription) (attributes : List UInt8) :
    AcceptedFile :=
  ⟨c.encode ++ attributes, c.classFile, c.encode.length, c.decodes.start attributes⟩

theorem ClassDescription.declaredClass_acceptedFile (c : ClassDescription)
    (attributes : List UInt8) :
    (c.acceptedFile attributes).declaredClass = className c.classFile c.thisClass.toNat := by
  have hread : Decodes readThisClass (c.encodeHeader ++ (c.pool.encode ++ c.encodeInfo))
      c.thisClass.toNat := by
    apply c.decodes_header.bind
    apply c.pool.decodes.bind
    exact c.decodes_info.bind_pure
  have hfile := hread.start (c.encodeMethods ++ attributes)
  have hbytes : c.encodeHeader ++ (c.pool.encode ++ c.encodeInfo) ++
      (c.encodeMethods ++ attributes) = (c.acceptedFile attributes).bytes := by
    simp only [acceptedFile, encode, List.append_assoc]
  rw [hbytes] at hfile
  rw [AcceptedFile.declaredClass, hfile]
  rfl

/-- The class `A` with a method `f` that calls `B.f`. The pool also has the methods `A.f`
and `B.g`. -/
def callerPool : ConstantPool where
  constants := [.utf8 "A", .class 1, .utf8 "B", .class 3, .utf8 "f", .utf8 "()V", .utf8 "Code",
    .nameAndType 5 6, .methodref 2 8, .methodref 4 8, .utf8 "g", .nameAndType 11 6,
    .methodref 4 12]
  nonempty := by decide
  length_le := by decide
  encodable := by decide +kernel

def callerMethod : MethodInfo callerPool where
  accessFlags := 8
  nameIndex := 5
  descriptorIndex := 6
  name := "f"
  descriptor := "()V"
  name_eq := rfl
  descriptor_eq := rfl
  static := by decide
  before := []
  code := ⟨7, rfl, 0, 0, [0xb8, 0, 10, 0xb1], u2Bytes 0 ++ u2Bytes 0, by decide⟩
  after := []
  attributes_lt := by decide

def callerClass : ClassDescription where
  magic := 0xcafebabe
  minorVersion := 0
  majorVersion := 52
  pool := callerPool
  accessFlags := 0x21
  thisClass := 2
  superClass := 4
  methods := [callerMethod]
  methods_lt := by decide

/-- The call of `A.f` goes right. -/
theorem invokestatic_resolves_own :
    ∃ nextMethod, InvokesNamed (callerClass.acceptedFile (u2Bytes 0)) 9 nextMethod :=
  (invokestatic_resolves_iff
    (rfl : methodRef (callerClass.acceptedFile (u2Bytes 0)).cls 9 = some ("f", "()V"))).mpr
      ⟨⟨callerMethod.method, List.mem_singleton_self _, rfl, rfl⟩, "A",
        callerClass.declaredClass_acceptedFile _, rfl⟩

/-- The call of `B.f` runs `A.f`, and for a call of `B.g` there is no method to run. -/
theorem invokestatic_ignores_class :
    (¬ ∀ (file : AcceptedFile) (index : Nat) (name descriptor : String),
      methodRef file.cls index = some (name, descriptor) →
        ∃ nextMethod, InvokesNamed file index nextMethod) ∧
      methodRef callerClass.classFile 13 = some ("g", "()V") ∧
      findMethodFromIndex 13 callerClass.classFile = none := by
  refine ⟨fun h => ?_, rfl, rfl⟩
  obtain ⟨m, hm⟩ := h (callerClass.acceptedFile (u2Bytes 0)) 10 "f" "()V" rfl
  obtain ⟨this, hthis, hresolve⟩ := hm.named
  rw [callerClass.declaredClass_acceptedFile] at hthis
  cases hthis
  cases hresolve

end CS24.TeenyJvm
