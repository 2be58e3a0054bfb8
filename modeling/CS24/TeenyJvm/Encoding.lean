import CS24.TeenyJvm.ReadClass

/-!
# The class-file format

The byte encoding of a class with its constant pool and its methods, and that `get_class`
decodes it. A class is built with the proofs that its parts fit the fields that count them
and that its indices name strings.
-/

namespace CS24.TeenyJvm
open Machine

def u2Bytes (n : Nat) : List UInt8 := [UInt8.ofNat (n / 2 ^ 8), UInt8.ofNat n]

def u4Bytes (n : Nat) : List UInt8 := u2Bytes (n / 2 ^ 16) ++ u2Bytes (n % 2 ^ 16)

def stringBytes (s : String) : List UInt8 := s.toList.map fun c => UInt8.ofNat c.toNat

section
variable {n : Nat} {s name : String} {pool : List CpInfo} {p : Prop} [Decidable p]
  {message : String}

theorem decodes_readU1 (b : UInt8) : Decodes readU1 [b] b := by
  apply (Decodes.fgetc b).bind_nil
  exact Decodes.pure b

theorem decodes_readU2 (h : n < 2 ^ 16) : Decodes readU2 (u2Bytes n) n := by
  apply (decodes_readU1 (UInt8.ofNat (n / 2 ^ 8))).bind
  have hhigh : (UInt8.ofNat (n / 2 ^ 8)).toNat = n / 2 ^ 8 := by
    rw [UInt8.toNat_ofNat', Nat.mod_eq_of_lt (by omega)]
  have hn : (UInt8.ofNat (n / 2 ^ 8)).toNat <<< 8 ||| (UInt8.ofNat n).toNat = n := by
    rw [hhigh, UInt8.toNat_ofNat',
      ← Nat.shiftLeft_add_eq_or_of_lt (show n % 2 ^ 8 < 2 ^ 8 by omega), Nat.shiftLeft_eq]
    omega
  have hread := (decodes_readU1 (UInt8.ofNat n)).bind_pure
    (g := fun low => (UInt8.ofNat (n / 2 ^ 8)).toNat <<< 8 ||| low.toNat)
  rw [hn] at hread
  exact hread

theorem decodes_readU4 (h : n < 2 ^ 32) : Decodes readU4 (u4Bytes n) n := by
  apply (decodes_readU2 (n := n / 2 ^ 16) (by omega)).bind
  have hn : (n / 2 ^ 16) <<< 16 ||| n % 2 ^ 16 = n := by
    rw [← Nat.shiftLeft_add_eq_or_of_lt (show n % 2 ^ 16 < 2 ^ 16 by omega), Nat.shiftLeft_eq]
    omega
  have hread := (decodes_readU2 (n := n % 2 ^ 16) (by omega)).bind_pure
    (g := fun low => (n / 2 ^ 16) <<< 16 ||| low)
  rw [hn] at hread
  exact hread

theorem decodes_assert (h : p) : Decodes (assert p message) [] () := by
  rw [assert, if_pos h]
  exact Decodes.pure ()

theorem decodes_readUtf8 (h : getUtf8 ⟨pool, []⟩ n = some s) :
    Decodes (readUtf8 pool n) [] s := by
  unfold getUtf8 at h
  split at h
  · rename_i value hconstant
    obtain rfl := Option.some.inj h
    rw [readUtf8, hconstant]
    exact Decodes.pure value
  · cases h

theorem cString_stringBytes (h : ∀ c ∈ s.toList, c.toNat < 2 ^ 8 ∧ c ≠ '\x00') :
    cString (stringBytes s) = s := by
  have hbyte : ∀ c ∈ s.toList, (UInt8.ofNat c.toNat).toNat = c.toNat := by
    intro c hc
    rw [UInt8.toNat_ofNat', Nat.mod_eq_of_lt (h c hc).1]
  have hzero : ∀ b ∈ stringBytes s, (decide (b ≠ 0)) = true := by
    intro b hb
    obtain ⟨c, hc, rfl⟩ := List.mem_map.mp hb
    apply decide_eq_true
    intro h0
    have hc0 := hbyte c hc
    rw [h0] at hc0
    apply (h c hc).2
    apply Char.toNat_inj.mp
    exact hc0.symm
  have hchars : (stringBytes s).map (fun b => Char.ofNat b.toNat) = s.toList := by
    rw [stringBytes, List.map_map]
    calc s.toList.map _
      _ = s.toList.map id := by
        apply List.map_congr_left
        intro c hc
        rw [Function.comp_apply, hbyte c hc, Char.ofNat_toNat, id]
      _ = s.toList := List.map_id _
  rw [cString, List.takeWhile_eq_self_iff.mpr hzero, hchars, String.ofList_toList]

end

def CpInfo.Encodable : CpInfo → Prop
  | .utf8 value => value.length < 2 ^ 16 ∧ ∀ c ∈ value.toList, c.toNat < 2 ^ 8 ∧ c ≠ '\x00'
  | .integer _ => True
  | .class stringIndex => stringIndex < 2 ^ 16
  | .fieldref a b | .methodref a b | .nameAndType a b => a < 2 ^ 16 ∧ b < 2 ^ 16

instance : DecidablePred CpInfo.Encodable
  | .utf8 value =>
    @instDecidableAnd (value.length < 2 ^ 16) _ inferInstance (List.decidableBAll _ value.toList)
  | .integer _ => inferInstanceAs (Decidable True)
  | .class stringIndex => inferInstanceAs (Decidable (stringIndex < 2 ^ 16))
  | .fieldref a b | .methodref a b | .nameAndType a b =>
    inferInstanceAs (Decidable (a < 2 ^ 16 ∧ b < 2 ^ 16))

def CpInfo.encode : CpInfo → List UInt8
  | .utf8 value => [1] ++ (u2Bytes value.length ++ stringBytes value)
  | .integer bytes => [3] ++ u4Bytes bytes.toUInt32.toNat
  | .class stringIndex => [7] ++ u2Bytes stringIndex
  | .fieldref classIndex nameAndTypeIndex =>
    [9] ++ (u2Bytes classIndex ++ u2Bytes nameAndTypeIndex)
  | .methodref classIndex nameAndTypeIndex =>
    [10] ++ (u2Bytes classIndex ++ u2Bytes nameAndTypeIndex)
  | .nameAndType nameIndex descriptorIndex =>
    [12] ++ (u2Bytes nameIndex ++ u2Bytes descriptorIndex)

theorem decodes_readConstant {c : CpInfo} (h : c.Encodable) :
    Decodes readConstant c.encode c := by
  cases c with
  | utf8 value =>
    obtain ⟨hlength, hchars⟩ := h
    apply (decodes_readU1 1).bind
    apply (decodes_readU2 hlength).bind
    have hbytes : (stringBytes value).length = value.length := by
      rw [stringBytes, List.length_map, String.length_toList]
    have hread : Decodes (ε := ReadError) (fread value.length) (stringBytes value)
        (stringBytes value) := hbytes ▸ Decodes.fread (stringBytes value)
    apply hread.bind_nil
    apply (decodes_assert hbytes).nil_bind
    rw [cString_stringBytes hchars]
    exact Decodes.pure (CpInfo.utf8 value)
  | integer bytes =>
    apply (decodes_readU1 3).bind
    have hread := (decodes_readU4 bytes.toUInt32.toNat_lt).bind_pure
      (g := fun n => CpInfo.integer (Int32.ofNat n))
    have hbytes : Int32.ofNat bytes.toUInt32.toNat = bytes := by
      rw [← Int32.toNat_toBitVec, Int32.ofNat_bitVecToNat, Int32.ofBitVec_toBitVec]
    rw [hbytes] at hread
    exact hread
  | «class» stringIndex =>
    apply (decodes_readU1 7).bind
    exact (decodes_readU2 h).bind_pure
  | fieldref classIndex nameAndTypeIndex =>
    apply (decodes_readU1 9).bind
    apply (decodes_readU2 h.1).bind
    exact (decodes_readU2 h.2).bind_pure
  | methodref classIndex nameAndTypeIndex =>
    apply (decodes_readU1 10).bind
    apply (decodes_readU2 h.1).bind
    exact (decodes_readU2 h.2).bind_pure
  | nameAndType nameIndex descriptorIndex =>
    apply (decodes_readU1 12).bind
    apply (decodes_readU2 h.1).bind
    exact (decodes_readU2 h.2).bind_pure

structure ConstantPool where
  constants : List CpInfo
  nonempty : constants ≠ []
  length_le : constants.length ≤ 65534
  encodable : ∀ c ∈ constants, c.Encodable

namespace ConstantPool
variable (pool : ConstantPool)

def encode : List UInt8 :=
  u2Bytes (pool.constants.length + 1) ++ pool.constants.flatMap CpInfo.encode

def string (index : Nat) : Option String := getUtf8 ⟨pool.constants, []⟩ index

theorem decodes : Decodes getConstantPool pool.encode pool.constants := by
  have hle := pool.length_le
  apply (decodes_readU2 (by omega)).bind
  have hcount : (pool.constants.length + 1 + 2 ^ 16 - 1) % 2 ^ 16 = pool.constants.length := by
    omega
  rw [hcount]
  have htimes := Decodes.times pool.constants id
    fun c hc => decodes_readConstant (pool.encodable c hc)
  rwa [List.map_id] at htimes

variable {pool} {index : Nat} {s : String}

theorem index_lt (h : pool.string index = some s) : index < 2 ^ 16 := by
  have hle := pool.length_le
  by_contra hge
  have hout : ¬(0 < index ∧ index ≤ pool.constants.length) := by omega
  rw [string, getUtf8, getConstant, if_neg hout] at h
  cases h

end ConstantPool

structure Attribute (pool : ConstantPool) where
  nameIndex : Nat
  name : String
  name_eq : pool.string nameIndex = some name
  name_ne : name ≠ "Code"
  info : List UInt8
  length_lt : info.length < 2 ^ 32

structure CodeAttribute (pool : ConstantPool) where
  nameIndex : Nat
  name_eq : pool.string nameIndex = some "Code"
  maxStack : UInt16
  maxLocals : UInt16
  code : List UInt8
  rest : List UInt8
  length_lt : 8 + code.length + rest.length < 2 ^ 32

section
variable {pool : ConstantPool} {foundCode : Option Code}

def Attribute.encode (a : Attribute pool) : List UInt8 :=
  u2Bytes a.nameIndex ++ (u4Bytes a.info.length ++ a.info)

theorem Attribute.decodes (a : Attribute pool) :
    Decodes (readMethodAttribute pool.constants foundCode) a.encode foundCode := by
  apply (decodes_readU2 (ConstantPool.index_lt a.name_eq)).bind
  apply (decodes_readU4 a.length_lt).bind
  apply Decodes.skip_all
  apply (decodes_readUtf8 a.name_eq).nil_bind
  rw [if_neg a.name_ne]
  exact Decodes.pure foundCode

namespace CodeAttribute
variable (a : CodeAttribute pool)

def header : List UInt8 :=
  u2Bytes a.maxStack.toNat ++ (u2Bytes a.maxLocals.toNat ++ (u4Bytes a.code.length ++ a.code))

def encode : List UInt8 :=
  u2Bytes a.nameIndex ++ (u4Bytes (a.header ++ a.rest).length ++ (a.header ++ a.rest))

def value : Code := ⟨a.maxStack.toNat, a.maxLocals.toNat, a.code⟩

theorem header_length : a.header.length = 8 + a.code.length := by
  simp only [header, u2Bytes, u4Bytes, List.length_append, List.length_cons, List.length_nil]
  omega

theorem decodes_header : Decodes readCode a.header a.value := by
  have hlt := a.length_lt
  apply (decodes_readU2 a.maxStack.toNat_lt).bind
  apply (decodes_readU2 a.maxLocals.toNat_lt).bind
  apply (decodes_readU4 (by omega)).bind
  apply (Decodes.fread a.code).bind_nil
  apply (decodes_assert rfl).nil_bind
  exact Decodes.pure a.value

theorem decodes : Decodes (readMethodAttribute pool.constants none) a.encode (some a.value) := by
  have hlt := a.length_lt
  apply (decodes_readU2 (ConstantPool.index_lt a.name_eq)).bind
  apply (decodes_readU4 (by rw [List.length_append, a.header_length]; omega)).bind
  refine Decodes.skip ?_ rfl
  apply (decodes_readUtf8 a.name_eq).nil_bind
  rw [if_pos rfl]
  apply (decodes_assert rfl).nil_bind
  exact a.decodes_header.bind_pure

end CodeAttribute

end

structure MethodInfo (pool : ConstantPool) where
  accessFlags : UInt16
  nameIndex : Nat
  descriptorIndex : Nat
  name : String
  descriptor : String
  name_eq : pool.string nameIndex = some name
  descriptor_eq : pool.string descriptorIndex = some descriptor
  static : name = "<init>" ∨ accessFlags.toNat &&& isStatic ≠ 0
  before : List (Attribute pool)
  code : CodeAttribute pool
  after : List (Attribute pool)
  attributes_lt : before.length + (1 + after.length) < 2 ^ 16

namespace MethodInfo
variable {pool : ConstantPool} (m : MethodInfo pool)

def encodeAttributes : List UInt8 :=
  m.before.flatMap Attribute.encode ++ (m.code.encode ++ m.after.flatMap Attribute.encode)

def encode : List UInt8 :=
  u2Bytes m.accessFlags.toNat ++ (u2Bytes m.nameIndex ++ (u2Bytes m.descriptorIndex ++
    (u2Bytes (m.before.length + (1 + m.after.length)) ++ m.encodeAttributes)))

def method : Method :=
  ⟨m.name, m.descriptor, m.code.maxStack.toNat, m.code.maxLocals.toNat, m.code.code⟩

theorem decodes_attributes :
    Decodes (readMethodAttributes (m.before.length + (1 + m.after.length)) pool.constants)
      m.encodeAttributes m.code.value := by
  have hloop : Decodes (loop (readMethodAttribute pool.constants)
      (m.before.length + (1 + m.after.length)) none) m.encodeAttributes (some m.code.value) := by
    apply (Decodes.loop_skip m.before fun a _ => a.decodes).loop_append
    rw [Nat.add_comm]
    apply m.code.decodes.loop_cons
    exact Decodes.loop_skip m.after fun a _ => a.decodes
  apply hloop.bind_nil
  exact Decodes.pure m.code.value

theorem decodes : Decodes (getMethod pool.constants) m.encode m.method := by
  apply (decodes_readU2 m.accessFlags.toNat_lt).bind
  apply (decodes_readU2 (ConstantPool.index_lt m.name_eq)).bind
  apply (decodes_readU2 (ConstantPool.index_lt m.descriptor_eq)).bind
  apply (decodes_readU2 m.attributes_lt).bind
  apply (decodes_readUtf8 m.name_eq).nil_bind
  apply (decodes_readUtf8 m.descriptor_eq).nil_bind
  apply (decodes_assert m.static).nil_bind
  exact m.decodes_attributes.bind_pure

end MethodInfo

/-- A class without interfaces and fields. -/
structure ClassDescription where
  magic : UInt32
  minorVersion : UInt16
  majorVersion : UInt16
  pool : ConstantPool
  accessFlags : UInt16
  thisClass : UInt16
  superClass : UInt16
  methods : List (MethodInfo pool)
  methods_lt : methods.length < 2 ^ 16

namespace ClassDescription
variable (c : ClassDescription)

def encodeHeader : List UInt8 :=
  u4Bytes c.magic.toNat ++ (u2Bytes c.minorVersion.toNat ++ u2Bytes c.majorVersion.toNat)

def encodeInfo : List UInt8 :=
  u2Bytes c.accessFlags.toNat ++ (u2Bytes c.thisClass.toNat ++ (u2Bytes c.superClass.toNat ++
    (u2Bytes 0 ++ u2Bytes 0)))

def encodeMethods : List UInt8 := u2Bytes c.methods.length ++ c.methods.flatMap MethodInfo.encode

/-- The class file up to the attributes of the class. -/
def encode : List UInt8 :=
  c.encodeHeader ++ (c.pool.encode ++ (c.encodeInfo ++ c.encodeMethods))

def classFile : ClassFile := ⟨c.pool.constants, c.methods.map MethodInfo.method⟩

theorem decodes_header : Decodes getClassHeader c.encodeHeader
    ⟨c.magic.toNat, c.minorVersion.toNat, c.majorVersion.toNat⟩ := by
  apply (decodes_readU4 c.magic.toNat_lt).bind
  apply (decodes_readU2 c.minorVersion.toNat_lt).bind
  exact (decodes_readU2 c.majorVersion.toNat_lt).bind_pure

theorem decodes_info : Decodes getClassInfo c.encodeInfo
    ⟨c.accessFlags.toNat, c.thisClass.toNat, c.superClass.toNat⟩ := by
  apply (decodes_readU2 c.accessFlags.toNat_lt).bind
  apply (decodes_readU2 c.thisClass.toNat_lt).bind
  apply (decodes_readU2 c.superClass.toNat_lt).bind
  apply (decodes_readU2 (n := 0) (by decide)).bind
  apply (decodes_assert rfl).nil_bind
  apply (decodes_readU2 (n := 0) (by decide)).bind_nil
  apply (decodes_assert rfl).nil_bind
  exact Decodes.pure _

theorem decodes_methods :
    Decodes (getMethods c.pool.constants) c.encodeMethods (c.methods.map MethodInfo.method) := by
  apply (decodes_readU2 c.methods_lt).bind
  exact Decodes.times c.methods MethodInfo.method fun m _ => m.decodes

theorem decodes : Decodes getClass c.encode c.classFile := by
  apply c.decodes_header.bind
  apply c.pool.decodes.bind
  apply c.decodes_info.bind
  exact c.decodes_methods.bind_pure

/-- `get_class` returns the class that a file encodes, and stops after its methods. -/
theorem getClass_encode (after : List UInt8) :
    getClass (c.encode ++ after) 0 = .ok (c.classFile, c.encode.length) :=
  c.decodes.start after

end ClassDescription

end CS24.TeenyJvm
