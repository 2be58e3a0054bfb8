import CS24.TeenyJvm.Execute
import CS24.TeenyJvm.Specification

/-!
# The switch, instruction by instruction

For an opcode of the enumeration whose operands lie in the code, an iteration of
`execute` does what the decoded instruction says: the offsets and tables indexed by
the opcode pick the right operation, the operands are extended correctly, and the
`pc++` after the `switch` lands on the next instruction.
-/

namespace CS24.TeenyJvm
open Jvm

variable {cls : ClassFile} {f : Frame Int32} {callers : List (Frame Int32)}
  {output : List Int32} {i : Instruction} {length k n : Nat} {b high low : UInt8} {offset : Int}

theorem operand_eq_u2 (high low : UInt8) : high.toNat <<< 8 ||| low.toNat = u2 high low := by
  rw [← Nat.shiftLeft_add_eq_or_of_lt (show low.toNat < 2 ^ 8 from low.toNat_lt), Nat.shiftLeft_eq]
  rfl

theorem int16_u2 (high low : UInt8) : int16 (u2 high low) = s2 high low := by
  have hh := high.toNat_lt
  have hl := low.toNat_lt
  unfold int16 s2 u2 Int.bmod
  simp only
  split_ifs <;> omega

theorem toInt8_eq_s1 (b : UInt8) : b.toInt8.toInt32 = Int32.ofInt (s1 b) := by
  have h : ∀ v : BitVec 8, (UInt8.ofBitVec v).toInt8.toInt32 =
      Int32.ofInt (s1 (UInt8.ofBitVec v)) := by decide +kernel
  exact h b.toBitVec

theorem or_low_byte (a low : Nat) (hl : low < 2 ^ 8) : a * 256 ||| low = a * 256 + low := by
  have h := Nat.shiftLeft_add_eq_or_of_lt hl a
  rw [Nat.shiftLeft_eq] at h
  exact h.symm

theorem sipush_eq_s2 (high low : UInt8) :
    Int32.ofInt (int16 (high.toNat <<< 8)) ||| Int32.ofInt (int16 low.toNat) =
      Int32.ofInt (s2 high low) := by
  have hh := high.toNat_lt
  have hl : low.toNat < 2 ^ 8 := low.toNat_lt
  have hlow : int16 low.toNat = low.toNat := Int.bmod_eq_of_le (by omega) (by omega)
  refine Int32.toBitVec_inj.mp (BitVec.eq_of_toNat_eq ?_)
  rw [Int32.toBitVec_or, BitVec.toNat_or, Int32.toBitVec_ofInt, Int32.toBitVec_ofInt,
    Int32.toBitVec_ofInt, BitVec.toNat_ofInt, BitVec.toNat_ofInt, BitVec.toNat_ofInt, hlow,
    Nat.shiftLeft_eq]
  have hlowNat : ((low.toNat : Int) % (2 ^ 32 : Nat)).toNat = low.toNat := by omega
  rw [hlowNat]
  by_cases hneg : high.toNat < 128
  · have hhigh : (int16 (high.toNat * 2 ^ 8) % (2 ^ 32 : Nat)).toNat = high.toNat * 256 := by
      have h16 : int16 (high.toNat * 2 ^ 8) = high.toNat * 256 :=
        Int.bmod_eq_of_le (by omega) (by omega)
      omega
    rw [hhigh, or_low_byte _ _ hl]
    unfold s2 u2
    omega
  · have hhigh : (int16 (high.toNat * 2 ^ 8) % (2 ^ 32 : Nat)).toNat =
        (2 ^ 24 - 2 ^ 8 + high.toNat) * 256 := by
      have h16 : int16 (high.toNat * 2 ^ 8) = high.toNat * 256 - 2 ^ 16 := by
        unfold int16 Int.bmod
        simp only
        split_ifs <;> omega
      omega
    rw [hhigh, or_low_byte _ _ hl]
    unfold s2 u2
    omega

def opFunction : ArithOp → Int32 → Int32 → Option Int32
  | .add => add
  | .sub => subtract
  | .mul => multiply
  | .div => divide
  | .rem => remain

/-- The value of `pc` after a taken jump and `pc++`. -/
def jumpTarget (pc : Nat) (offset : Int) : Nat :=
  (((pc + offset - 1) % 2 ^ 64).toNat + 1) % 2 ^ 64

def interpret (cls : ClassFile) (f : Frame Int32) (callers : List (Frame Int32))
    (output : List Int32) (i : Instruction) (length : Nat) : Option (State Int32) :=
  let goOn (stack : List Int32) (locals : List (Option Int32)) : Option (State Int32) :=
    some (.running ⟨f.method, f.pc + length, stack, locals⟩ callers output)
  let push (v : Int32) : Option (State Int32) :=
    if f.stack.length < f.method.maxStack then goOn (v :: f.stack) f.locals else none
  let jump (condition : Bool) (stack : List Int32) (offset : Int) : Option (State Int32) :=
    let pc := if condition then jumpTarget f.pc offset else f.pc + length
    some (.running ⟨f.method, pc, stack, f.locals⟩ callers output)
  match i, f.stack with
  | .const v, _ => push v
  | .ldc index, _ =>
    match getConstant cls index with
    | some (.integer bytes) => push bytes
    | _ => none
  | .load n, _ => f.locals[n]?.join.bind push
  | .store n, v :: stack =>
    if n < f.locals.length then goOn stack (f.locals.set n (some v)) else none
  | .arith op, b :: a :: stack => (opFunction op a b).bind fun v => goOn (v :: stack) f.locals
  | .neg, v :: stack => goOn (-v :: stack) f.locals
  | .inc n d, stack => f.locals[n]?.join.bind fun v => goOn stack (f.locals.set n (some (v + d)))
  | .ifZero c offset, v :: stack => jump (c.holds v 0) stack offset
  | .ifCompare c offset, b :: a :: stack => jump (c.holds a b) stack offset
  | .goto offset, stack => jump true stack offset
  | .ireturn, v :: _ => resume (some v) callers output
  | .return, _ => resume none callers output
  | .getstatic _, stack => goOn stack f.locals
  | .invokevirtual _, v :: stack =>
    some (.running ⟨f.method, f.pc + length, stack, f.locals⟩ callers (output ++ [v]))
  | .invokestatic index, _ => do
    let callee ← findMethodFromIndex index cls
    let (stack, locals) ← transferArguments (getNumberOfParameters callee) f.stack
      (List.replicate callee.maxLocals none)
    return .running ⟨callee, 0, [], locals⟩ ({ f with stack := stack } :: callers) output
  | _, _ => none

theorem opcode_of_ofByte {op : UInt8} {j : JvmInstruction} (h : JvmInstruction.ofByte op = some j) :
    op = j.opcode := by
  obtain ⟨l₁, l₂, hl, -⟩ := List.lookup_eq_some_iff.mp h
  have hmem : (op, j) ∈ JvmInstruction.opcodes := by
    rw [hl]
    simp
  have hall : ∀ p ∈ JvmInstruction.opcodes, p.1 = p.2.opcode := by decide
  exact hall _ hmem

theorem skip_eq (h : f.pc + k < 2 ^ 64) : f.skip k = { f with pc := f.pc + k } := by
  rw [Frame.skip, Nat.mod_eq_of_lt h]

theorem finish_skip {g : Frame Int32} (hpc : g.pc + k + 1 < 2 ^ 64) :
    Outcome.finish callers output (.next (g.skip k)) =
      some (.running { g with pc := g.pc + (k + 1) } callers output) := by
  rw [skip_eq (by omega), Outcome.finish, skip_eq hpc]
  rfl

theorem finish_next {g : Frame Int32} (hpc : g.pc + 1 < 2 ^ 64) :
    Outcome.finish callers output (.next g) =
      some (.running { g with pc := g.pc + 1 } callers output) := by
  rw [Outcome.finish, skip_eq hpc]

theorem push_finish (hpc : f.pc + k + 1 < 2 ^ 64) (v : Int32) :
    ((f.skip k |>.push v).map Outcome.next).bind (Outcome.finish callers output) =
      if f.stack.length < f.method.maxStack then
        some (.running ⟨f.method, f.pc + (k + 1), v :: f.stack, f.locals⟩ callers output)
      else none := by
  rw [skip_eq (by omega)]
  unfold Frame.push
  split_ifs with hroom
  · exact finish_next hpc
  · rfl

theorem push_finish_zero (hpc : f.pc + 1 < 2 ^ 64) (v : Int32) :
    ((f.push v).map Outcome.next).bind (Outcome.finish callers output) =
      if f.stack.length < f.method.maxStack then
        some (.running ⟨f.method, f.pc + 1, v :: f.stack, f.locals⟩ callers output)
      else none := by
  have h : ((f.skip 0 |>.push v).map Outcome.next).bind (Outcome.finish callers output) = _ :=
    push_finish hpc v
  rwa [skip_eq (by omega)] at h

theorem store_finish {g : Frame Int32} (hpc : g.pc + 1 < 2 ^ 64) (v : Int32) :
    ((g.store n v).map Outcome.next).bind (Outcome.finish callers output) =
      if n < g.locals.length then
        some (.running ⟨g.method, g.pc + 1, g.stack, g.locals.set n (some v)⟩ callers output)
      else none := by
  unfold Frame.store
  split_ifs with hroom
  · exact finish_next hpc
  · rfl

theorem push_skip_finish (hpc : f.pc + k + 1 < 2 ^ 64) (v : Int32) :
    ((f.push v).map fun f => Outcome.next (f.skip k)).bind (Outcome.finish callers output) =
      if f.stack.length < f.method.maxStack then
        some (.running ⟨f.method, f.pc + (k + 1), v :: f.stack, f.locals⟩ callers output)
      else none := by
  unfold Frame.push
  split_ifs with hroom
  · exact finish_skip hpc
  · rfl

theorem operand16_eq (h : u2At f.method.code (f.pc + 1) = some n) : operand16 f = some n := by
  obtain ⟨high, hhigh, h⟩ := Option.bind_eq_some_iff.mp h
  obtain ⟨low, hlow, h⟩ := Option.bind_eq_some_iff.mp h
  obtain rfl := Option.some.inj h
  change (f.method.code[f.pc + 1]?).bind _ = _
  rw [hhigh, Option.bind_some]
  change (f.method.code[f.pc + 1 + 1]?).bind _ = _
  rw [hlow, Option.bind_some, operand_eq_u2]
  rfl

theorem s2At_eq {code : List UInt8} {pc : Nat} (h : s2At code pc = some offset) :
    ∃ n, u2At code pc = some n ∧ int16 n = offset := by
  obtain ⟨high, hhigh, h⟩ := Option.bind_eq_some_iff.mp h
  obtain ⟨low, hlow, h⟩ := Option.bind_eq_some_iff.mp h
  obtain rfl := Option.some.inj h
  exact ⟨u2 high low, by simp [u2At, hhigh, hlow], int16_u2 high low⟩

theorem conditionalJump_eq (condition : Bool) (hpc : f.pc + 3 < 2 ^ 64)
    (hoff : s2At f.method.code (f.pc + 1) = some offset) :
    ∃ pc, conditionalJump condition f = some { f with pc := pc } ∧
      (pc + 1) % 2 ^ 64 = if condition then jumpTarget f.pc offset else f.pc + 3 := by
  obtain ⟨n, hn, rfl⟩ := s2At_eq hoff
  cases condition with
  | true =>
    refine ⟨((f.pc + int16 n - 1) % 2 ^ 64).toNat, ?_, by rw [if_pos rfl, jumpTarget]⟩
    rw [conditionalJump, if_pos rfl, operand16_eq hn]
    rfl
  | false =>
    refine ⟨f.pc + 2, ?_, Nat.mod_eq_of_lt (by omega)⟩
    rw [conditionalJump, if_neg Bool.false_ne_true, skip_eq (by omega)]

theorem jump_finish {condition : Bool} (hpc : f.pc + 3 < 2 ^ 64)
    (hoff : s2At f.method.code (f.pc + 1) = some offset) :
    ((conditionalJump condition f).map Outcome.next).bind (Outcome.finish callers output) =
      some (.running ⟨f.method, if condition then jumpTarget f.pc offset else f.pc + 3, f.stack,
        f.locals⟩ callers output) := by
  obtain ⟨pc, hjump, hnext⟩ := conditionalJump_eq condition hpc hoff
  rw [hjump, Option.map_some, Option.bind_some, Outcome.finish, Frame.skip]
  simp only [hnext]

theorem compare_finish {condition : Bool} {stack : List Int32} (hpc : f.pc + 3 < 2 ^ 64)
    (hoff : s2At f.method.code (f.pc + 1) = some offset) :
    ((conditionalJump condition f).map fun f => Outcome.next { f with stack := stack }).bind
        (Outcome.finish callers output) =
      some (.running ⟨f.method, if condition then jumpTarget f.pc offset else f.pc + 3, stack,
        f.locals⟩ callers output) := by
  obtain ⟨pc, hjump, hnext⟩ := conditionalJump_eq condition hpc hoff
  rw [hjump, Option.map_some, Option.bind_some, Outcome.finish, Frame.skip]
  simp only [hnext]

theorem arith_finish {m : Method} {pc : Nat} {a b : Int32} {stack : List Int32}
    {locals : List (Option Int32)} {op : ArithOp} {j : JvmInstruction} (hpc : pc + 1 < 2 ^ 64)
    (hswitch : switch cls ⟨m, pc, b :: a :: stack, locals⟩ j.opcode =
      (opFunction op a b).bind fun v => some (.next ⟨m, pc, v :: stack, locals⟩)) :
    (switch cls ⟨m, pc, b :: a :: stack, locals⟩ j.opcode).bind (Outcome.finish callers output) =
      interpret cls ⟨m, pc, b :: a :: stack, locals⟩ callers output (.arith op) 1 := by
  rw [hswitch, Option.bind_assoc]
  exact congrArg _ (funext fun v => finish_next (g := ⟨m, pc, v :: stack, locals⟩) hpc)

theorem switch_eq_interpret {j : JvmInstruction} (hpc : f.pc + 3 < 2 ^ 64) (hne : j ≠ .return)
    (h : decodeOperands f.method.code f.pc j = some (i, length)) :
    (switch cls f j.opcode).bind (Outcome.finish callers output) =
      interpret cls f callers output i length := by
  cases j with
  | iconst_m1 | iconst_0 | iconst_1 | iconst_2 | iconst_3 | iconst_4 | iconst_5 =>
    obtain ⟨rfl, rfl⟩ := Prod.mk.inj (Option.some.inj h)
    exact push_finish_zero (by omega) _
  | bipush =>
    obtain ⟨_, hs, h⟩ := Option.bind_eq_some_iff.mp h
    obtain ⟨b, hb, rfl⟩ := Option.map_eq_some_iff.mp hs
    obtain ⟨rfl, rfl⟩ := Prod.mk.inj (Option.some.inj h)
    change ((f.method.code[f.pc + 1]?).bind _).bind _ = _
    rw [hb, Option.bind_some, toInt8_eq_s1]
    exact push_finish (by omega) _
  | sipush =>
    obtain ⟨_, hs, h⟩ := Option.bind_eq_some_iff.mp h
    obtain ⟨rfl, rfl⟩ := Prod.mk.inj (Option.some.inj h)
    obtain ⟨high, hhigh, hs⟩ := Option.bind_eq_some_iff.mp hs
    obtain ⟨low, hlow, hs⟩ := Option.bind_eq_some_iff.mp hs
    obtain rfl := Option.some.inj hs
    change ((f.method.code[f.pc + 1]?).bind _).bind _ = _
    rw [hhigh, Option.bind_some]
    change ((f.method.code[f.pc + 1 + 1]?).bind _).bind _ = _
    rw [hlow, Option.bind_some, sipush_eq_s2]
    exact push_skip_finish (by omega) _
  | ldc =>
    obtain ⟨_, hs, h⟩ := Option.bind_eq_some_iff.mp h
    obtain ⟨b, hb, rfl⟩ := Option.map_eq_some_iff.mp hs
    obtain ⟨rfl, rfl⟩ := Prod.mk.inj (Option.some.inj h)
    change ((f.method.code[f.pc + 1]?).bind _).bind _ = _
    rw [hb, Option.bind_some]
    simp only [interpret]
    rcases getConstant cls b.toNat with _ | c
    · rfl
    · cases c with
      | integer v => exact push_finish (by omega) v
      | _ => rfl
  | iload =>
    obtain ⟨_, hs, h⟩ := Option.bind_eq_some_iff.mp h
    obtain ⟨b, hb, rfl⟩ := Option.map_eq_some_iff.mp hs
    obtain ⟨rfl, rfl⟩ := Prod.mk.inj (Option.some.inj h)
    change ((f.method.code[f.pc + 1]?).bind _).bind _ = (Option.join _).bind _
    rw [hb, Option.bind_some]
    change ((Option.join _).bind _).bind _ = (Option.join _).bind _
    rw [Option.bind_assoc]
    exact congrArg _ (funext fun v => push_finish (by omega) v)
  | iload_0 | iload_1 | iload_2 | iload_3 =>
    obtain ⟨rfl, rfl⟩ := Prod.mk.inj (Option.some.inj h)
    change ((Option.join _).bind _).bind _ = (Option.join _).bind _
    rw [Option.bind_assoc]
    exact congrArg _ (funext fun v => push_finish_zero (by omega) v)
  | istore =>
    obtain ⟨_, hs, h⟩ := Option.bind_eq_some_iff.mp h
    obtain ⟨b, hb, rfl⟩ := Option.map_eq_some_iff.mp hs
    obtain ⟨rfl, rfl⟩ := Prod.mk.inj (Option.some.inj h)
    change ((f.method.code[f.pc + 1]?).bind _).bind _ = _
    rw [hb, Option.bind_some]
    obtain ⟨m, pc, stack, locals⟩ := f
    cases stack with
    | nil => rfl
    | cons v stack =>
      change (((Frame.skip ⟨m, pc, stack, locals⟩ 1).store b.toNat v).map Outcome.next).bind _ = _
      rw [skip_eq (by dsimp at hpc ⊢; omega)]
      exact store_finish (g := ⟨m, pc + 1, stack, locals⟩) (by dsimp at hpc ⊢; omega) v
  | istore_0 | istore_1 | istore_2 | istore_3 =>
    obtain ⟨rfl, rfl⟩ := Prod.mk.inj (Option.some.inj h)
    obtain ⟨m, pc, stack, locals⟩ := f
    cases stack with
    | nil => rfl
    | cons v stack => exact store_finish (g := ⟨m, pc, stack, locals⟩) (by dsimp at hpc ⊢; omega) v
  | iadd | isub | imul | idiv | irem =>
    obtain ⟨rfl, rfl⟩ := Prod.mk.inj (Option.some.inj h)
    obtain ⟨m, pc, stack, locals⟩ := f
    rcases stack with _ | ⟨b, _ | ⟨a, stack⟩⟩
    · rfl
    · rfl
    · exact arith_finish (by dsimp at hpc; omega) rfl
  | ineg =>
    obtain ⟨rfl, rfl⟩ := Prod.mk.inj (Option.some.inj h)
    obtain ⟨m, pc, stack, locals⟩ := f
    cases stack with
    | nil => rfl
    | cons v stack =>
      have hneg : v * -1 = -v := by rw [Int32.mul_neg, Int32.mul_one]
      change Outcome.finish callers output (.next ⟨m, pc, v * -1 :: stack, locals⟩) = _
      rw [hneg]
      exact finish_next (by dsimp at hpc ⊢; omega)
  | iinc =>
    obtain ⟨_, hs, h⟩ := Option.bind_eq_some_iff.mp h
    obtain ⟨_, hd, h⟩ := Option.bind_eq_some_iff.mp h
    obtain ⟨n, hn, rfl⟩ := Option.map_eq_some_iff.mp hs
    obtain ⟨d, hd', rfl⟩ := Option.map_eq_some_iff.mp hd
    obtain ⟨rfl, rfl⟩ := Prod.mk.inj (Option.some.inj h)
    change ((f.method.code[f.pc + 1]?).bind _).bind _ = (Option.join _).bind _
    rw [hn, Option.bind_some]
    change ((f.method.code[f.pc + 2]?).bind _).bind _ = (Option.join _).bind _
    rw [hd', Option.bind_some]
    change ((Option.join _).bind _).bind _ = (Option.join _).bind _
    rw [Option.bind_assoc]
    refine Option.bind_congr fun v hv => ?_
    have hlen : n.toNat < f.locals.length := by
      by_contra hlen
      rw [List.getElem?_eq_none (by omega)] at hv
      cases hv
    rw [Frame.store, if_pos hlen, toInt8_eq_s1]
    exact finish_skip (g := { f with locals := f.locals.set n.toNat _ }) hpc
  | ifeq | ifne | iflt | ifge | ifgt | ifle =>
    obtain ⟨_, hs, h⟩ := Option.bind_eq_some_iff.mp h
    obtain ⟨rfl, rfl⟩ := Prod.mk.inj (Option.some.inj h)
    obtain ⟨m, pc, stack, locals⟩ := f
    cases stack with
    | nil => rfl
    | cons v stack => exact jump_finish (f := ⟨m, pc, stack, locals⟩) hpc hs
  | if_icmpeq | if_icmpne | if_icmplt | if_icmpge | if_icmpgt | if_icmple =>
    obtain ⟨_, hs, h⟩ := Option.bind_eq_some_iff.mp h
    obtain ⟨rfl, rfl⟩ := Prod.mk.inj (Option.some.inj h)
    obtain ⟨m, pc, stack, locals⟩ := f
    rcases stack with _ | ⟨b, _ | ⟨a, stack⟩⟩
    · rfl
    · rfl
    · exact compare_finish hpc hs
  | goto =>
    obtain ⟨_, hs, h⟩ := Option.bind_eq_some_iff.mp h
    obtain ⟨rfl, rfl⟩ := Prod.mk.inj (Option.some.inj h)
    exact jump_finish hpc hs
  | ireturn =>
    obtain ⟨rfl, rfl⟩ := Prod.mk.inj (Option.some.inj h)
    obtain ⟨m, pc, stack, locals⟩ := f
    cases stack <;> rfl
  | «return» => exact absurd rfl hne
  | getstatic =>
    obtain ⟨_, hs, h⟩ := Option.bind_eq_some_iff.mp h
    obtain ⟨rfl, rfl⟩ := Prod.mk.inj (Option.some.inj h)
    exact finish_skip (by omega)
  | invokevirtual =>
    obtain ⟨_, hs, h⟩ := Option.bind_eq_some_iff.mp h
    obtain ⟨rfl, rfl⟩ := Prod.mk.inj (Option.some.inj h)
    obtain ⟨m, pc, stack, locals⟩ := f
    cases stack with
    | nil => rfl
    | cons v stack =>
      have h : Outcome.finish callers (output ++ [v])
          (.next (Frame.skip ⟨m, pc, stack, locals⟩ 2)) = _ := finish_skip hpc
      exact h
  | invokestatic =>
    obtain ⟨index, hs, h⟩ := Option.bind_eq_some_iff.mp h
    obtain ⟨rfl, rfl⟩ := Prod.mk.inj (Option.some.inj h)
    have hop := operand16_eq hs
    change ((operand16 f).bind _).bind _ = (findMethodFromIndex index cls).bind _
    rw [hop, Option.bind_some]
    change ((findMethodFromIndex index cls).bind _).bind _ = _
    rw [Option.bind_assoc]
    refine congrArg _ (funext fun callee => ?_)
    change ((transferArguments _ _ _).bind _).bind _ = (transferArguments _ _ _).bind _
    rw [Option.bind_assoc]
    rfl

theorem execute_eq_interpret (hpc : f.pc + 3 < 2 ^ 64)
    (h : decode f.method.code f.pc = some (i, length)) :
    execute cls (.running f callers output) = interpret cls f callers output i length := by
  obtain ⟨op, hop, h₁⟩ := Option.bind_eq_some_iff.mp h
  obtain ⟨j, hj, h₂⟩ := Option.bind_eq_some_iff.mp h₁
  have hbyte : f.byte 0 = some op := hop
  obtain rfl := opcode_of_ofByte hj
  by_cases hret : j = .return
  · subst hret
    obtain ⟨rfl, rfl⟩ := Prod.mk.inj (Option.some.inj h₂)
    simp [execute, hbyte, hj, interpret]
  · rw [← switch_eq_interpret hpc hret h₂]
    simp [execute, hbyte, hj, hret]

end CS24.TeenyJvm
