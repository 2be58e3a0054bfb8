import CS24.TeenyJvm.Decoding

/-!
# TeenyJVM refines the JVM

On a class that passes type checking, the interpreter and the JVM run in lockstep:
the C state is the state of the JVM with the references to `System.out` erased from
the operand stacks. The invariant is that every frame has the types that were
assigned to its program point, and every caller those of the return address.
-/

namespace CS24.TeenyJvm
open Machine Jvm

variable {this : String} {cls : ClassFile} {m callee : Method} {types : Nat → Option FrameType}
  {f : Frame Value} {callers : List (Frame Value)} {output : List Int32} {s s' : State Value}
  {t : FrameType} {stack : List Value} {locals : List (Option Int32)} {k : List VType}
  {bs : List Bool} {pc n length : Nat} {v : Int32}

def Jvm.Value.toInt? : Value → Option Int32
  | .int v => some v
  | .printStream => none

def eraseStack : List Value → List Int32 := List.filterMap Value.toInt?

def eraseFrame (f : Frame Value) : Frame Int32 := ⟨f.method, f.pc, eraseStack f.stack, f.locals⟩

def erase : State Value → State Int32
  | .running f callers output => .running (eraseFrame f) (callers.map eraseFrame) output
  | .returned value output => .returned value output

@[simp] theorem eraseStack_int (v : Int32) (stack : List Value) :
    eraseStack (.int v :: stack) = v :: eraseStack stack := rfl

@[simp] theorem eraseStack_printStream (stack : List Value) :
    eraseStack (.printStream :: stack) = eraseStack stack := rfl

def Jvm.Value.HasType : Value → VType → Prop
  | .int _, .int | .printStream, .printStream => True
  | _, _ => False

def LocalsConform (locals : List (Option Int32)) (bs : List Bool) : Prop :=
  locals.length = bs.length ∧ ∀ n : Nat, bs[n]? = some true → ∃ v, locals[n]? = some (some v)

structure FrameOk (this : String) (cls : ClassFile) (f : Frame Value) : Prop where
  typed : ∃ types t, Typed this cls f.method types ∧ types f.pc = some t ∧
    List.Forall₂ Value.HasType f.stack t.stack ∧ LocalsConform f.locals t.locals

/-- A frame that waits for `callee` to return. -/
def CallerOk (this : String) (cls : ClassFile) (callee : Method) (f : Frame Value) : Prop :=
  ∃ types k bs, Typed this cls f.method types ∧ InstructionStart f.method.code f.pc ∧
    List.Forall₂ Value.HasType f.stack k ∧ LocalsConform f.locals bs ∧
    Flows types (f.pc + 3) ⟨if returnType callee.descriptor = ['V'] then k else .int :: k, bs⟩

def CallersOk (this : String) (cls : ClassFile) : Method → List (Frame Value) → Prop
  | _, [] => True
  | callee, f :: callers => CallerOk this cls callee f ∧ CallersOk this cls f.method callers

def StateOk (this : String) (cls : ClassFile) : State Value → Prop
  | .running f callers _ => FrameOk this cls f ∧ CallersOk this cls f.method callers
  | .returned _ _ => True

theorem forall₂_int_cons (h : List.Forall₂ Value.HasType stack (.int :: k)) :
    ∃ v rest, stack = .int v :: rest ∧ List.Forall₂ Value.HasType rest k := by
  cases h with
  | @cons a _ rest _ ha hrest =>
    cases a with
    | int v => exact ⟨v, rest, rfl, hrest⟩
    | printStream => exact ha.elim

theorem forall₂_printStream_cons (h : List.Forall₂ Value.HasType stack (.printStream :: k)) :
    ∃ rest, stack = .printStream :: rest ∧ List.Forall₂ Value.HasType rest k := by
  cases h with
  | @cons a _ rest _ ha hrest =>
    cases a with
    | int v => exact ha.elim
    | printStream => exact ⟨rest, rfl, hrest⟩

theorem forall₂_ints (n : Nat)
    (h : List.Forall₂ Value.HasType stack (List.replicate n .int ++ k)) :
    ∃ (args : List Int32) (rest : List Value), args.length = n ∧
      stack = args.reverse.map .int ++ rest ∧ List.Forall₂ Value.HasType rest k := by
  induction n generalizing stack with
  | zero => exact ⟨[], stack, rfl, rfl, h⟩
  | succ n ih =>
    obtain ⟨v, rest, rfl, hrest⟩ := forall₂_int_cons h
    obtain ⟨args, rest, hlen, rfl, hrest'⟩ := ih hrest
    exact ⟨args ++ [v], rest, by simp [hlen], by simp, hrest'⟩

theorem LocalsConform.load (h : LocalsConform locals bs) (hn : bs[n]? = some true) :
    ∃ v, locals[n]?.join = some v := by
  obtain ⟨v, hv⟩ := h.2 n hn
  exact ⟨v, by rw [hv]; rfl⟩

theorem LocalsConform.set (h : LocalsConform locals bs) (v : Int32) :
    LocalsConform (locals.set n (some v)) (bs.set n true) := by
  refine ⟨by simp [h.1], fun i hi => ?_⟩
  by_cases hin : n = i
  · subst hin
    have hlen : n < bs.length := by
      by_contra hge
      rw [List.getElem?_eq_none (by simp; omega)] at hi
      cases hi
    exact ⟨v, List.getElem?_set_self (h.1 ▸ hlen)⟩
  · rw [List.getElem?_set_ne hin] at hi ⊢
    exact h.2 i hi

theorem LocalsConform.set_of_true (h : LocalsConform locals bs) (hn : bs[n]? = some true)
    (v : Int32) : LocalsConform (locals.set n (some v)) bs := by
  have hset := h.set (n := n) v
  have heq : bs.set n true = bs := by
    refine List.ext_getElem? fun i => ?_
    by_cases hin : n = i
    · subst hin
      rw [hn, List.getElem?_set_self]
      by_contra hge
      rw [List.getElem?_eq_none (by omega)] at hn
      cases hn
    · rw [List.getElem?_set_ne hin]
  rwa [heq] at hset

theorem eraseStack_length_le (stack : List Value) : (eraseStack stack).length ≤ stack.length :=
  List.length_filterMap_le ..

theorem frameOk_of_flows (ht : Typed this cls m types) (hf : Flows types pc ⟨k, bs⟩)
    (hs : List.Forall₂ Value.HasType stack k) (hl : LocalsConform locals bs) :
    FrameOk this cls ⟨m, pc, stack, locals⟩ := by
  obtain ⟨t', ht', hstack, hlen, hlocals⟩ := hf
  refine ⟨types, t', ht, ht', hstack ▸ hs, hl.1.trans hlen, fun n hn => hl.2 n (hlocals n hn)⟩

theorem Jvm.Flows.room (ht : Typed this cls m types) (hf : Flows types pc ⟨.int :: k, bs⟩)
    (hs : List.Forall₂ Value.HasType stack k) : (eraseStack stack).length < m.maxStack := by
  obtain ⟨t', ht', hstack, -⟩ := hf
  have hle := (ht.bounded pc t' ht').1
  have hlen := hs.length_eq
  have her := eraseStack_length_le stack
  have hstack' : VType.int :: k = t'.stack := hstack
  rw [← hstack', List.length_cons] at hle
  omega

theorem Jvm.Typed.pc_lt (ht : Typed this cls m types) (h : types pc = some t) : pc < 65536 := by
  have hchecks := ht.checks pc t h
  unfold Checks at hchecks
  cases hd : decode m.code pc with
  | none =>
    rw [hd] at hchecks
    exact hchecks.elim
  | some d =>
    obtain ⟨op, hop, -⟩ := Option.bind_eq_some_iff.mp hd
    have hlt := (List.getElem?_eq_some_iff.mp hop).1
    have hsize := ht.size
    omega

theorem Jvm.Flows.pc_lt (ht : Typed this cls m types) (h : Flows types pc t) : pc < 65536 := by
  obtain ⟨t', ht', -⟩ := h
  exact ht.pc_lt ht'

theorem jumpTarget_eq {offset : Int} {target : Nat} (h : (pc + offset : Int) = target)
    (hlt : target < 65536) : jumpTarget pc offset = target := by
  unfold jumpTarget
  rw [h]
  omega

theorem popInts_eq (args : List Int32) (rest : List Value) :
    popInts args.length (args.reverse.map .int ++ rest) = some (args, rest) := by
  induction args using List.reverseRecOn with
  | nil => rfl
  | append_singleton args v ih =>
    rw [List.length_append, List.reverse_append]
    simp only [List.length_singleton, List.reverse_singleton, List.map_cons, List.cons_append,
      List.nil_append, popInts, ih, Option.map_some]

theorem transferArguments_eq (args rest : List Int32) (locals : List (Option Int32))
    (hlen : args.length ≤ locals.length) :
    transferArguments args.length (args.reverse ++ rest) locals =
      some (rest, args.map some ++ locals.drop args.length) := by
  induction args using List.reverseRecOn generalizing locals with
  | nil => rfl
  | append_singleton args v ih =>
    rw [List.length_append, List.length_singleton] at hlen
    rw [List.length_append, List.reverse_append]
    simp only [List.length_singleton, List.reverse_singleton, List.cons_append, List.nil_append,
      transferArguments]
    rw [if_pos (by omega), ih _ (by rw [List.length_set]; omega)]
    have hdrop : (locals.set args.length (some v)).drop args.length =
        some v :: locals.drop (args.length + 1) := by
      rw [List.drop_eq_getElem_cons (by rw [List.length_set]; omega), List.getElem_set_self,
        List.drop_set_of_lt (by omega)]
    rw [hdrop]
    simp

theorem eraseStack_ints (args : List Int32) (rest : List Value) :
    eraseStack (args.map .int ++ rest) = args ++ eraseStack rest := by
  induction args with
  | nil => rfl
  | cons v args ih => exact congrArg (v :: ·) ih

theorem findMethodFromIndex_of_resolve {index : Nat} (h : resolve this cls index = some callee) :
    findMethodFromIndex index cls = some callee ∧ callee ∈ cls.methods := by
  unfold resolve at h
  split at h
  · rename_i hmeth
    split at h
    · rename_i hclass hnt
      split at h
      · rename_i howner hname hdesc
        split_ifs at h
        refine ⟨?_, List.mem_of_find?_eq_some h⟩
        simp [findMethodFromIndex, getMethodNameAndType, hmeth, hnt, hname, hdesc, findMethod, h]
      · cases h
    · cases h
  · cases h

theorem Jvm.IntSignature.returnType_length {d : String} (h : IntSignature d) :
    (returnType d).length = 1 := by
  rcases h.result with hv | ⟨c, -, hr⟩
  · rw [hv, List.length_singleton]
  · rw [hr, List.length_singleton]

theorem numberOfParameters_eq (h : IntSignature callee.descriptor)
    (hlt : (parameters callee.descriptor).length < 2 ^ 16) :
    getNumberOfParameters callee = (parameters callee.descriptor).length := by
  have hreturn := h.returnType_length
  have hlength : callee.descriptor.length = (parameters callee.descriptor).length + 3 := by
    rw [← String.length_toList, congrArg List.length h.parse]
    simp only [List.length_cons, List.length_append, List.cons_append]
    omega
  rw [getNumberOfParameters, hlength]
  omega

theorem parameterLocals_ints {l : List Char} (h : ∀ c ∈ l, c ∈ intTypes) :
    parameterLocals false false l = List.replicate l.length true := by
  induction l with
  | nil => rfl
  | cons c l ih =>
    obtain ⟨hc, hl⟩ := List.forall_mem_cons.mp h
    rw [List.length_cons, List.replicate_succ, ← ih hl]
    simp only [intTypes, List.mem_cons, List.not_mem_nil, or_false] at hc
    rcases hc with rfl | rfl | rfl | rfl | rfl <;> rfl

theorem argumentLocals_eq (h : IntSignature m.descriptor) :
    argumentLocals m = List.replicate (parameters m.descriptor).length true := by
  rw [argumentLocals, if_neg, parameterLocals_ints h.params]
  intro hmain
  have hparams := h.params
  rw [hmain] at hparams
  have hbracket : '[' ∈ intTypes := hparams '[' (by decide)
  revert hbracket
  decide

theorem invoke_ok {args : List Int32} (ht : Typed this cls m types)
    (hargs : argumentLocals m = List.replicate args.length true) :
    FrameOk this cls (invoke m args) := by
  have hentry := ht.entry
  rw [hargs, List.length_replicate] at hentry
  refine frameOk_of_flows ht hentry .nil ⟨by simp [startLocals], fun n hn => ?_⟩
  by_cases hlt : n < args.length
  · refine ⟨args[n], ?_⟩
    rw [startLocals, List.getElem?_append_left (by simpa using hlt)]
    simp [hlt]
  · rw [List.getElem?_append_right (by simp; omega)] at hn
    have hmem := List.mem_of_getElem? hn
    simp at hmem

variable (output) in
theorem resume_ok (hcallers : CallersOk this cls m callers) (value : Option Int32)
    (hvalue : value.isNone ↔ returnType m.descriptor = ['V']) :
    resume value (callers.map eraseFrame) output = some (erase (Jvm.resume value callers output)) ∧
      StateOk this cls (Jvm.resume value callers output) := by
  cases callers with
  | nil => exact ⟨rfl, trivial⟩
  | cons f callers =>
    obtain ⟨⟨types, k, bs, ht, -, hs, hl, hflows⟩, hrest⟩ := hcallers
    have hpc := hflows.pc_lt ht
    have hskip : (eraseFrame f).skip 2 = ⟨f.method, f.pc + 2, eraseStack f.stack, f.locals⟩ :=
      skip_eq (show f.pc + 2 < 2 ^ 64 by omega)
    have hskip' (stack : List Int32) :
        Frame.skip ⟨f.method, f.pc + 2, stack, f.locals⟩ 1 =
          ⟨f.method, f.pc + 3, stack, f.locals⟩ :=
      skip_eq (show f.pc + 2 + 1 < 2 ^ 64 by omega)
    cases value with
    | none =>
      rw [if_pos (hvalue.mp rfl)] at hflows
      refine ⟨?_, frameOk_of_flows ht hflows hs hl, hrest⟩
      rw [List.map_cons, resume, hskip]
      exact congrArg (fun g => some (State.running g _ output)) (hskip' (eraseStack f.stack))
    | some v =>
      rw [if_neg fun hv => Bool.false_ne_true (hvalue.mpr hv)] at hflows
      refine ⟨?_, frameOk_of_flows ht hflows (.cons trivial hs) hl, hrest⟩
      rw [List.map_cons, resume, hskip, Frame.push, if_pos (hflows.room ht hs)]
      exact congrArg (fun g => some (State.running g _ output)) (hskip' (v :: eraseStack f.stack))

def Lockstep (this : String) (cls : ClassFile) (s : State Value) : Prop :=
  ∃ s', step this cls s = some s' ∧ execute cls (erase s) = some (erase s') ∧ StateOk this cls s'

theorem lockstep_of_frame (g : Frame Value) (output' : List Int32)
    (hstep : step this cls (.running f callers output) = some (.running g callers output'))
    (hexec : execute cls (erase (.running f callers output)) =
      some (erase (.running g callers output')))
    (hg : FrameOk this cls g) (hm : g.method = f.method)
    (hcallers : CallersOk this cls f.method callers) :
    Lockstep this cls (.running f callers output) :=
  ⟨_, hstep, hexec, hg, hm ▸ hcallers⟩

theorem opFunction_eq {op : ArithOp} {a b : Int32}
    (hd : decode m.code pc = some (.arith op, length))
    (hdiv : dividesBadly (.running ⟨m, pc, .int b :: .int a :: stack, locals⟩ callers output) =
      false) :
    ∃ v, op.apply a b = some v ∧ opFunction op a b = some v := by
  have hbad : op = .div ∨ op = .rem → ¬(b = 0 ∨ a = Int32.minValue ∧ b = -1) := by
    rintro (rfl | rfl) <;> simpa [dividesBadly, hd] using hdiv
  cases op with
  | add => exact ⟨_, rfl, rfl⟩
  | sub => exact ⟨_, rfl, rfl⟩
  | mul => exact ⟨_, rfl, rfl⟩
  | div =>
    have hb := hbad (.inl rfl)
    exact ⟨a / b, if_neg fun h0 => hb (.inl h0), if_neg hb⟩
  | rem =>
    have hb := hbad (.inr rfl)
    exact ⟨a % b, if_neg fun h0 => hb (.inl h0), if_neg hb⟩

theorem branch_target (ht : Typed this cls m types) {offset : Int} {c : Bool}
    (hnext : Flows types (pc + length) t) (hjump : FlowsTo types (pc + offset) t) :
    ∃ target : Nat, ((pc + if c then offset else length : Int)).toNat = target ∧
      (if c then jumpTarget pc offset else pc + length) = target ∧ Flows types target t := by
  cases c with
  | true =>
    obtain ⟨target, htarget, hflows⟩ := hjump
    refine ⟨target, ?_, jumpTarget_eq htarget (hflows.pc_lt ht), hflows⟩
    rw [if_pos rfl, htarget, Int.toNat_natCast]
  | false =>
    refine ⟨pc + length, ?_, rfl, hnext⟩
    rw [if_neg Bool.false_ne_true, ← Int.natCast_add, Int.toNat_natCast]

theorem decode_invokestatic {code : List UInt8} {index : Nat}
    (h : decode code pc = some (.invokestatic index, length)) : length = 3 := by
  obtain ⟨op, -, h₁⟩ := Option.bind_eq_some_iff.mp h
  obtain ⟨j, -, h₂⟩ := Option.bind_eq_some_iff.mp h₁
  cases j <;> simp [decodeOperands, Option.bind_eq_some_iff] at h₂
  exact h₂.2.symm

theorem call_lockstep (hcls : WellTyped this cls) (ht : Typed this cls m types)
    (hstart : InstructionStart m.code pc) {index : Nat}
    (hcallers : CallersOk this cls m callers)
    (hd : decode m.code pc = some (.invokestatic index, 3))
    (hcallee : resolve this cls index = some callee) (hinit : callee.name ≠ "<init>")
    (hsig : IntSignature callee.descriptor)
    (hstack : List.Forall₂ Value.HasType stack
      (List.replicate (parameters callee.descriptor).length .int ++ k))
    (hlocals : LocalsConform locals bs)
    (hflows : Flows types (pc + 3)
      ⟨if returnType callee.descriptor = ['V'] then k else .int :: k, bs⟩) :
    Lockstep this cls (.running ⟨m, pc, stack, locals⟩ callers output) := by
  obtain ⟨args, rest, hargs, rfl, hrest⟩ := forall₂_ints _ hstack
  obtain ⟨hfind, hmem⟩ := findMethodFromIndex_of_resolve hcallee
  obtain ⟨types', ht'⟩ := hcls callee hmem hinit
  have hint := argumentLocals_eq hsig
  have hmax := ht'.arguments
  rw [hint, List.length_replicate] at hmax
  have hnum := numberOfParameters_eq hsig (by omega)
  refine ⟨.running (invoke callee args) (⟨m, pc, rest, locals⟩ :: callers) output, ?_, ?_,
    invoke_ok ht' (by rw [hint, hargs]), ⟨types, k, bs, ht, hstart, hrest, hlocals, hflows⟩,
    hcallers⟩
  · have hpop := popInts_eq args rest
    rw [hargs] at hpop
    simp only [step, hd, hcallee, hpop, Option.bind_eq_bind, Option.bind_some]
    rfl
  · have hlt := hflows.pc_lt ht
    refine (execute_eq_interpret (f := eraseFrame ⟨m, pc, _, locals⟩)
      (show pc + 3 < 2 ^ 64 by omega) hd).trans ?_
    have htransfer := transferArguments_eq args (eraseStack rest)
      (List.replicate callee.maxLocals none) (by rw [List.length_replicate]; omega)
    rw [List.drop_replicate] at htransfer
    have herase : eraseStack (args.reverse.map .int ++ rest) = args.reverse ++ eraseStack rest :=
      eraseStack_ints _ _
    change (findMethodFromIndex index cls).bind _ = _
    rw [hfind, Option.bind_some]
    change (transferArguments (getNumberOfParameters callee) (eraseStack _) _).bind _ = _
    rw [herase, hnum, ← hargs, htransfer]
    rfl

theorem step_erase (hcls : WellTyped this cls) (hok : StateOk this cls (.running f callers output))
    (hdiv : dividesBadly (.running f callers output) = false)
    (hret : returnsInRange (.running f callers output)) :
    Lockstep this cls (.running f callers output) := by
  obtain ⟨⟨types, t, ht, hpct, hstack, hlocals⟩, hcallers⟩ := hok
  obtain ⟨m, pc, stack, locals⟩ := f
  obtain ⟨k, bs⟩ := t
  have hlt := ht.pc_lt hpct
  have hchecks := ht.checks pc _ hpct
  unfold Checks at hchecks
  cases hd : decode m.code pc with
  | none =>
    rw [hd] at hchecks
    exact hchecks.elim
  | some d =>
    obtain ⟨i, length⟩ := d
    rw [hd] at hchecks
    have hexec : execute cls (erase (.running ⟨m, pc, stack, locals⟩ callers output)) = _ :=
      execute_eq_interpret (show pc + 3 < 2 ^ 64 by dsimp only at hlt; omega) hd
    cases i with
    | const v =>
      have hf : Flows types (pc + length) ⟨.int :: k, bs⟩ := hchecks
      exact lockstep_of_frame ⟨m, pc + length, .int v :: stack, locals⟩ output (by simp [step, hd])
        (hexec.trans (if_pos (hf.room ht hstack)))
        (frameOk_of_flows ht hf (.cons trivial hstack) hlocals) rfl hcallers
    | ldc index =>
      obtain ⟨⟨v, hv⟩, hf⟩ := hchecks
      refine lockstep_of_frame ⟨m, pc + length, .int v :: stack, locals⟩ output
        (by simp [step, hd, hv]) (hexec.trans ?_)
        (frameOk_of_flows ht hf (.cons trivial hstack) hlocals) rfl hcallers
      simp only [interpret, hv]
      exact if_pos (hf.room ht hstack)
    | load n =>
      obtain ⟨hn, hf⟩ := hchecks
      obtain ⟨v, hv⟩ := hlocals.load hn
      refine lockstep_of_frame ⟨m, pc + length, .int v :: stack, locals⟩ output
        (by simp [step, hd, hv]) (hexec.trans ?_)
        (frameOk_of_flows ht hf (.cons trivial hstack) hlocals) rfl hcallers
      change (locals[n]?.join).bind _ = _
      rw [hv]
      exact if_pos (hf.room ht hstack)
    | store n =>
      obtain ⟨hn, k, rfl, hf⟩ := hchecks
      obtain ⟨v, rest, rfl, hrest⟩ := forall₂_int_cons hstack
      have hlen : n < locals.length := hlocals.1 ▸ hn
      exact lockstep_of_frame ⟨m, pc + length, rest, locals.set n (some v)⟩ output
        (by simp [step, hd, hlen]) (hexec.trans (if_pos hlen))
        (frameOk_of_flows ht hf hrest (hlocals.set v)) rfl hcallers
    | arith op =>
      obtain ⟨k, rfl, hf⟩ := hchecks
      obtain ⟨b, rest, rfl, hrest⟩ := forall₂_int_cons hstack
      obtain ⟨a, rest, rfl, hrest₂⟩ := forall₂_int_cons hrest
      obtain ⟨v, happly, hop⟩ := opFunction_eq hd hdiv
      refine lockstep_of_frame ⟨m, pc + length, .int v :: rest, locals⟩ output
        (by simp [step, hd, happly]) (hexec.trans ?_)
        (frameOk_of_flows ht hf (.cons trivial hrest₂) hlocals) rfl hcallers
      change (opFunction op a b).bind _ = _
      rw [hop]
      rfl
    | neg =>
      obtain ⟨k, rfl, hf⟩ := hchecks
      obtain ⟨v, rest, rfl, hrest⟩ := forall₂_int_cons hstack
      exact lockstep_of_frame ⟨m, pc + length, .int (-v) :: rest, locals⟩ output
        (by simp [step, hd]) hexec
        (frameOk_of_flows ht hf (.cons trivial hrest) hlocals) rfl hcallers
    | inc n d =>
      obtain ⟨hn, hf⟩ := hchecks
      obtain ⟨v, hv⟩ := hlocals.load hn
      refine lockstep_of_frame ⟨m, pc + length, stack, locals.set n (some (v + d))⟩ output
        (by simp [step, hd, hv]) (hexec.trans ?_)
        (frameOk_of_flows ht hf hstack (hlocals.set_of_true hn _)) rfl hcallers
      change (locals[n]?.join).bind _ = _
      rw [hv]
      rfl
    | ifZero c offset =>
      obtain ⟨k, rfl, hnext, hjump⟩ := hchecks
      obtain ⟨v, rest, rfl, hrest⟩ := forall₂_int_cons hstack
      obtain ⟨target, hj, hc, hf⟩ := branch_target (c := c.holds v 0) ht hnext hjump
      refine lockstep_of_frame ⟨m, target, rest, locals⟩ output ?_ (hexec.trans ?_)
        (frameOk_of_flows ht hf hrest hlocals) rfl hcallers
      · simp only [step, hd, branch, Option.bind_eq_bind, Option.bind_some, hj]
      · exact congrArg (fun pc => some (State.running ⟨m, pc, eraseStack rest, locals⟩ _ output)) hc
    | ifCompare c offset =>
      obtain ⟨k, rfl, hnext, hjump⟩ := hchecks
      obtain ⟨b, rest, rfl, hrest⟩ := forall₂_int_cons hstack
      obtain ⟨a, rest, rfl, hrest₂⟩ := forall₂_int_cons hrest
      obtain ⟨target, hj, hc, hf⟩ := branch_target (c := c.holds a b) ht hnext hjump
      refine lockstep_of_frame ⟨m, target, rest, locals⟩ output ?_ (hexec.trans ?_)
        (frameOk_of_flows ht hf hrest₂ hlocals) rfl hcallers
      · simp only [step, hd, branch, Option.bind_eq_bind, Option.bind_some, hj]
      · exact congrArg (fun pc => some (State.running ⟨m, pc, eraseStack rest, locals⟩ _ output)) hc
    | goto offset =>
      obtain ⟨target, htarget, hf⟩ : FlowsTo types (pc + offset) ⟨k, bs⟩ := hchecks
      refine lockstep_of_frame ⟨m, target, stack, locals⟩ output ?_ (hexec.trans ?_)
        (frameOk_of_flows ht hf hstack hlocals) rfl hcallers
      · simp only [step, hd, branch, Option.bind_eq_bind, Option.bind_some, htarget,
          Int.toNat_natCast]
      · exact congrArg (fun pc => some (State.running ⟨m, pc, eraseStack stack, locals⟩ _ output))
          (jumpTarget_eq htarget (hf.pc_lt ht))
    | ireturn =>
      obtain ⟨⟨k, rfl⟩, c, hc, hr⟩ := hchecks
      obtain ⟨v, rest, rfl, -⟩ := forall₂_int_cons hstack
      have hnarrow : narrow (returnType m.descriptor) v = v := by
        simpa [returnsInRange, hd] using hret
      have hvoid : returnType m.descriptor ≠ ['V'] := by
        rw [hr]
        rintro hV
        obtain rfl := List.head_eq_of_cons_eq hV
        revert hc
        decide
      obtain ⟨hresume, hok⟩ := resume_ok output hcallers (some v)
        ⟨fun h => (Bool.false_ne_true h).elim, fun h => (hvoid h).elim⟩
      exact ⟨_, by simp [step, hd, hnarrow], hexec.trans hresume, hok⟩
    | «return» =>
      obtain ⟨hresume, hok⟩ := resume_ok output hcallers none
        ⟨fun _ => hchecks, fun _ => rfl⟩
      exact ⟨_, by simp [step, hd], hexec.trans hresume, hok⟩
    | getstatic index =>
      obtain ⟨-, hf⟩ := hchecks
      exact lockstep_of_frame ⟨m, pc + length, .printStream :: stack, locals⟩ output
        (by simp [step, hd]) hexec
        (frameOk_of_flows ht hf (.cons trivial hstack) hlocals) rfl hcallers
    | invokevirtual index =>
      obtain ⟨-, k, rfl, hf⟩ := hchecks
      obtain ⟨v, rest, rfl, hrest⟩ := forall₂_int_cons hstack
      obtain ⟨rest, rfl, hrest₂⟩ := forall₂_printStream_cons hrest
      exact lockstep_of_frame ⟨m, pc + length, rest, locals⟩ (output ++ [v])
        (by simp [step, hd]) hexec
        (frameOk_of_flows ht hf hrest₂ hlocals) rfl hcallers
    | invokestatic index =>
      obtain ⟨callee, k, hcallee, hinit, hsig, rfl, hf⟩ := hchecks
      obtain rfl := decode_invokestatic hd
      exact call_lockstep hcls ht (ht.starts _ _ hpct) hcallers hd hcallee hinit hsig hstack
        hlocals hf

/-- The frame keeps to its arrays, and `pc` is where an instruction starts. -/
structure Frame.Sound (f : Frame Int32) : Prop where
  stack : f.stack.length ≤ f.method.maxStack
  locals : f.locals.length = f.method.maxLocals
  start : InstructionStart f.method.code f.pc

def State.Sound : State Int32 → Prop
  | .running f callers _ => f.Sound ∧ ∀ g ∈ callers, g.Sound
  | .returned _ _ => True

theorem FrameOk.sound (h : FrameOk this cls f) : (eraseFrame f).Sound := by
  obtain ⟨types, t, ht, hpc, hs, hl⟩ := h
  obtain ⟨hstack, hlocals⟩ := ht.bounded _ _ hpc
  exact ⟨(eraseStack_length_le _).trans (hs.length_eq ▸ hstack), hl.1.trans hlocals,
    ht.starts _ _ hpc⟩

theorem CallerOk.sound (h : CallerOk this cls callee f) : (eraseFrame f).Sound := by
  obtain ⟨types, k, bs, ht, hstart, hs, hl, t, hpc, hstack, hlen, -⟩ := h
  obtain ⟨hmax, hlocals⟩ := ht.bounded _ _ hpc
  refine ⟨(eraseStack_length_le _).trans ?_, hl.1.trans (hlen.trans hlocals), hstart⟩
  have hk : k.length ≤ t.stack.length := by
    rw [← hstack]
    dsimp only
    split_ifs <;> simp
  change f.stack.length ≤ f.method.maxStack
  rw [hs.length_eq]
  exact hk.trans hmax

theorem CallersOk.sound (h : CallersOk this cls callee callers) :
    ∀ g ∈ callers.map eraseFrame, g.Sound := by
  induction callers generalizing callee with
  | nil => simp
  | cons f callers ih =>
    simp only [List.map_cons, List.forall_mem_cons]
    exact ⟨h.1.sound, ih h.2⟩

theorem StateOk.sound (h : StateOk this cls s) : (erase s).Sound := by
  cases s with
  | running f callers output => exact ⟨h.1.sound, h.2.sound⟩
  | returned value output => trivial

structure Good (this : String) (cls : ClassFile) (s : State Value) : Prop where
  ok : StateOk this cls s
  division : ∀ s', Steps (step this cls) s s' → dividesBadly s' = false
  inRange : ∀ s', Steps (step this cls) s s' → returnsInRange s'

theorem Good.lockstep (hcls : WellTyped this cls) (h : Good this cls s) :
    (∃ value output, s = .returned value output) ∨ Lockstep this cls s := by
  cases s with
  | returned value output => exact .inl ⟨value, output, rfl⟩
  | running f callers output =>
    exact .inr (step_erase hcls h.ok (h.division _ (.refl _)) (h.inRange _ (.refl _)))

theorem Good.execute_eq (hcls : WellTyped this cls) (h : Good this cls s) :
    execute cls (erase s) = (step this cls s).map erase := by
  rcases h.lockstep hcls with ⟨value, output, rfl⟩ | ⟨s', hstep, hexec, -⟩
  · rfl
  · rw [hstep, hexec, Option.map_some]

theorem Good.step (hcls : WellTyped this cls) (h : Good this cls s)
    (hs : step this cls s = some s') : Good this cls s' := by
  refine ⟨?_, fun u hu => h.division u (.step_trans hs hu),
    fun u hu => h.inRange u (.step_trans hs hu)⟩
  rcases h.lockstep hcls with ⟨value, output, rfl⟩ | ⟨u, hstep, -, hok⟩
  · cases hs
  · obtain rfl := Option.some.inj (hstep.symm.trans hs)
    exact hok

theorem erase_eq_returned {value : Option Int32} (h : erase s = .returned value output) :
    s = .returned value output := by
  cases s with
  | running f callers output => cases h
  | returned value' output' =>
    obtain ⟨rfl, rfl⟩ := State.returned.inj h
    rfl

/-- The interpreter refines the JVM, on executions without a division that overflows or
has no result and whose returned values are in the range of the declared type: both
do the same steps, print the same ints and return the same value, and the interpreter
never leaves its arrays or an instruction boundary. -/
theorem execute_refines_jvm (hcls : WellTyped this cls) (hm : m ∈ cls.methods)
    (hinit : m.name ≠ "<init>") (args : List Int32)
    (hargs : argumentLocals m = List.replicate args.length true)
    (hdiv : ∀ s, Steps (step this cls) (.running (invoke m args) [] []) s → dividesBadly s = false)
    (hret : ∀ s, Steps (step this cls) (.running (invoke m args) [] []) s → returnsInRange s) :
    (∀ n, stepN (execute cls) n (.running ⟨m, 0, [], startLocals m args⟩ [] []) =
      (stepN (step this cls) n (.running (invoke m args) [] [])).map erase) ∧
    (∀ value output,
      Steps (execute cls) (.running ⟨m, 0, [], startLocals m args⟩ [] []) (.returned value output) ↔
        Steps (step this cls) (.running (invoke m args) [] []) (.returned value output)) ∧
    ∀ u, Steps (execute cls) (.running ⟨m, 0, [], startLocals m args⟩ [] []) u → u.Sound ∧
      ((∃ value output, u = .returned value output) ∨ ∃ u', execute cls u = some u') := by
  obtain ⟨types, ht⟩ := hcls m hm hinit
  have hgood : Good this cls (.running (invoke m args) [] []) :=
    ⟨⟨invoke_ok ht hargs, trivial⟩, hdiv, hret⟩
  have hruns : ∀ n, stepN (execute cls) n (.running ⟨m, 0, [], startLocals m args⟩ [] []) =
      (stepN (step this cls) n (.running (invoke m args) [] [])).map erase :=
    stepN_map (fun s hs => hs.execute_eq hcls) (fun s s' hs hstep => hs.step hcls hstep) hgood
  refine ⟨hruns, fun value output => ⟨fun ⟨n, hn⟩ => ?_, fun ⟨n, hn⟩ => ⟨n, ?_⟩⟩,
    fun u ⟨n, hn⟩ => ?_⟩
  · rw [hruns n] at hn
    obtain ⟨s, hs, herase⟩ := Option.map_eq_some_iff.mp hn
    exact ⟨n, erase_eq_returned herase ▸ hs⟩
  · rw [hruns n, hn]
    rfl
  · rw [hruns n] at hn
    obtain ⟨s, hs, rfl⟩ := Option.map_eq_some_iff.mp hn
    have hs' := Steps.invariant (fun s s' hs hstep => Good.step hcls hs hstep) ⟨n, hs⟩ hgood
    refine ⟨hs'.ok.sound, ?_⟩
    rcases hs'.lockstep hcls with ⟨value, output, rfl⟩ | ⟨s', -, hexec, -⟩
    · exact .inl ⟨value, output, rfl⟩
    · exact .inr ⟨_, hexec⟩

/-- A class whose `main` prints what a method `flag()Z` returns, which is put on the
stack by the instruction `op`. -/
def flagMethod (op : UInt8) : Method := ⟨"flag", "()Z", 1, 0, [op, 0xac]⟩

def flagMain : Method :=
  ⟨"main", mainDescriptor, 2, 1, [0xb2, 0, 8, 0xb8, 0, 18, 0xb6, 0, 14, 0xb1]⟩

def flagClass (op : UInt8) : ClassFile where
  constantPool := [.utf8 "Flag", .class 1, .utf8 "java/lang/System", .class 3, .utf8 "out",
    .utf8 "Ljava/io/PrintStream;", .nameAndType 5 6, .fieldref 4 7, .utf8 "java/io/PrintStream",
    .class 9, .utf8 "println", .utf8 "(I)V", .nameAndType 11 12, .methodref 10 13, .utf8 "flag",
    .utf8 "()Z", .nameAndType 15 16, .methodref 2 17]
  methods := [flagMain, flagMethod op]

def flagMainTypes : Nat → Option FrameType
  | 0 | 9 => some ⟨[], [false]⟩
  | 3 => some ⟨[.printStream], [false]⟩
  | 6 => some ⟨[.int, .printStream], [false]⟩
  | _ => none

def flagTypes : Nat → Option FrameType
  | 0 => some ⟨[], []⟩
  | 1 => some ⟨[.int], []⟩
  | _ => none

theorem flows_of_eq {types : Nat → Option FrameType} (h : types pc = some t) : Flows types pc t :=
  ⟨t, h, rfl, rfl, fun _ h => h⟩

theorem flag_parameters : parameters "()Z" = [] := by decide

theorem flag_signature : IntSignature "()Z" where
  parse := by decide
  params := by
    rw [flag_parameters]
    simp
  result := .inr ⟨'Z', by decide, by decide⟩

theorem flag_returnType : returnType "()Z" ≠ ['V'] := by decide

theorem flag_argumentLocals {op : UInt8} : argumentLocals (flagMethod op) = [] := by
  rw [argumentLocals_eq flag_signature]
  exact congrArg (fun l => List.replicate l.length true) flag_parameters

theorem flagMain_typed (op : UInt8) : Typed "Flag" (flagClass op) flagMain flagMainTypes where
  size := by decide
  arguments := by decide
  entry := flows_of_eq rfl
  starts pc t h := by
    have h₃ := InstructionStart.next .zero
      (rfl : decode flagMain.code 0 = some (.getstatic 8, 3))
    have h₆ := InstructionStart.next h₃
      (rfl : decode flagMain.code 3 = some (.invokestatic 18, 3))
    have h₉ := InstructionStart.next h₆
      (rfl : decode flagMain.code 6 = some (.invokevirtual 14, 3))
    unfold flagMainTypes at h
    split at h
    · exact .zero
    · exact h₉
    · exact h₃
    · exact h₆
    · cases h
  bounded pc t h := by
    unfold flagMainTypes at h
    split at h <;> cases h <;> decide
  checks pc t h := by
    unfold flagMainTypes at h
    split at h <;> cases h
    · change IsSystemOut (flagClass op) 8 ∧ Flows flagMainTypes 3 ⟨[.printStream], [false]⟩
      exact ⟨⟨4, 7, 3, 5, 6, rfl, rfl, rfl, rfl, rfl, rfl⟩, flows_of_eq rfl⟩
    · change returnType flagMain.descriptor = ['V']
      decide
    · change ∃ callee k, resolve "Flag" (flagClass op) 18 = some callee ∧
        callee.name ≠ "<init>" ∧ IntSignature callee.descriptor ∧
        Pops _ (List.replicate (parameters callee.descriptor).length .int) k ∧
        Flows flagMainTypes 6 ⟨if returnType callee.descriptor = ['V'] then k else .int :: k, _⟩
      refine ⟨flagMethod op, [.printStream], rfl, ne_of_beq_false rfl, flag_signature, ?_, ?_⟩
      · rw [show parameters (flagMethod op).descriptor = [] from flag_parameters]
        rfl
      · rw [if_neg (show returnType (flagMethod op).descriptor ≠ ['V'] from flag_returnType)]
        exact flows_of_eq rfl
    · change IsPrintln (flagClass op) 14 ∧ ∃ k, Pops _ [.int, .printStream] k ∧
        Flows flagMainTypes 9 ⟨k, [false]⟩
      exact ⟨⟨10, 13, 9, 11, 12, rfl, rfl, rfl, rfl, rfl, rfl⟩, [], rfl, flows_of_eq rfl⟩

theorem flagMethod_typed {op : UInt8} {v : Int32}
    (hop : decode (flagMethod op).code 0 = some (.const v, 1)) :
    Typed "Flag" (flagClass op) (flagMethod op) flagTypes where
  size := show 2 < 65536 by decide
  arguments := by
    rw [flag_argumentLocals]
    exact ⟨Nat.le_refl 0, show 0 < 65536 by decide⟩
  entry := by
    rw [flag_argumentLocals]
    exact flows_of_eq rfl
  starts pc t h := by
    unfold flagTypes at h
    split at h
    · exact .zero
    · exact .next .zero hop
    · cases h
  bounded pc t h := by
    unfold flagTypes at h
    split at h <;> cases h
    · exact ⟨show 0 ≤ 1 by decide, rfl⟩
    · exact ⟨Nat.le_refl 1, rfl⟩
  checks pc t h := by
    unfold flagTypes at h
    split at h <;> cases h
    · unfold Checks
      rw [hop]
      exact flows_of_eq rfl
    · change (∃ k, Pops _ [.int] k) ∧ ∃ c ∈ intTypes, returnType "()Z" = [c]
      exact ⟨⟨[], rfl⟩, 'Z', by decide, by decide⟩

theorem flagClass_wellTyped {op : UInt8} {v : Int32}
    (hop : decode (flagMethod op).code 0 = some (.const v, 1)) :
    WellTyped "Flag" (flagClass op) := by
  intro m hm _
  simp only [flagClass, List.mem_cons, List.not_mem_nil, or_false] at hm
  rcases hm with rfl | rfl
  · exact ⟨_, flagMain_typed op⟩
  · exact ⟨_, flagMethod_typed hop⟩

theorem flag_run {op : UInt8} {v : Int32} {p : State Value → Bool}
    (hrun : stepN (step "Flag" (flagClass op)) 6 (.running (invoke flagMain []) [] []) =
      some (.returned none [v]))
    (hp : ∀ k ≤ 6, ∀ s ∈ stepN (step "Flag" (flagClass op)) k (.running (invoke flagMain []) [] []),
      p s = true) :
    ∀ s, Steps (step "Flag" (flagClass op)) (.running (invoke flagMain []) [] []) s →
      p s = true := by
  intro s hs
  obtain ⟨k, hk, hks⟩ := hs.le_of_stuck hrun rfl
  exact hp k hk s hks

theorem execute_refines_jvm_flag :
    Steps (execute (flagClass 0x4)) (.running ⟨flagMain, 0, [], startLocals flagMain []⟩ [] [])
      (.returned none [1]) := by
  have hop : decode (flagMethod 0x4).code 0 = some (.const 1, 1) := rfl
  have hrefines := execute_refines_jvm (flagClass_wellTyped hop) (List.mem_cons_self ..)
    (m := flagMain) (by decide) [] (by decide)
    (fun s hs => by
      simpa using flag_run (v := 1) (p := fun s => !dividesBadly s) rfl (by decide +kernel) s hs)
    (flag_run (v := 1) rfl (by decide +kernel))
  exact (hrefines.2.1 none [1]).mpr ⟨6, rfl⟩

/-- A JVM converts the value of an `ireturn` to the declared type: where `flag()Z` puts 2
on the stack, it prints 0 and the interpreter 2. -/
theorem ireturn_not_narrowed :
    ¬∀ (this : String) (cls : ClassFile) (m : Method) (args : List Int32), WellTyped this cls →
      m ∈ cls.methods → m.name ≠ "<init>" →
      argumentLocals m = List.replicate args.length true →
      (∀ s, Steps (step this cls) (.running (invoke m args) [] []) s → dividesBadly s = false) →
      ∀ value output,
        Steps (execute cls) (.running ⟨m, 0, [], startLocals m args⟩ [] [])
          (.returned value output) →
        Steps (step this cls) (.running (invoke m args) [] []) (.returned value output) := by
  intro hrefines
  have hjvm := hrefines "Flag" (flagClass 0x5) flagMain []
    (flagClass_wellTyped (v := 2) rfl) (List.mem_cons_self ..) (by decide) (by decide)
    (fun s hs => by
      simpa using flag_run (v := 0) (p := fun s => !dividesBadly s) rfl (by decide +kernel) s hs)
    none [2] ⟨6, rfl⟩
  have hend : Steps (step "Flag" (flagClass 0x5)) (.running (invoke flagMain []) [] [])
      (.returned none [0]) := ⟨6, rfl⟩
  have heq := hjvm.stuck_unique hend rfl rfl
  have hout : ([2] : List Int32) = [0] := (State.returned.inj heq).2
  revert hout
  decide

end CS24.TeenyJvm
