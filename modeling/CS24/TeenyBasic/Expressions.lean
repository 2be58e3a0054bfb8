import CS24.TeenyBasic.Compile

/-!
# Compiled expressions

The code of an expression leaves its value in `%rax` and the memory at and above the
stack pointer as it was, or traps when the expression divides by zero or the least
value by -1. The temporaries it pushes lie below the frame of the variables.
-/

namespace CS24.TeenyBasic
open Machine

variable {libc : Libc} {asm xs ys : List Line} {s s' s'' : State} {env : Env} {pc n : Nat}
  {i : Instr} {op : Char} {l r : Int64} {e : Node}

@[simp] theorem State.set_regs (s : State) (q : Reg) (v : Int) :
    (s.set q v).regs = Function.update s.regs q v := rfl
@[simp] theorem State.set_mem (s : State) (q : Reg) (v : Int) : (s.set q v).mem = s.mem := rfl
@[simp] theorem State.set_pc (s : State) (q : Reg) (v : Int) : (s.set q v).pc = s.pc := rfl
@[simp] theorem State.set_output (s : State) (q : Reg) (v : Int) :
    (s.set q v).output = s.output := rfl
@[simp] theorem State.set_zf (s : State) (q : Reg) (v : Int) : (s.set q v).zf = s.zf := rfl
@[simp] theorem State.set_sf (s : State) (q : Reg) (v : Int) : (s.set q v).sf = s.sf := rfl
@[simp] theorem State.set_of (s : State) (q : Reg) (v : Int) : (s.set q v).of = s.of := rfl
@[simp] theorem State.put_regs (s : State) (a v : Int) : (s.put a v).regs = s.regs := rfl
@[simp] theorem State.put_mem (s : State) (a v : Int) :
    (s.put a v).mem = Function.update s.mem a v := rfl
@[simp] theorem State.put_pc (s : State) (a v : Int) : (s.put a v).pc = s.pc := rfl
@[simp] theorem State.put_output (s : State) (a v : Int) : (s.put a v).output = s.output := rfl
@[simp] theorem State.jump_regs (s : State) (i : Nat) : (s.jump i).regs = s.regs := rfl
@[simp] theorem State.jump_mem (s : State) (i : Nat) : (s.jump i).mem = s.mem := rfl
@[simp] theorem State.jump_pc (s : State) (i : Nat) : (s.jump i).pc = i := rfl
@[simp] theorem State.jump_output (s : State) (i : Nat) : (s.jump i).output = s.output := rfl
@[simp] theorem State.next_regs (s : State) : s.next.regs = s.regs := rfl
@[simp] theorem State.next_mem (s : State) : s.next.mem = s.mem := rfl
@[simp] theorem State.next_pc (s : State) : s.next.pc = s.pc + 1 := rfl
@[simp] theorem State.next_output (s : State) : s.next.output = s.output := rfl
@[simp] theorem State.next_zf (s : State) : s.next.zf = s.zf := rfl
@[simp] theorem State.next_sf (s : State) : s.next.sf = s.sf := rfl
@[simp] theorem State.next_of (s : State) : s.next.of = s.of := rfl
@[simp] theorem State.setFlags_regs (s : State) (x : Int) : (s.setFlags x).regs = s.regs := rfl
@[simp] theorem State.setFlags_mem (s : State) (x : Int) : (s.setFlags x).mem = s.mem := rfl
@[simp] theorem State.setFlags_pc (s : State) (x : Int) : (s.setFlags x).pc = s.pc := rfl
@[simp] theorem State.setFlags_output (s : State) (x : Int) :
    (s.setFlags x).output = s.output := rfl

theorem wrap_toInt (v : Int64) : wrap v.toInt = v.toInt := by
  have hlo := v.le_toInt
  have hhi := v.toInt_lt
  exact Int.bmod_eq_of_le (by omega) (by omega)

theorem wrap_eq_self {x : Int} (hlo : -2 ^ 63 ≤ x) (hhi : x < 2 ^ 63) : wrap x = x :=
  Int.bmod_eq_of_le (by omega) (by omega)

theorem signExtend {x : Int} (hlo : -2 ^ 63 ≤ x) (hhi : x < 2 ^ 63) :
    (if x < 0 then -1 else 0) * 2 ^ 64 + x % 2 ^ 64 = x := by
  split_ifs <;> omega

theorem wrap_tdiv (hr : r ≠ 0) (hlr : ¬ (l = Int64.minValue ∧ r = -1)) :
    wrap (l.toInt.tdiv r.toInt) = l.toInt.tdiv r.toInt := by
  have hlo := l.le_toInt
  have hhi := l.toInt_lt
  have habs : (l.toInt.tdiv r.toInt).natAbs = l.toInt.natAbs / r.toInt.natAbs :=
    Int.natAbs_tdiv _ _
  have hr0 : r.toInt ≠ 0 := fun h => hr (Int64.toInt_inj.mp h)
  have hle := Nat.div_le_self l.toInt.natAbs r.toInt.natAbs
  by_cases hmin : l.toInt = -2 ^ 63
  · have hrm1 : r.toInt ≠ -1 := fun h =>
      hlr ⟨Int64.toInt_inj.mp hmin, Int64.toInt_inj.mp h⟩
    by_cases hr1 : r.toInt = 1
    · rw [hr1, Int.tdiv_one]
      exact wrap_toInt l
    · have hhalf : l.toInt.natAbs / r.toInt.natAbs ≤ l.toInt.natAbs / 2 :=
        Nat.div_le_div_left (by omega) (by decide)
      exact wrap_eq_self (by omega) (by omega)
  · exact wrap_eq_self (by omega) (by omega)

theorem flags_lt (s : State) (l r : Int64) :
    ((s.setFlags (l.toInt - r.toInt)).sf != (s.setFlags (l.toInt - r.toInt)).of) =
      decide (l < r) := by
  have hl := l.le_toInt
  have hl' := l.toInt_lt
  have hr := r.le_toInt
  have hr' := r.toInt_lt
  have hrange := Int.bmod_lt (x := l.toInt - r.toInt) (m := 2 ^ 64) (by decide)
  have hrange' := Int.le_bmod (x := l.toInt - r.toInt) (m := 2 ^ 64) (by decide)
  have hwrap : wrap (l.toInt - r.toInt) = l.toInt - r.toInt ∨
      wrap (l.toInt - r.toInt) = l.toInt - r.toInt - 2 ^ 64 ∨
      wrap (l.toInt - r.toInt) = l.toInt - r.toInt + 2 ^ 64 := by
    unfold wrap Int.bmod
    simp only
    split_ifs <;> omega
  change wrap _ < _ at hrange
  change _ ≤ wrap _ at hrange'
  simp only [State.setFlags, Int64.lt_iff_toInt_lt]
  rcases hwrap with hw | hw | hw
  · have hof : (wrap (l.toInt - r.toInt) != l.toInt - r.toInt) = false := by simp [hw]
    rw [hof, hw, Bool.bne_false, decide_eq_decide]
    omega
  · have hof : (wrap (l.toInt - r.toInt) != l.toInt - r.toInt) = true := bne_iff_ne.mpr (by omega)
    have hsf : decide (wrap (l.toInt - r.toInt) < 0) = true := decide_eq_true (by omega)
    rw [hof, hsf, eq_comm]
    exact decide_eq_false (by omega)
  · have hof : (wrap (l.toInt - r.toInt) != l.toInt - r.toInt) = true := bne_iff_ne.mpr (by omega)
    have hsf : decide (wrap (l.toInt - r.toInt) < 0) = false := decide_eq_false (by omega)
    rw [hof, hsf, eq_comm]
    exact decide_eq_true (by omega)

theorem flags_eq (s : State) (l r : Int64) :
    (s.setFlags (l.toInt - r.toInt)).zf = (l == r) := by
  have hl := l.le_toInt
  have hl' := l.toInt_lt
  have hr := r.le_toInt
  have hr' := r.toInt_lt
  have hzero : wrap (l.toInt - r.toInt) = 0 ↔ l.toInt = r.toInt := by
    unfold wrap Int.bmod
    simp only
    split_ifs <;> omega
  rw [Bool.eq_iff_iff]
  simp only [State.setFlags, beq_iff_eq]
  rw [hzero, Int64.toInt_inj]

/-- The lines `xs` are in the file from line `pc` on. -/
def CodeAt (asm : List Line) : Nat → List Line → Prop
  | _, [] => True
  | pc, x :: xs => asm[pc]? = some x ∧ CodeAt asm (pc + 1) xs

@[simp] theorem code_length (is : List Instr) : (code is).length = is.length := List.length_map _

theorem CodeAt.at {pc' : Nat} (h : CodeAt asm pc xs) (hpc : pc = pc') : CodeAt asm pc' xs := hpc ▸ h

theorem CodeAt.append : CodeAt asm pc (xs ++ ys) ↔
    CodeAt asm pc xs ∧ CodeAt asm (pc + xs.length) ys := by
  induction xs generalizing pc with
  | nil => simp [CodeAt]
  | cons x xs ih =>
    simp only [List.cons_append, CodeAt, ih, List.length_cons, and_assoc]
    rw [show pc + 1 + xs.length = pc + (xs.length + 1) by omega]

theorem CodeAt.of_append (pre : List Line) : CodeAt (pre ++ xs ++ ys) pre.length xs := by
  induction xs generalizing pre with
  | nil => trivial
  | cons x xs ih =>
    refine ⟨by simp, ?_⟩
    have h := ih (pre ++ [x])
    simpa using h

variable (libc) in
theorem run_instr (h : asm[s.pc]? = some (.instr i)) : run libc asm s = exec libc asm s i := by
  simp [run, h]

def Instr.straight : Instr → Bool
  | .je _ | .jmp _ | .call _ | .ret => false
  | _ => true

theorem exec_pc (hi : i.straight) (h : exec libc asm s i = some s') : s'.pc = s.pc + 1 := by
  cases i with
  | je | jmp | call | ret => simp [Instr.straight] at hi
  | leaq sym dst =>
    simp only [exec] at h
    split_ifs at h
    exact Option.some.inj h ▸ rfl
  | idiv divisor =>
    simp only [exec] at h
    split_ifs at h
    exact Option.some.inj h ▸ rfl
  | cmovl | cmovg | cmove =>
    simp only [exec, Option.some.injEq] at h
    rw [← h, State.next_pc]
    split_ifs <;> rfl
  | _ => exact Option.some.inj h ▸ rfl

def execCode (libc : Libc) (asm : List Line) : List Instr → State → Option State
  | [], s => some s
  | i :: is, s => (exec libc asm s i).bind (execCode libc asm is)

theorem steps_code {is : List Instr} (his : is.all Instr.straight)
    (hc : CodeAt asm s.pc (code is)) (h : execCode libc asm is s = some s') :
    Steps (run libc asm) s s' ∧ s'.pc = s.pc + is.length := by
  induction is generalizing s with
  | nil => exact Option.some.inj h ▸ ⟨.refl s, rfl⟩
  | cons i is ih =>
    obtain ⟨hi, hc⟩ := hc
    simp only [List.all_cons, Bool.and_eq_true] at his
    rw [execCode] at h
    cases hexec : exec libc asm s i with
    | none => simp [hexec] at h
    | some u =>
      rw [hexec, Option.bind_some] at h
      have hpc := exec_pc his.1 hexec
      obtain ⟨hsteps, hend⟩ := ih his.2 (hpc ▸ hc) h
      refine ⟨.step_trans ((run_instr libc hi).trans hexec) hsteps, ?_⟩
      rw [hend, hpc, List.length_cons]
      omega

structure Kept (s s' : State) : Prop where
  rsp : s'.regs .rsp = s.regs .rsp
  rbp : s'.regs .rbp = s.regs .rbp
  output : s'.output = s.output
  mem : ∀ a, s.regs .rsp ≤ a → s'.mem a = s.mem a

theorem Kept.trans (h : Kept s s') (h' : Kept s' s'') : Kept s s'' :=
  ⟨h'.rsp.trans h.rsp, h'.rbp.trans h.rbp, h'.output.trans h.output,
    fun a ha => (h'.mem a (h.rsp.trans_le ha)).trans (h.mem a ha)⟩

structure Framed (env : Env) (s : State) : Prop where
  below : s.regs .rsp ≤ s.regs .rbp - 0xd0
  vars : ∀ c, c.isUpper → s.mem (s.regs .rbp + slot c) = (env c).toInt

theorem slot_bounds {c : Char} (hc : c.isUpper) : -200 ≤ slot c ∧ slot c ≤ 0 := by
  simp only [Char.isUpper, ge_iff_le, Bool.decide_and, Bool.and_eq_true, decide_eq_true_eq] at hc
  obtain ⟨hlo, hhi⟩ := hc
  have hlo' : 65 ≤ c.toNat := hlo
  have hhi' : c.toNat ≤ 90 := hhi
  have hA : asciiOffset = 65 := rfl
  unfold slot bytesPerInt
  rw [hA]
  omega

theorem slot_inj {c d : Char} (h : slot c = slot d) : c = d := by
  unfold slot bytesPerInt at h
  exact Char.toNat_inj.mp (by omega)

theorem Framed.kept (h : Framed env s) (hk : Kept s s') : Framed env s' := by
  have hbelow := h.below
  refine ⟨by rw [hk.rsp, hk.rbp]; exact hbelow, fun c hc => ?_⟩
  have hslot := slot_bounds hc
  rw [hk.rbp, hk.mem _ (by omega), h.vars c hc]

/-- The run from `s` comes to line `pc` with the value in `%rax`, or it traps. -/
def Computes (libc : Libc) (asm : List Line) (s : State) (pc : Nat) : Option Int64 → Prop
  | some v => ∃ s', Steps (run libc asm) s s' ∧ Kept s s' ∧ s'.pc = pc ∧ s'.regs .rax = v.toInt
  | none => ∃ s', Steps (run libc asm) s s' ∧ s'.output = s.output ∧ s'.Stopped asm .trapped

theorem Computes.of_steps {o : Option Int64} (h : Computes libc asm s' pc o)
    (hs : Steps (run libc asm) s s') (hk : Kept s s') : Computes libc asm s pc o := by
  cases o with
  | some v =>
    obtain ⟨u, hu, hku, hpc, hv⟩ := h
    exact ⟨u, hs.trans hu, hk.trans hku, hpc, hv⟩
  | none =>
    obtain ⟨u, hu, hout, hstop⟩ := h
    exact ⟨u, hs.trans hu, hout.trans hk.output, hstop⟩

theorem Computes.of_code {is : List Instr} {v : Int64} (hc : CodeAt asm s.pc (code is))
    (his : is.all Instr.straight) (h : execCode libc asm is s = some s') (hk : Kept s s')
    (hv : s'.regs .rax = v.toInt) :
    Computes libc asm s (s.pc + (code is).length) (some v) := by
  obtain ⟨hsteps, hpc⟩ := steps_code his hc h
  exact ⟨s', hsteps, hk, by rw [hpc, code_length], hv⟩

theorem idivTraps_iff (hrax : s.regs .rax = l.toInt)
    (hrdx : s.regs .rdx = if l.toInt < 0 then -1 else 0) (hrsi : s.regs .rsi = r.toInt) :
    idivTraps s .rsi = true ↔ r = 0 ∨ l = Int64.minValue ∧ r = -1 := by
  have hn := signExtend l.le_toInt l.toInt_lt
  simp only [idivTraps, hrax, hrdx, hrsi, hn, Bool.or_eq_true, beq_iff_eq, bne_iff_ne]
  constructor
  · rintro (h0 | hne)
    · exact .inl (Int64.toInt_inj.mp h0)
    · by_contra hno
      obtain ⟨hr, hlr⟩ := not_or.mp hno
      exact hne (wrap_tdiv hr hlr)
  · rintro (rfl | ⟨rfl, rfl⟩)
    · exact .inl rfl
    · exact .inr (by decide)

theorem compileOp_div (hc : CodeAt asm s.pc (compileOp '/').1) (hl : s.regs .rdi = l.toInt)
    (hr : s.regs .rax = r.toInt) :
    Computes libc asm s (s.pc + (compileOp '/').1.length) (evalOp '/' l r) := by
  have hc' : CodeAt asm s.pc
      (code [.mov .rax .rsi, .mov .rdi .rax, .cqto] ++ code [.idiv .rsi]) := hc
  obtain ⟨hprep, hidiv, -⟩ := CodeAt.append.mp hc'
  obtain ⟨s₁, hexec, hrax, hrdx, hrsi, hkept⟩ : ∃ s₁,
      execCode libc asm [.mov .rax .rsi, .mov .rdi .rax, .cqto] s = some s₁ ∧
      s₁.regs .rax = l.toInt ∧ (s₁.regs .rdx = if l.toInt < 0 then -1 else 0) ∧
      s₁.regs .rsi = r.toInt ∧ Kept s s₁ :=
    ⟨_, rfl, by simp [hl], by simp [hl], by simp [hr],
      ⟨by simp, by simp, rfl, fun _ _ => rfl⟩⟩
  obtain ⟨hsteps, hpc⟩ := steps_code rfl hprep hexec
  have htraps := idivTraps_iff hrax hrdx hrsi
  have hn := signExtend l.le_toInt l.toInt_lt
  have hat : asm[s₁.pc]? = some (.instr (.idiv .rsi)) := by
    rw [hpc]
    exact hidiv
  simp only [evalOp]
  by_cases htrap : r = 0 ∨ l = Int64.minValue ∧ r = -1
  · rw [if_pos htrap]
    exact ⟨s₁, hsteps, hkept.output, .rsi, hat, htraps.mpr htrap⟩
  · rw [if_neg htrap]
    have hno : idivTraps s₁ .rsi = false := by simpa [← htraps] using htrap
    have hstep : run libc asm s₁ = some ((s₁.set .rax (l.toInt.tdiv r.toInt)).set .rdx
        (l.toInt.tmod r.toInt)).next := by
      rw [run_instr libc hat]
      simp only [exec, hno, hrax, hrdx, hrsi, hn, Bool.false_eq_true, if_false]
    obtain ⟨hr0, hmin⟩ := not_or.mp htrap
    refine ⟨_, hsteps.trans (.of_step hstep), hkept.trans ⟨by simp, by simp, rfl, fun _ _ => rfl⟩,
      ?_, ?_⟩
    · rw [State.next_pc, State.set_pc, State.set_pc, hpc]
      rfl
    · rw [Int64.toInt_div, ← wrap, wrap_tdiv hr0 hmin]
      simp

theorem compileOp_computes (hop : op ∈ ['+', '-', '*', '/'])
    (hc : CodeAt asm s.pc (compileOp op).1) (hl : s.regs .rdi = l.toInt)
    (hr : s.regs .rax = r.toInt) :
    Computes libc asm s (s.pc + (compileOp op).1.length) (evalOp op l r) := by
  simp only [List.mem_cons, List.not_mem_nil, or_false] at hop
  rcases hop with rfl | rfl | rfl | rfl
  · refine Computes.of_code hc rfl rfl ⟨?_, ?_, rfl, fun _ _ => rfl⟩ ?_
    · simp
    · simp
    · simp only [State.next_regs, State.set_regs, Function.update_self]
      rw [hl, hr, Int.add_comm, wrap, Int64.toInt_add]
  · refine Computes.of_code hc rfl rfl ⟨?_, ?_, rfl, fun _ _ => rfl⟩ ?_
    · simp
    · simp
    · simp [hl, hr, wrap]
  · refine Computes.of_code hc rfl rfl ⟨?_, ?_, rfl, fun _ _ => rfl⟩ ?_
    · simp
    · simp
    · simp only [State.next_regs, State.set_regs, Function.update_self]
      rw [hl, hr, Int.mul_comm, wrap, Int64.toInt_mul]
  · exact compileOp_div hc hl hr

/-- The flag of a comparison as `cmov` leaves it in `%rax`. -/
def flag (b : Bool) : Int64 := if b then 1 else 0

theorem cmov_computes {b : Bool}
    (hc : CodeAt asm s.pc (code [.cmp .rax .rdi, .movImm 0 .rax, .movImm 1 .rsi, i]))
    (hl : s.regs .rdi = l.toInt) (hr : s.regs .rax = r.toInt)
    (hi : ∀ s₁ : State, s₁.zf = (l == r) → (s₁.sf != s₁.of) = decide (l < r) →
      exec libc asm s₁ i = some (if b then s₁.set .rax (s₁.regs .rsi) else s₁).next) :
    Computes libc asm s (s.pc + 4) (some (flag b)) := by
  have hc' : CodeAt asm s.pc
      (code [.cmp .rax .rdi, .movImm 0 .rax, .movImm 1 .rsi] ++ code [i]) := hc
  obtain ⟨hprep, hcmov, -⟩ := CodeAt.append.mp hc'
  obtain ⟨s₁, hexec, hzf, hlt, hrax, hrsi, hkept⟩ : ∃ s₁,
      execCode libc asm [.cmp .rax .rdi, .movImm 0 .rax, .movImm 1 .rsi] s = some s₁ ∧
      s₁.zf = (l == r) ∧ (s₁.sf != s₁.of) = decide (l < r) ∧ s₁.regs .rax = 0 ∧
      s₁.regs .rsi = 1 ∧ Kept s s₁ :=
    ⟨_, rfl, by simp [hl, hr, flags_eq], by simpa [hl, hr] using flags_lt s l r, by simp, by simp,
      ⟨by simp, by simp, rfl, fun _ _ => rfl⟩⟩
  obtain ⟨hsteps, hpc⟩ := steps_code rfl hprep hexec
  have hat : asm[s₁.pc]? = some (.instr i) := by
    rw [hpc]
    exact hcmov
  have hstep := (run_instr libc hat).trans (hi s₁ hzf hlt)
  refine ⟨_, hsteps.trans (.of_step hstep), hkept.trans ?_, ?_, ?_⟩
  · cases b <;> exact ⟨by simp, by simp, rfl, fun _ _ => rfl⟩
  · have hend : s₁.pc + 1 = s.pc + 4 := by rw [hpc]; rfl
    cases b <;> exact hend
  · cases b
    · exact hrax
    · simp [hrsi, flag]

theorem compileOp_compares (hop : op ∈ ['<', '=', '>'])
    (hc : CodeAt asm s.pc (compileOp op).1) (hl : s.regs .rdi = l.toInt)
    (hr : s.regs .rax = r.toInt) :
    Computes libc asm s (s.pc + (compileOp op).1.length) (some (flag (compareOp op l r))) := by
  simp only [List.mem_cons, List.not_mem_nil, or_false] at hop
  rcases hop with rfl | rfl | rfl
  · refine cmov_computes hc hl hr fun s₁ _ hlt => ?_
    simp only [exec, hlt]
    rfl
  · refine cmov_computes hc hl hr fun s₁ hzf _ => ?_
    simp only [exec, hzf]
    rfl
  · refine cmov_computes hc hl hr fun s₁ hzf hlt => ?_
    have hge : (s₁.sf == s₁.of) = !decide (l < r) := by
      rw [← hlt]
      cases s₁.sf <;> cases s₁.of <;> rfl
    have hgt : (!(l == r) && !decide (l < r)) = decide (r < l) := by
      rw [Bool.eq_iff_iff]
      simp only [Bool.and_eq_true, Bool.not_eq_true', beq_eq_false_iff_ne, ne_eq,
        decide_eq_false_iff_not, decide_eq_true_eq, Int64.lt_iff_toInt_lt, ← Int64.toInt_inj]
      omega
    simp only [exec, hzf, hge, hgt]
    rfl

variable (libc) in
theorem binary_computes {lc rc oc : List Line} {ol or : Option Int64}
    {f : Int64 → Int64 → Option Int64} (hf : Framed env s)
    (hc : CodeAt asm s.pc (lc ++ code [.push .rax] ++ rc ++ code [.pop .rdi] ++ oc))
    (ihl : ∀ s, Framed env s → CodeAt asm s.pc lc → Computes libc asm s (s.pc + lc.length) ol)
    (ihr : ∀ s, Framed env s → CodeAt asm s.pc rc → Computes libc asm s (s.pc + rc.length) or)
    (hop : ∀ s l r, CodeAt asm s.pc oc → s.regs .rdi = l.toInt → s.regs .rax = r.toInt →
      Computes libc asm s (s.pc + oc.length) (f l r)) :
    Computes libc asm s
      (s.pc + (lc ++ code [.push .rax] ++ rc ++ code [.pop .rdi] ++ oc).length)
      (do f (← ol) (← or)) := by
  simp only [CodeAt.append, and_assoc] at hc
  obtain ⟨hlc, ⟨hpush, -⟩, hrc, ⟨hpop, -⟩, hoc⟩ := hc
  have hleft := ihl s hf hlc
  cases ol with
  | none => exact hleft
  | some l =>
    obtain ⟨s₁, hs₁, hk₁, hpc₁, hrax₁⟩ := hleft
    rw [← hpc₁] at hpush
    have hstep₂ := run_instr libc hpush
    -- `s₂` is the state after the push
    obtain ⟨s₂, hs₂, hpc₂, hrsp₂, hrbp₂, hout₂, htop, hmem₂⟩ : ∃ s₂, run libc asm s₁ = some s₂ ∧
        s₂.pc = s₁.pc + 1 ∧ s₂.regs .rsp = s₁.regs .rsp - 8 ∧ s₂.regs .rbp = s₁.regs .rbp ∧
        s₂.output = s₁.output ∧ s₂.mem (s₁.regs .rsp - 8) = l.toInt ∧
        ∀ a, s₁.regs .rsp ≤ a → s₂.mem a = s₁.mem a := by
      refine ⟨_, hstep₂, rfl, by simp, by simp, rfl, by simp [hrax₁], fun a ha => ?_⟩
      simp [Function.update_of_ne (show a ≠ s₁.regs .rsp - 8 by omega)]
    have hf₁ := hf.kept hk₁
    have hf₂ : Framed env s₂ := by
      have hbelow := hf₁.below
      refine ⟨by omega, fun c hcup => ?_⟩
      have hslot := slot_bounds hcup
      rw [hrbp₂, hmem₂ _ (by omega), hf₁.vars c hcup]
    have hright := ihr s₂ hf₂ (hrc.at (by simp [hpc₂, hpc₁, Nat.add_assoc]))
    cases or with
    | none =>
      obtain ⟨u, hu, hout, hstop⟩ := hright
      exact ⟨u, (hs₁.trans (.of_step hs₂)).trans hu, hout.trans (hout₂.trans hk₁.output), hstop⟩
    | some r =>
      obtain ⟨s₃, hs₃, hk₃, hpc₃, hrax₃⟩ := hright
      have hpop' : asm[s₃.pc]? = some (.instr (.pop .rdi)) := by
        rw [hpc₃, hpc₂, hpc₁, ← hpop]
        simp [Nat.add_assoc]
      have hstep₄ := run_instr libc hpop'
      -- `s₄` is the state after the pop
      obtain ⟨s₄, hs₄, hpc₄, hrdi₄, hrax₄, hk₄⟩ : ∃ s₄, run libc asm s₃ = some s₄ ∧
          s₄.pc = s₃.pc + 1 ∧ s₄.regs .rdi = l.toInt ∧ s₄.regs .rax = r.toInt ∧ Kept s₁ s₄ := by
        refine ⟨_, hstep₄, rfl, ?_, ?_, ?_, ?_, ?_, fun a ha => ?_⟩
        · simp [hk₃.rsp, hrsp₂, hk₃.mem _ (Int.le_of_eq hrsp₂), htop]
        · simp [hrax₃]
        · simp [hk₃.rsp, hrsp₂]
        · simp [hk₃.rbp, hrbp₂]
        · exact hk₃.output.trans hout₂
        · exact (hk₃.mem a (by omega)).trans (hmem₂ a ha)
      have hpc₅ : s₄.pc + oc.length =
          s.pc + (lc ++ code [.push .rax] ++ rc ++ code [.pop .rdi] ++ oc).length := by
        rw [hpc₄, hpc₃, hpc₂, hpc₁]
        simp [Nat.add_assoc]
      have hlast := hop s₄ l r (hoc.at (by
        simp only [List.length_append] at hpc₅ ⊢
        omega)) hrdi₄ hrax₄
      have hsteps : Steps (run libc asm) s s₄ :=
        ((hs₁.trans (.of_step hs₂)).trans hs₃).trans (.of_step hs₄)
      rw [← hpc₅]
      exact hlast.of_steps hsteps (hk₁.trans hk₄)

theorem compileAst_expr (he : e.IsExpr) (n : Nat) : (compileAst e n).2 = (n, true) := by
  induction e generalizing n with
  | num | var => rfl
  | binaryOp op left right ihl ihr =>
    obtain ⟨hop, hl, hr⟩ := he
    have hok : (compileOp op).2 = true := by
      simp only [List.mem_cons, List.not_mem_nil, or_false] at hop
      rcases hop with rfl | rfl | rfl | rfl <;> rfl
    simp only [compileAst, ihl hl n, ihr hr, hok]
  | print | letVar | label | goto | cond => exact he.elim

variable (libc) in
theorem expr_computes (he : e.IsExpr) (hf : Framed env s)
    (hc : CodeAt asm s.pc (compileAst e n).1) :
    Computes libc asm s (s.pc + (compileAst e n).1.length) (eval env e) := by
  induction e generalizing s n with
  | num value => exact Computes.of_code hc rfl rfl ⟨by simp, by simp, rfl, fun _ _ => rfl⟩ (by simp)
  | var name =>
    refine Computes.of_code hc rfl rfl ⟨by simp, by simp, rfl, fun _ _ => rfl⟩ ?_
    simpa using hf.vars name he
  | binaryOp op left right ihl ihr =>
    obtain ⟨hop, hl, hr⟩ := he
    exact binary_computes libc hf hc (fun s hf hc => ihl hl hf hc) (fun s hf hc => ihr hr hf hc)
      fun s l r hc hl hr => compileOp_computes hop hc hl hr
  | print | letVar | label | goto | cond => exact he.elim

variable (libc) in
theorem comparison_computes (he : e.IsComparison) (hf : Framed env s)
    (hc : CodeAt asm s.pc (compileAst e n).1) :
    Computes libc asm s (s.pc + (compileAst e n).1.length)
      ((evalComparison env e).map flag) := by
  cases e with
  | binaryOp op left right =>
    obtain ⟨hop, hl, hr⟩ := he
    have hcomp := binary_computes libc (f := fun l r => some (flag (compareOp op l r))) hf hc
      (fun s hf hc => expr_computes libc hl hf hc) (fun s hf hc => expr_computes libc hr hf hc)
      fun s l r hc hl hr => compileOp_compares hop hc hl hr
    have heval : (evalComparison env (.binaryOp op left right)).map flag =
        (do some (flag (compareOp op (← eval env left) (← eval env right)))) := by
      cases hel : eval env left <;> cases her : eval env right <;> simp [evalComparison, hel, her]
    rw [heval]
    exact hcomp
  | num | var | print | letVar | label | goto | cond => exact he.elim

end CS24.TeenyBasic
