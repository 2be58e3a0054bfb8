import CS24.TeenyBasic.Correctness

/-!
# The frame of the caller

At the `ret` of the footer the stack pointer is again where it was. The slot of `A` is the
cell in which `main` has saved `%rbp`, so the caller gets back the last value of `A`.
-/

namespace CS24.TeenyBasic
open Machine

variable {libc : Libc} {tail asm asm' body : List Line} {s s' : State} {env : Env} {n : Nat}
  {st : Node} {k prog : List Node} {c : Config} {top : Int} {out : List Int}

/-- Control is at the last line of the file, the `ret` of the footer. -/
def AtReturn (asm : List Line) (s : State) : Prop :=
  s.pc + 1 = asm.length ∧ asm[s.pc]? = some (.instr .ret)

/-- The footer with a line in place of its `ret` at which the machine stops. -/
def stoppingFooter : List Line :=
  code [.addImm 0xd0 .rsp, .pop .rbp, .movl 0, .leaq "" .rax]

structure SameButLast (asm asm' : List Line) : Prop where
  length : asm'.length = asm.length
  line : ∀ i, i + 1 ≠ asm.length → asm'[i]? = asm[i]?
  labels : ∀ l, labelIndex asm' l = labelIndex asm l

theorem labelIndex_append (xs ys : List Line) (l : String) : labelIndex (xs ++ ys) l =
    (labelIndex xs l).or ((labelIndex ys l).map (· + xs.length)) := by
  rw [labelIndex, List.findIdx?_append]
  rfl

theorem sameButLast_footer (xs : List Line) :
    SameButLast (xs ++ footer) (xs ++ stoppingFooter) := by
  constructor
  · rw [List.length_append, List.length_append]
    rfl
  · intro i hi
    rw [List.length_append] at hi
    by_cases hlt : i < xs.length
    · rw [List.getElem?_append_left hlt, List.getElem?_append_left hlt]
    · rw [List.getElem?_append_right (by omega), List.getElem?_append_right (by omega)]
      generalize hj : i - xs.length = j
      have hfour : footer.length = 4 := rfl
      match j with
      | 0 | 1 | 2 => rfl
      | 3 => omega
      | j + 4 => rfl
  · intro l
    rw [labelIndex_append, labelIndex_append]
    rfl

variable (libc) in
theorem SameButLast.run_eq (h : SameButLast asm asm') (hs : s.pc + 1 ≠ asm.length) :
    run libc asm' s = run libc asm s := by
  have hlabels : labelIndex asm' = labelIndex asm := funext h.labels
  have hexec : ∀ i, exec libc asm' s i = exec libc asm s i := by
    intro i
    cases i with
    | je | jmp | call => simp only [exec, hlabels]
    | _ => rfl
  rw [run, run, h.line s.pc hs]
  cases asm[s.pc]? with
  | none => rfl
  | some x =>
    cases x with
    | instr i => exact hexec i
    | label | directive => rfl

theorem SameButLast.first_visit (h : SameButLast asm asm') (hsteps : Steps (run libc asm) s s')
    (hs' : s'.pc + 1 = asm.length) : ∃ u, Steps (run libc asm') s u ∧ u.pc + 1 = asm.length ∧
      Steps (run libc asm) u s' := by
  obtain ⟨n, hn⟩ := hsteps
  induction n generalizing s with
  | zero => exact ⟨s, .refl s, Option.some.inj hn ▸ hs', ⟨0, hn⟩⟩
  | succ n ih =>
    by_cases hs : s.pc + 1 = asm.length
    · exact ⟨s, .refl s, hs, ⟨_, hn⟩⟩
    · rw [stepN] at hn
      cases hnext : run libc asm s with
      | none => simp [hnext] at hn
      | some v =>
        rw [hnext] at hn
        obtain ⟨u, hu, hpc, hrest⟩ := ih hn
        exact ⟨u, .step_trans ((h.run_eq libc hs).trans hnext) hu, hpc, hrest⟩

theorem run_stop (h : asm[s.pc]? = some (.instr (.leaq "" .rax))) : run libc asm s = none :=
  (run_instr libc h).trans (by simp [exec])

variable (libc) in
theorem stops_footer (h : Related stoppingFooter prog asm top ⟨[], env, out⟩ s) :
    ∃ s', Steps (run libc asm) s s' ∧ asm[s'.pc]? = some (.instr (.leaq "" .rax)) ∧
      s'.regs .rsp = top ∧ s'.regs .rbp = (env 'A').toInt ∧ s'.mem = s.mem := by
  obtain ⟨pc, hskip, hadd, hpop, hmovl, hlast, -⟩ := h.continues.arrive libc rfl
  have hrsp := h.rsp
  have hslot : s.regs .rbp + slot 'A' = top - 8 := by
    rw [h.rbp]
    exact Int.add_zero _
  have hcell : s.mem (top - 8) = (env 'A').toInt := by
    rw [← hslot]
    exact h.framed.vars 'A' rfl
  have hadj : top - 8 - 208 + 208 = top - 8 := by omega
  obtain ⟨s₁, hexec, hrsp₁, hrbp₁, hmem₁⟩ : ∃ s₁,
      execCode libc asm [.addImm 0xd0 .rsp, .pop .rbp, .movl 0] (s.jump pc) = some s₁ ∧
      s₁.regs .rsp = top ∧ s₁.regs .rbp = s.mem (top - 8) ∧ s₁.mem = s.mem :=
    ⟨_, rfl, by simp [hrsp], by simp [hrsp, hadj], rfl⟩
  have hcode : CodeAt asm (s.jump pc).pc (code [.addImm 0xd0 .rsp, .pop .rbp, .movl 0]) :=
    ⟨hadd, hpop, hmovl, trivial⟩
  obtain ⟨hs₁, hpc₁⟩ := steps_code rfl hcode hexec
  refine ⟨s₁, hskip.trans hs₁, ?_, hrsp₁, hrbp₁.trans hcell, hmem₁⟩
  rw [hpc₁]
  exact hlast

theorem Related.last_line (ha : Assembled stoppingFooter prog asm) (hwf : WellFormed prog)
    (hlibc : libc.Conforms) (h : Related stoppingFooter prog asm top c s)
    (hsteps : Steps (run libc asm) s s') (hlast : asm[s'.pc]? = some (.instr (.leaq "" .rax))) :
    ∃ c', Steps (step prog) c c' ∧ c'.rest = [] ∧ s'.regs .rsp = top ∧
      s'.regs .rbp = (c'.env 'A').toInt ∧ s'.mem top = asm.length := by
  have hstuck : run libc asm s' = none := run_stop hlast
  have hsim : Simulates (step prog) (run libc asm) (Related stoppingFooter prog asm top) :=
    simulates ha hwf hlibc
  obtain ⟨c', t, hc', hr, ht, hcase⟩ := hsim.backward h hsteps
  have hstop : step prog c' = none := by
    rcases hcase with hst | ⟨hstop, -⟩
    · obtain rfl := hst.eq_of_stuck hstuck
      cases hnext : step prog c' with
      | none => rfl
      | some d =>
        obtain ⟨v, ⟨m, hm⟩, -⟩ := hsim c' d t hr hnext
        simp [stepN, hstuck] at hm
    · exact hstop
  obtain ⟨rest, env, out⟩ := c'
  cases rest with
  | nil =>
    obtain ⟨v, hv, hvlast, hrsp, hrbp, hmem⟩ := stops_footer libc hr
    obtain rfl := hsteps.stuck_unique (ht.trans hv) hstuck (run_stop hvlast)
    exact ⟨_, hc', rfl, hrsp, hrbp, by rw [hmem, hr.ret]⟩
  | cons st k =>
    obtain ⟨-, v, hv, hvstop, -⟩ := stops_trapped libc hr hstop
    obtain rfl := hsteps.stuck_unique (ht.trans hv) hstuck (stopped_none hvstop)
    obtain ⟨r, hr, -⟩ := hvstop
    rw [hlast] at hr
    cases hr

theorem eq_of_return {u : State} (hret : asm[u.pc]? = some (.instr .ret))
    (hback : u.mem (u.regs .rsp) = asm.length) (h : Steps (run libc asm) u s')
    (hs' : s'.pc < asm.length) : s' = u := by
  obtain ⟨n, hn⟩ := h
  cases n with
  | zero => exact (Option.some.inj hn).symm
  | succ n =>
    have hstep := run_instr libc hret
    rw [stepN, hstep] at hn
    have hout : s' = (u.set .rsp (u.regs .rsp + 8)).jump (u.mem (u.regs .rsp)).toNat := by
      have hrest : Steps (run libc asm) _ s' := ⟨n, hn⟩
      refine hrest.eq_of_stuck ?_
      rw [run, State.jump_pc, hback, List.getElem?_eq_none (by simp)]
    rw [hout, State.jump_pc, hback] at hs'
    simp at hs'

theorem getElem?_last (xs ys : List Line) {x : Line} {i : Nat}
    (hi : i + 1 = (xs ++ (ys ++ [x])).length) : (xs ++ (ys ++ [x]))[i]? = some x := by
  rw [← List.append_assoc] at hi ⊢
  rw [List.length_append, List.length_singleton] at hi
  obtain rfl : i = (xs ++ ys).length := by omega
  exact List.getElem?_concat_length

/-- Whenever control comes to the `ret` of the footer, the stack pointer is the one with which
`main` was called; so is `%rbp` if and only if the program ends with the `A` it began with. -/
theorem frame_preserved (prog : List Node) (hwf : WellFormed prog) :
    ∃ asm, compileProgram prog = some asm ∧ ∀ (libc : Libc) (s s' : State), libc.Conforms →
      Entry asm s → Steps (run libc asm) s s' → AtReturn asm s' →
        s'.regs .rsp = s.regs .rsp ∧ ∃ c, Steps (step prog) ⟨prog, initialEnv s, []⟩ c ∧
          c.rest = [] ∧ (s'.regs .rbp = s.regs .rbp ↔ c.env 'A' = initialEnv s 'A') := by
  obtain ⟨body, hbody, ha⟩ := compileStatements_assembled hwf
  refine ⟨header ++ body ++ footer, by rw [compileProgram, hbody]; rfl,
    fun libc s s' hlibc hentry hsteps hret => ?_⟩
  have hsame := sameButLast_footer (header ++ body)
  have hstopping := ha stoppingFooter rfl
  have hentry' : Entry (header ++ body ++ stoppingFooter) s :=
    ⟨(hsame.labels "main").trans hentry.pc, by rw [hentry.ret, hsame.length], hentry.words,
      hentry.output⟩
  obtain ⟨t, ht, hr⟩ := entry_related libc hstopping hwf hentry'
  obtain ⟨u, hu, hpc, hrest⟩ := hsame.first_visit hsteps hret.1
  have hlast : (header ++ body ++ stoppingFooter)[u.pc]? = some (.instr (.leaq "" .rax)) :=
    getElem?_last _ (code [.addImm 0xd0 .rsp, .pop .rbp, .movl 0])
      (hpc.trans hsame.length.symm)
  have hreturn : (header ++ body ++ footer)[u.pc]? = some (.instr .ret) :=
    getElem?_last _ (code [.addImm 0xd0 .rsp, .pop .rbp, .movl 0]) hpc
  have htu : Steps (run libc (header ++ body ++ stoppingFooter)) t u := by
    rcases ht.total hu with htu | hut
    · exact htu
    · rw [hut.eq_of_stuck (run_stop hlast)]
      exact .refl u
  obtain ⟨c, hc, hrest_nil, hrsp, hrbp, hback⟩ := hr.last_line hstopping hwf hlibc htu hlast
  have hlt : s'.pc < (header ++ body ++ footer).length := by
    have hend := hret.1
    omega
  obtain rfl : s' = u := eq_of_return hreturn (by rw [hrsp, hback, hsame.length]) hrest hlt
  refine ⟨hrsp, c, hc, hrest_nil, ?_⟩
  have hcell : (initialEnv s 'A').toInt = s.regs .rbp := by
    obtain ⟨hlo, hhi⟩ := hentry.words 'A' rfl
    exact Int64.toInt_ofInt_of_le hlo hhi
  rw [hrbp, ← hcell, Int64.toInt_inj]

def assignProgram (name : Char) : List Node := [.letVar name (.num 1)]

def assignAsm (name : Char) : List Line := (compileProgram (assignProgram name)).getD []

/-- A caller with 7 in `%rbp`. -/
def assignEntry (name : Char) : State :=
  ⟨fun r => if r = .rsp then 0x8000 else if r = .rbp then 7 else 0,
    fun a => if a = 0x8000 then (assignAsm name).length else 0, false, false, false, 11, []⟩

theorem assignProgram_wellFormed {name : Char} (h : name.isUpper) :
    WellFormed (assignProgram name) := by
  refine ⟨?_, by simp [assignProgram, Node.Plain, Node.labels],
    by simp [assignProgram, Node.labels], by simp [assignProgram, Node.targets]⟩
  simpa [assignProgram, Node.IsStatement, Node.IsExpr] using h

theorem assignProgram_compiles {name : Char} (h : name.isUpper) :
    compileProgram (assignProgram name) = some (assignAsm name) := by
  obtain ⟨asm, hasm, -⟩ := compileProgram_assembled (assignProgram_wellFormed h)
  rw [assignAsm, hasm, Option.getD_some]

theorem printLibc_conforms : printLibc.Conforms :=
  ⟨fun _ _ _ => rfl, fun _ => rfl, fun _ => rfl, fun _ _ _ => rfl, fun _ => List.prefix_append ..⟩

theorem assignEntry_entry {name : Char} (hpc : labelIndex (assignAsm name) "main" = some 11) :
    Entry (assignAsm name) (assignEntry name) := by
  refine ⟨hpc, by simp [assignEntry], fun c hc => ?_, rfl⟩
  have hslot := slot_bounds hc
  have hcell : frameCell (assignEntry name) c = 7 ∨ frameCell (assignEntry name) c = 0 := by
    rw [frameCell]
    split_ifs
    · exact .inl rfl
    · have hne : (0x8000 : Int) - 8 + slot c ≠ 0x8000 := by omega
      exact .inr (if_neg hne)
  rcases hcell with hcell | hcell <;> rw [hcell] <;> decide

theorem assign_runs (name : Char) (rbp : Int)
    (h : (stepN (run printLibc (assignAsm name)) 9 (assignEntry name)).any (fun s =>
      decide (s.pc + 1 = (assignAsm name).length) &&
        (match (assignAsm name)[s.pc]? with | some (.instr .ret) => true | _ => false) &&
        decide (s.regs .rbp = rbp)) = true) :
    ∃ s', Steps (run printLibc (assignAsm name)) (assignEntry name) s' ∧
      AtReturn (assignAsm name) s' ∧ s'.regs .rbp = rbp := by
  obtain ⟨s', hs', hend⟩ := (Option.any_eq_true _ _).mp h
  rw [Bool.and_eq_true, Bool.and_eq_true, decide_eq_true_eq, decide_eq_true_eq] at hend
  obtain ⟨⟨hpc, hret⟩, hrbp⟩ := hend
  refine ⟨s', ⟨9, hs'⟩, ⟨hpc, ?_⟩, hrbp⟩
  split at hret
  · assumption
  · cases hret

/-- A program that assigns only `B` gives the caller its `%rbp` back. -/
theorem frame_preserved_other : ∃ s',
    Steps (run printLibc (assignAsm 'B')) (assignEntry 'B') s' ∧ AtReturn (assignAsm 'B') s' ∧
      s'.regs .rsp = 0x8000 ∧ s'.regs .rbp = 7 := by
  obtain ⟨s', hs', hret, -⟩ := assign_runs 'B' 7 (by decide +kernel)
  obtain ⟨asm, hasm, hframe⟩ := frame_preserved (assignProgram 'B') (assignProgram_wellFormed rfl)
  obtain rfl : assignAsm 'B' = asm := by rw [assignAsm, hasm, Option.getD_some]
  obtain ⟨hrsp, c, hc, hnil, hiff⟩ := hframe printLibc (assignEntry 'B') s' printLibc_conforms
    (assignEntry_entry (by decide +kernel)) hs' hret
  refine ⟨s', hs', hret, hrsp, hiff.mpr ?_⟩
  have hend : Steps (step (assignProgram 'B')) ⟨assignProgram 'B', initialEnv (assignEntry 'B'), []⟩
      ⟨[], Function.update (initialEnv (assignEntry 'B')) 'B' 1, []⟩ := .of_step rfl
  have hstop : step (assignProgram 'B') c = none := by rw [step, hnil]
  obtain rfl := hc.stuck_unique hend hstop rfl
  have hne : 'A' ≠ 'B' := by decide
  exact Function.update_of_ne hne 1 (initialEnv (assignEntry 'B'))

/-- `LET A = 1` gives the caller 1 in `%rbp`. -/
theorem assignment_overwrites_saved_rbp : WellFormed (assignProgram 'A') ∧
    compileProgram (assignProgram 'A') = some (assignAsm 'A') ∧ printLibc.Conforms ∧
    Entry (assignAsm 'A') (assignEntry 'A') ∧ ∃ s',
      Steps (run printLibc (assignAsm 'A')) (assignEntry 'A') s' ∧ AtReturn (assignAsm 'A') s' ∧
        s'.regs .rbp ≠ (assignEntry 'A').regs .rbp := by
  refine ⟨assignProgram_wellFormed rfl, assignProgram_compiles rfl, printLibc_conforms,
    assignEntry_entry (by decide +kernel), ?_⟩
  obtain ⟨s', hs', hret, hrbp⟩ := assign_runs 'A' 1 (by decide +kernel)
  exact ⟨s', hs', hret, by rw [hrbp]; decide⟩

end CS24.TeenyBasic
