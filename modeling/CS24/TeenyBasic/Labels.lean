import CS24.TeenyBasic.Expressions

/-!
# Labels of the generated file

Every label of the file is defined once: the user labels start with `L`, the labels of
`IF`s with `C`, and those are numbered consecutively. So a jump goes to the one line
that defines its target.
-/

namespace CS24.TeenyBasic

variable {asm xs ys body : List Line} {l : String} {j n : Nat} {e st : Node} {prog : List Node}

def defined : List Line → List String :=
  List.filterMap fun
    | .label l => some l
    | _ => none

@[simp] theorem defined_append : defined (xs ++ ys) = defined xs ++ defined ys :=
  List.filterMap_append ..

@[simp] theorem defined_code (is : List Instr) : defined (code is) = [] := by
  induction is with
  | nil => rfl
  | cons i is ih => exact ih

theorem mem_defined (h : asm[j]? = some (.label l)) : l ∈ defined asm :=
  List.mem_filterMap.mpr ⟨_, List.mem_of_getElem? h, rfl⟩

theorem labelIndex_cons {x : Line} (hne : x ≠ .label l) :
    labelIndex (x :: xs) l = (labelIndex xs l).map (· + 1) := by
  rw [labelIndex, List.findIdx?_cons, if_neg]
  · rfl
  · cases x with
    | label k => simpa using hne
    | directive | instr => exact Bool.false_ne_true

theorem labelIndex_eq (hn : (defined asm).Nodup) (hj : asm[j]? = some (.label l)) :
    labelIndex asm l = some j := by
  induction asm generalizing j with
  | nil => simp at hj
  | cons x xs ih =>
    cases j with
    | zero =>
      obtain rfl : x = .label l := by simpa using hj
      simp [labelIndex, List.findIdx?_cons]
    | succ j =>
      rw [List.getElem?_cons_succ] at hj
      have hl := mem_defined hj
      have hne : x ≠ .label l := by
        rintro rfl
        exact (List.nodup_cons.mp hn).1 hl
      have hn' : (defined xs).Nodup := hn.sublist ((List.sublist_cons_self x xs).filterMap _)
      rw [labelIndex_cons hne, ih hn' hj]
      rfl

theorem defined_expr (he : e.IsExpr) (n : Nat) : defined (compileAst e n).1 = [] := by
  induction e generalizing n with
  | num | var => rfl
  | binaryOp op left right ihl ihr =>
    obtain ⟨hop, hl, hr⟩ := he
    have hoc : defined (compileOp op).1 = [] := by
      simp only [List.mem_cons, List.not_mem_nil, or_false] at hop
      rcases hop with rfl | rfl | rfl | rfl <;> exact defined_code _
    simp [compileAst, ihl hl, ihr hr, hoc]
  | print | letVar | label | goto | cond => exact he.elim

theorem compileAst_comparison (he : e.IsComparison) (n : Nat) :
    (compileAst e n).2.1 = n ∧ defined (compileAst e n).1 = [] := by
  cases e with
  | binaryOp op left right =>
    obtain ⟨hop, hl, hr⟩ := he
    have hoc : defined (compileOp op).1 = [] := by
      simp only [List.mem_cons, List.not_mem_nil, or_false] at hop
      rcases hop with rfl | rfl | rfl <;> exact defined_code _
    simp [compileAst, compileAst_expr hl, compileAst_expr hr, defined_expr hl, defined_expr hr, hoc]
  | num | var | print | letVar | label | goto | cond => exact he.elim

theorem compileAst_statement (hst : st.IsStatement) (n : Nat) : ∃ k,
    (compileAst st n).2 = (n + k, true) ∧
      defined (compileAst st n).1 = st.labels.map userLabel ++ (List.range' n k).map condLabel := by
  induction st generalizing n with
  | print e =>
    have he := congrArg Prod.fst (compileAst_expr (e := e) hst n)
    exact ⟨0, by simp [compileAst, he], by simp [compileAst, defined_expr hst, Node.labels]⟩
  | letVar name value =>
    have he := congrArg Prod.fst (compileAst_expr hst.2 n)
    exact ⟨0, by simp [compileAst, he], by simp [compileAst, defined_expr hst.2, Node.labels]⟩
  | label l => exact ⟨0, rfl, rfl⟩
  | goto l => exact ⟨0, rfl, by simp [compileAst, Node.labels]⟩
  | cond c b _ ihb =>
    obtain ⟨hc, hb⟩ := hst
    obtain ⟨hcn, hcd⟩ := compileAst_comparison hc n
    obtain ⟨k, hk, hd⟩ := ihb hb n
    refine ⟨k + 1, ?_, ?_⟩
    · simp only [compileAst, hcn, hk, Nat.add_assoc]
    · simp only [compileAst, hcn, hcd, hk, hd, Node.labels, defined_append, defined_code,
        List.range'_concat, List.map_append]
      simp [defined]
  | num | var | binaryOp => exact hst.elim

theorem compileStatements_spec (hst : ∀ st ∈ prog, st.IsStatement) (n : Nat) : ∃ body k,
    compileStatements prog n = some body ∧
      (defined body).Perm ((prog.flatMap Node.labels).map userLabel ++
        (List.range' n k).map condLabel) := by
  induction prog generalizing n with
  | nil => exact ⟨[], 0, rfl, .refl _⟩
  | cons st prog ih =>
    obtain ⟨k, hk, hd⟩ := compileAst_statement (hst st (by simp)) n
    obtain ⟨body, m, hbody, hperm⟩ := ih (fun st h => hst st (by simp [h])) (n + k)
    refine ⟨(compileAst st n).1 ++ body, k + m, ?_, ?_⟩
    · rw [compileStatements]
      rcases hst' : compileAst st n with ⟨ac, labelNo, ok⟩
      rw [hst'] at hk
      obtain ⟨rfl, rfl⟩ := Prod.mk.inj hk
      simp [hbody]
    · rw [defined_append, hd, ← List.range'_append_1]
      simp only [List.flatMap_cons, List.map_append, List.append_assoc]
      refine .append_left _ ((hperm.append_left _).trans ?_)
      rw [← List.append_assoc, ← List.append_assoc]
      exact List.perm_append_comm.append_right _

theorem userLabel_toList (l : String) : (userLabel l).toList = 'L' :: l.toList := by
  simp [userLabel]

theorem condLabel_toList (n : Nat) : (condLabel n).toList = 'C' :: Nat.toDigits 10 n := by
  simp [condLabel]

theorem userLabel_injective : Function.Injective userLabel := by
  intro l k h
  have htail := congrArg (fun s => s.toList.tail) h
  simp only [userLabel_toList, List.tail_cons] at htail
  exact String.toList_inj.mp htail

theorem condLabel_injective : Function.Injective condLabel := by
  intro m n h
  have htail := congrArg (fun s => s.toList.tail) h
  simp only [condLabel_toList, List.tail_cons] at htail
  have hm := Nat.ofDigitChars_toDigits (n := m) (b := 10) (by decide) (by decide)
  rw [← hm, htail, Nat.ofDigitChars_toDigits (by decide) (by decide)]

theorem defined_nodup {k : Nat} {tail : List Line} (hdist : (prog.flatMap Node.labels).Nodup)
    (hperm : (defined body).Perm ((prog.flatMap Node.labels).map userLabel ++
      (List.range' n k).map condLabel)) (htail : defined tail = []) :
    (defined (header ++ body ++ tail)).Nodup := by
  have hhead : ∀ s ∈ defined body, s.toList.head? = some 'L' ∨ s.toList.head? = some 'C' := by
    intro s hs
    rcases List.mem_append.mp (hperm.mem_iff.mp hs) with hs | hs
    · obtain ⟨l, -, rfl⟩ := List.mem_map.mp hs
      exact .inl (by rw [userLabel_toList]; rfl)
    · obtain ⟨m, -, rfl⟩ := List.mem_map.mp hs
      exact .inr (by rw [condLabel_toList]; rfl)
  have hbody : (defined body).Nodup := by
    refine hperm.nodup_iff.mpr (List.nodup_append.mpr ⟨hdist.map userLabel_injective,
      (List.nodup_range' 1).map condLabel_injective, ?_⟩)
    rintro _ hl _ hm rfl
    obtain ⟨l, -, rfl⟩ := List.mem_map.mp hl
    obtain ⟨m, -, hm⟩ := List.mem_map.mp hm
    have h := congrArg (fun s => s.toList.head?) hm
    simp [userLabel_toList, condLabel_toList] at h
  rw [defined_append, defined_append]
  have hheader : defined header = ["intfmt", "print_int", "main"] := rfl
  rw [hheader, htail, List.append_nil]
  refine List.nodup_append.mpr ⟨by decide, hbody, ?_⟩
  rintro s hs _ hb rfl
  simp only [List.mem_cons, List.not_mem_nil, or_false] at hs
  rcases hs with rfl | rfl | rfl <;> rcases hhead _ hb with h | h <;> simp at h

end CS24.TeenyBasic
