import CS24.TeenyBasic.Labels

/-!
# The labels of IFs

An `IF` jumps to the number that `label_no` has before its body is compiled, and defines the
one that it has afterwards. When `IF`s are nested, the number of the jump is defined by the
innermost of them, and only labels lie between that definition and the end of the body.
-/

namespace CS24.TeenyBasic

variable {prog : List Node} {pre post body : List Line} {st c b : Node} {m n k : Nat} {l : String}

/-- The code before the body of an `IF`, whose condition is compiled at the number `n`. -/
def branchHead (c : Node) (n : Nat) : List Line :=
  (compileAst c n).1 ++ code [.test .rax .rax, .je (condLabel (compileAst c n).2.1)]

/-- Compiling the statement at the number `n` emits the code of the part `st'` at the number
`k`, after the lines `pre` and before the lines `post`. -/
inductive Contains : Node → Nat → List Line → Node → Nat → List Line → Prop where
  | here {st : Node} {n : Nat} : Contains st n [] st n []
  | branch {c b st' : Node} {n k : Nat} {pre post : List Line} :
      Contains b (compileAst c n).2.1 pre st' k post →
        Contains (.cond c b) n (branchHead c n ++ pre) st' k
          (post ++ [.label (condLabel (compileAst b (compileAst c n).2.1).2.1)])

/-- The same for a sequence of statements. -/
inductive Emits : List Node → Nat → List Line → Node → Nat → List Line → Prop where
  | head {st st' : Node} {prog : List Node} {n k : Nat} {pre post rest : List Line} :
      Contains st n pre st' k post → compileStatements prog (compileAst st n).2.1 = some rest →
        Emits (st :: prog) n pre st' k (post ++ rest)
  | tail {st st' : Node} {prog : List Node} {n k : Nat} {pre post : List Line} :
      Emits prog (compileAst st n).2.1 pre st' k post →
        Emits (st :: prog) n ((compileAst st n).1 ++ pre) st' k post

theorem compileAst_cond (c b : Node) (n : Nat) : (compileAst (.cond c b) n).1 =
    branchHead c n ++ (compileAst b (compileAst c n).2.1).1 ++
      [.label (condLabel (compileAst b (compileAst c n).2.1).2.1)] := rfl

theorem Contains.code_eq (h : Contains st n pre b k post) :
    (compileAst st n).1 = pre ++ (compileAst b k).1 ++ post := by
  induction h with
  | here => simp
  | branch h ih =>
    rw [compileAst_cond, ih]
    simp only [List.append_assoc]

theorem Emits.code_eq (hst : ∀ st ∈ prog, st.IsStatement) (h : Emits prog n pre b k post) :
    compileStatements prog n = some (pre ++ (compileAst b k).1 ++ post) := by
  have hfirst : ∀ {st : Node} {prog : List Node} {n : Nat}, st.IsStatement →
      compileStatements (st :: prog) n =
        (compileStatements prog (compileAst st n).2.1).map ((compileAst st n).1 ++ ·) := by
    intro st prog n hst
    obtain ⟨k, hk, -⟩ := compileAst_statement hst n
    rw [compileStatements]
    rcases hac : compileAst st n with ⟨ac, labelNo, ok⟩
    rw [hac] at hk
    obtain ⟨rfl, rfl⟩ := Prod.mk.inj hk
    rfl
  induction h with
  | @head st b prog n k pre post rest hc hrest =>
    rw [hfirst (hst st (by simp)), hrest, Option.map_some, hc.code_eq]
    simp only [List.append_assoc]
  | @tail st b prog n k pre post h ih =>
    rw [hfirst (hst st (by simp)), ih fun u hu => hst u (by simp [hu]), Option.map_some]
    simp only [List.append_assoc]

def NoBranch (xs : List Line) : Prop := ∀ l, Line.instr (.je l) ∉ xs

theorem noBranch_op (op : Char) : NoBranch (compileOp op).1 := by
  intro l
  unfold compileOp
  split <;> simp [code]

theorem noBranch_expr {e : Node} (he : e.IsExpr) (n : Nat) : NoBranch (compileAst e n).1 := by
  induction e generalizing n with
  | num | var => simp [NoBranch, compileAst, code]
  | binaryOp op left right ihl ihr =>
    intro l
    have hl := ihl he.2.1 n l
    have hr := ihr he.2.2 (compileAst left n).2.1 l
    have hop := noBranch_op op l
    simp [compileAst, code, hl, hr, hop]
  | print | letVar | label | goto | cond => exact he.elim

theorem noBranch_comparison {e : Node} (he : e.IsComparison) (n : Nat) :
    NoBranch (compileAst e n).1 := by
  cases e with
  | binaryOp op left right =>
    intro l
    have hl := noBranch_expr he.2.1 n l
    have hr := noBranch_expr he.2.2 (compileAst left n).2.1 l
    have hop := noBranch_op op l
    simp [compileAst, code, hl, hr, hop]
  | num | var | print | letVar | label | goto | cond => exact he.elim

/-- The place of the jump of an `IF` that is emitted after the lines `pre`. -/
def jumpAt (pre : List Line) (c : Node) (n : Nat) : Nat :=
  pre.length + (compileAst c n).1.length + 1

theorem contains_of_jump (hst : st.IsStatement) {p : Nat}
    (hp : (compileAst st n).1[p]? = some (.instr (.je l))) :
    ∃ pre c b k post, Contains st n pre (.cond c b) k post ∧ p = jumpAt pre c k := by
  induction st generalizing n p with
  | print e =>
    have hmem : Line.instr (.je l) ∈ (compileAst (.print e) n).1 := List.mem_of_getElem? hp
    have hno := noBranch_expr hst n l
    simp [compileAst, code, hno] at hmem
  | letVar name value =>
    have hmem : Line.instr (.je l) ∈ (compileAst (.letVar name value) n).1 :=
      List.mem_of_getElem? hp
    have hno := noBranch_expr hst.2 n l
    simp [compileAst, code, hno] at hmem
  | label l' =>
    have hmem : Line.instr (.je l) ∈ (compileAst (.label l') n).1 := List.mem_of_getElem? hp
    simp [compileAst] at hmem
  | goto l' =>
    have hmem : Line.instr (.je l) ∈ (compileAst (.goto l') n).1 := List.mem_of_getElem? hp
    simp [compileAst, code] at hmem
  | cond c b _ ihb =>
    have hno := noBranch_comparison hst.1 n l
    have hhead : (branchHead c n).length = (compileAst c n).1.length + 2 := by
      rw [branchHead, List.length_append, code_length]
      rfl
    rw [compileAst_cond, List.append_assoc] at hp
    by_cases hlt : p < (branchHead c n).length
    · rw [List.getElem?_append_left hlt] at hp
      refine ⟨[], c, b, n, [], .here, ?_⟩
      by_cases hin : p < (compileAst c n).1.length
      · rw [branchHead, List.getElem?_append_left hin] at hp
        exact absurd (List.mem_of_getElem? hp) hno
      · have hcases : p = (compileAst c n).1.length ∨ p = (compileAst c n).1.length + 1 := by omega
        rcases hcases with rfl | rfl
        · rw [branchHead, List.getElem?_append_right le_rfl, Nat.sub_self] at hp
          cases hp
        · simp [jumpAt]
    · obtain ⟨q, rfl⟩ : ∃ q, p = (branchHead c n).length + q :=
        ⟨p - (branchHead c n).length, by omega⟩
      rw [List.getElem?_append_right (by omega), Nat.add_sub_cancel_left] at hp
      by_cases hin : q < (compileAst b (compileAst c n).2.1).1.length
      · rw [List.getElem?_append_left hin] at hp
        obtain ⟨pre, c', b', k, post, hcontains, rfl⟩ := ihb hst.2 hp
        refine ⟨_, c', b', k, _, .branch hcontains, ?_⟩
        simp only [jumpAt, List.length_append]
        omega
      · rw [List.getElem?_append_right (by omega)] at hp
        have hmem := List.mem_of_getElem? hp
        simp at hmem
  | num | var | binaryOp => exact hst.elim

theorem emits_of_jump (hst : ∀ st ∈ prog, st.IsStatement)
    (hbody : compileStatements prog n = some body) {p : Nat}
    (hp : body[p]? = some (.instr (.je l))) :
    ∃ pre c b k post, Emits prog n pre (.cond c b) k post ∧ p = jumpAt pre c k := by
  induction prog generalizing n body p with
  | nil =>
    obtain rfl : [] = body := Option.some.inj hbody
    simp at hp
  | cons st prog ih =>
    rw [compileStatements] at hbody
    split at hbody
    · rename_i ac labelNo hac
      obtain ⟨rest, hrest, rfl⟩ := Option.map_eq_some_iff.mp hbody
      have hac₁ : (compileAst st n).1 = ac := by rw [hac]
      have hac₂ : (compileAst st n).2.1 = labelNo := by rw [hac]
      subst hac₁ hac₂
      by_cases hlt : p < (compileAst st n).1.length
      · rw [List.getElem?_append_left hlt] at hp
        obtain ⟨pre, c, b, k, post, hcontains, rfl⟩ := contains_of_jump (hst st (by simp)) hp
        exact ⟨pre, c, b, k, _, .head hcontains hrest, rfl⟩
      · obtain ⟨q, rfl⟩ : ∃ q, p = (compileAst st n).1.length + q :=
          ⟨p - (compileAst st n).1.length, by omega⟩
        rw [List.getElem?_append_right (by omega), Nat.add_sub_cancel_left] at hp
        obtain ⟨pre, c, b, k, post, hemits, rfl⟩ := ih (fun u hu => hst u (by simp [hu])) hrest hp
        refine ⟨_, c, b, k, post, .tail hemits, ?_⟩
        simp only [jumpAt, List.length_append]
        omega
    · cases hbody

theorem Contains.isStatement (h : Contains st n pre b k post) (hst : st.IsStatement) :
    b.IsStatement := by
  induction h with
  | here => exact hst
  | branch _ ih => exact ih hst.2

theorem Emits.isStatement (h : Emits prog n pre b k post) (hst : ∀ st ∈ prog, st.IsStatement) :
    b.IsStatement := by
  induction h with
  | head h _ => exact h.isStatement (hst _ (by simp))
  | tail _ ih => exact ih fun u hu => hst u (by simp [hu])

def LabelBehind (xs : List Line) (own : String) (n : Nat) : Prop :=
  ∃ q ≤ xs.length, (xs ++ [.label own])[q]? = some (.label (condLabel n)) ∧
    ∀ r, q ≤ r → r < xs.length → ∃ l, xs[r]? = some (.label l)

theorem labelBehind_self (xs : List Line) (n : Nat) : LabelBehind xs (condLabel n) n := by
  refine ⟨xs.length, le_rfl, ?_, fun r h₁ h₂ => by omega⟩
  rw [List.getElem?_append_right le_rfl, Nat.sub_self]
  rfl

theorem label_of_body (hst : st.IsStatement) (n : Nat) :
    LabelBehind (compileAst st n).1 (condLabel (compileAst st n).2.1) n := by
  induction st generalizing n with
  | print e =>
    rw [show (compileAst (.print e) n).2.1 = n from
      congrArg Prod.fst (compileAst_expr (e := e) hst n)]
    exact labelBehind_self _ n
  | letVar name value =>
    rw [show (compileAst (.letVar name value) n).2.1 = n from
      congrArg Prod.fst (compileAst_expr hst.2 n)]
    exact labelBehind_self _ n
  | label l => exact labelBehind_self _ n
  | goto l => exact labelBehind_self _ n
  | cond c b _ ihb =>
    have hcn := (compileAst_comparison hst.1 n).1
    obtain ⟨q, hq, hlabel, hrest⟩ := ihb hst.2 n
    rw [compileAst_cond, hcn]
    generalize hbc : (compileAst b n).1 = bc at hq hlabel hrest
    generalize condLabel (compileAst b n).2.1 = own at hlabel
    generalize branchHead c n = head
    have hlength : (head ++ bc ++ [Line.label own]).length = head.length + bc.length + 1 := by
      rw [List.length_append, List.length_append, List.length_singleton]
    refine ⟨head.length + q, by omega, ?_, fun r h₁ h₂ => ?_⟩
    · rw [List.getElem?_append_left (by omega), List.append_assoc,
        List.getElem?_append_right (by omega), Nat.add_sub_cancel_left, hlabel]
    · obtain ⟨r, rfl⟩ : ∃ r', r = head.length + r' := ⟨r - head.length, by omega⟩
      rw [List.append_assoc, List.getElem?_append_right (by omega), Nat.add_sub_cancel_left]
      by_cases hr : r < bc.length
      · obtain ⟨l, hl⟩ := hrest r (by omega) hr
        exact ⟨l, by rw [List.getElem?_append_left hr, hl]⟩
      · obtain rfl : r = bc.length := by omega
        exact ⟨own, by rw [List.getElem?_append_right le_rfl, Nat.sub_self]; rfl⟩
  | num | var | binaryOp => exact hst.elim

/-- Where the code of the body ends, of an `IF` that is emitted after the lines `pre`. -/
def endOfBody (pre : List Line) (c b : Node) (n : Nat) : Nat :=
  pre.length + (branchHead c n).length + (compileAst b (compileAst c n).2.1).1.length

theorem label_of_jump (hc : c.IsComparison) (hb : b.IsStatement)
    (hbody : body = pre ++ (compileAst (.cond c b) n).1 ++ post) :
    body[jumpAt pre c n]? = some (.instr (.je (condLabel n))) ∧
      ∃ q, jumpAt pre c n < q ∧ q ≤ endOfBody pre c b n ∧
        body[q]? = some (.label (condLabel n)) ∧
        ∀ r, q ≤ r → r < endOfBody pre c b n → ∃ l, body[r]? = some (.label l) := by
  have hcn := (compileAst_comparison hc n).1
  obtain ⟨q, hq, hlabel, hrest⟩ := label_of_body hb n
  have hhead : branchHead c n =
      (compileAst c n).1 ++ code [.test .rax .rax, .je (condLabel n)] := by
    rw [branchHead, hcn]
  rw [compileAst_cond, hcn] at hbody
  have hlength : (branchHead c n).length = (compileAst c n).1.length + 2 := by
    rw [hhead, List.length_append, code_length]
    rfl
  rw [jumpAt, endOfBody, hcn, hbody]
  generalize hbc : (compileAst b n).1 = bc at hq hlabel hrest ⊢
  generalize condLabel (compileAst b n).2.1 = own at hlabel ⊢
  have hat : ∀ i, i < bc.length + 1 →
      (pre ++ (branchHead c n ++ bc ++ [.label own]) ++ post)[
        pre.length + (branchHead c n).length + i]? = (bc ++ [.label own])[i]? := by
    intro i hi
    rw [List.getElem?_append_left (by simp; omega), List.getElem?_append_right (by omega),
      List.append_assoc, List.getElem?_append_right (by omega)]
    congr 1
    omega
  refine ⟨?_, pre.length + (branchHead c n).length + q, by omega, by omega, ?_, ?_⟩
  · rw [List.getElem?_append_left (by simp; omega), List.getElem?_append_right (by omega),
      List.append_assoc, List.getElem?_append_left (by omega), hhead,
      List.getElem?_append_right (by omega)]
    have hone : pre.length + (compileAst c n).1.length + 1 - pre.length -
        (compileAst c n).1.length = 1 := by omega
    rw [hone]
    rfl
  · rw [hat q (by omega), hlabel]
  · intro r h₁ h₂
    obtain ⟨i, rfl⟩ : ∃ i, r = pre.length + (branchHead c n).length + i :=
      ⟨r - (pre.length + (branchHead c n).length), by omega⟩
    obtain ⟨l, hl⟩ := hrest i (by omega) (by omega)
    exact ⟨l, by rw [hat i (by omega), List.getElem?_append_left (by omega), hl]⟩

theorem condLabel_ne (k : Nat) (l : String) : condLabel k ≠ userLabel l := by
  intro h
  have hhead := congrArg (fun s => s.toList.head?) h
  simp [userLabel_toList, condLabel_toList] at hhead

theorem condLabel_not_mem_header (k : Nat) : condLabel k ∉ ["main", "print_int", "intfmt"] := by
  intro h
  have hhead : (condLabel k).toList.head? = some 'C' := by
    rw [condLabel_toList]
    rfl
  simp only [List.mem_cons, List.not_mem_nil, or_false] at h
  rcases h with h | h | h <;> rw [h] at hhead <;> simp at hhead

/-- Whatever the nesting: the labels of `IF`s are defined at most once and are no other labels,
and behind the body of each `IF`, apart from labels, lies the one that it jumps to. -/
theorem if_labels_sound (hst : ∀ st ∈ prog, st.IsStatement) (n : Nat) :
    ∃ body, compileStatements prog n = some body ∧
      (∀ k, (defined body).count (condLabel k) ≤ 1) ∧
      (∀ p l, body[p]? = some (.instr (.je l)) → ∃ k pre c b post, l = condLabel k ∧
        Emits prog n pre (.cond c b) k post ∧
        body = pre ++ (compileAst (.cond c b) k).1 ++ post ∧ p = jumpAt pre c k ∧
        ∃ q, p < q ∧ q ≤ endOfBody pre c b k ∧ body[q]? = some (.label l) ∧
          ∀ r, q ≤ r → r < endOfBody pre c b k → ∃ l', body[r]? = some (.label l')) ∧
      ∀ k, (∀ l, condLabel k ≠ userLabel l) ∧
        condLabel k ∉ ["main", "print_int", "intfmt"] := by
  obtain ⟨body, m, hbody, hperm⟩ := compileStatements_spec hst n
  refine ⟨body, hbody, fun k => ?_, fun p l hp => ?_,
    fun k => ⟨condLabel_ne k, condLabel_not_mem_header k⟩⟩
  · have huser : ((prog.flatMap Node.labels).map userLabel).count (condLabel k) = 0 := by
      rw [List.count_eq_zero]
      intro hmem
      obtain ⟨l, -, hl⟩ := List.mem_map.mp hmem
      exact condLabel_ne k l hl.symm
    rw [hperm.count_eq, List.count_append, huser, Nat.zero_add]
    exact List.nodup_iff_count_le_one.mp ((List.nodup_range' 1).map condLabel_injective) _
  · obtain ⟨pre, c, b, k, post, hemits, rfl⟩ := emits_of_jump hst hbody hp
    have hcode := Option.some.inj (hbody.symm.trans (hemits.code_eq hst))
    obtain ⟨hc, hb⟩ : c.IsComparison ∧ b.IsStatement := hemits.isStatement hst
    obtain ⟨hjump, q, hlt, hle, hlabel, hrest⟩ := label_of_jump hc hb hcode
    obtain rfl : l = condLabel k := by
      rw [hjump] at hp
      cases hp
      rfl
    exact ⟨k, pre, c, b, post, rfl, hemits, hcode, rfl, q, hlt, hle, hlabel, hrest⟩

def nestedProgram : List Node :=
  let c : Node := .binaryOp '<' (.var 'A') (.num 1)
  [.cond c (.cond c (.print (.var 'A')))]

/-- Two nested `IF`s with one number for both jumps. -/
theorem if_labels_sound_nested : ∃ body, compileStatements nestedProgram 0 = some body ∧
    ∀ k, (defined body).count (condLabel k) ≤ 1 := by
  have hst : ∀ st ∈ nestedProgram, st.IsStatement := by
    simp [nestedProgram, Node.IsStatement, Node.IsComparison, Node.IsExpr]
  obtain ⟨body, hbody, hcount, -⟩ := if_labels_sound hst 0
  exact ⟨body, hbody, hcount⟩

end CS24.TeenyBasic
