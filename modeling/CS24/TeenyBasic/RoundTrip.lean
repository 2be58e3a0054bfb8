import CS24.TeenyBasic.Statements

/-!
# Parsing undoes printing

The loop of `main` gets the statements of a text in canonical layout in their order. In any
other layout it gets the same ones just if `GOTO` and `THEN` are followed by one blank, and
the last line does not need its newline.
-/

namespace CS24.TeenyBasic
open Machine

variable {text rest tail line : List Char} {x : Char} {n : Nat} {s' : Stream}
  {asts : List Node}

def LineEnd (text tail : List Char) (s' : Stream) : Prop :=
  (tail = [] ∧ s' = ended text) ∨ ∃ rest, tail = '\n' :: rest ∧ s' = pos text rest

theorem skipLineLoop_line (hend : LineEnd text tail s') (hline : '\n' ∉ line)
    (h : line ++ tail <:+ text) (hn : line.length < n) :
    skipLineLoop n (pos text (line ++ tail)) = .ok ((), s') := by
  induction line generalizing n with
  | nil =>
    obtain ⟨n, rfl⟩ := Nat.exists_eq_succ_of_ne_zero hn.ne'
    rcases hend with ⟨rfl, rfl⟩ | ⟨rest, rfl, rfl⟩
    · rw [skipLineLoop, List.nil_append, bind_of_ok fgetc_end]
      rfl
    · rw [skipLineLoop, List.nil_append, bind_of_ok (fgetc_pos h)]
      rfl
  | cons c line ih =>
    obtain ⟨n, rfl⟩ := Nat.exists_eq_succ_of_ne_zero (Nat.ne_of_gt (Nat.zero_lt_of_lt hn))
    rw [List.mem_cons, not_or] at hline
    have h' : c :: (line ++ tail) <:+ text := h
    rw [skipLineLoop, List.cons_append, bind_of_ok (fgetc_pos h')]
    simp only [Ne.symm hline.1, if_false]
    exact ih hline.2 (suffix_of_cons h') (Nat.lt_of_succ_lt_succ hn)

theorem skipLine_line (hend : LineEnd text tail s') (hline : '\n' ∉ line)
    (h : line ++ tail <:+ text) (hback : x :: rest = line ++ tail) :
    skipLine (pos text rest) = .ok ((), s') := by
  rw [skipLine, bind_of_ok (rewindOne_pos (hback ▸ h)),
    bind_of_ok (show reads Stream.after _ = .ok (_, _) from rfl), hback]
  refine skipLineLoop_line hend hline h ?_
  rw [pos, List.length_append]
  omega

theorem comment_parsed {body : List Char} (hv : (SourceLine.comment body).Valid)
    (hend : LineEnd text tail s') (h : '#' :: body ++ tail <:+ text) :
    Returns statement (pos text ('#' :: body ++ tail)) (none, s') := by
  obtain ⟨hline, hlen⟩ := hv
  have happend := List.takeWhile_append_dropWhile (p := fun c => !isspace c && !isOperator c)
    (l := body)
  have hall : (body.takeWhile fun c => !isspace c && !isOperator c).all fun c =>
      !isspace c && !isOperator c := List.all_takeWhile
  have hhead := List.head?_dropWhile_not (fun c => !isspace c && !isOperator c) body
  generalize (body.takeWhile fun c => !isspace c && !isOperator c) = word at happend hall hlen
  generalize (body.dropWhile fun c => !isspace c && !isOperator c) = more at happend hhead
  have htoken : IsToken ('#' :: word) :=
    ⟨List.cons_ne_nil _ _, fun c hc => (Option.some.inj hc) ▸ rfl, hall, hlen⟩
  have hskip : ∀ {s}, advanceUntilSeparator (pos text ('#' :: body ++ tail)) =
      .ok (some (cString ('#' :: word)), s) → skipLine s = .ok ((), s') →
      Returns statement (pos text ('#' :: body ++ tail)) (none, s') := fun hword hskip =>
    (statement_word hword).mpr ((wordRest_comment rfl hskip).mpr rfl)
  cases more with
  | nil =>
    obtain rfl : word = body := by rw [← happend, List.append_nil]
    rcases hend with ⟨rfl, rfl⟩ | ⟨rest, rfl, rfl⟩
    · rw [List.append_nil] at h ⊢
      exact (statement_none (htoken.read_end h)).mpr rfl
    · refine hskip (htoken.read_space rfl h) ?_
      exact skipLine_line (.inr ⟨rest, rfl, rfl⟩) List.not_mem_nil
        (suffix_of_append h) (List.nil_append _).symm
  | cons d more =>
    have hsep : isspace d ∨ isOperator d := by
      change (!isspace d && !isOperator d) = false at hhead
      cases hspace : isspace d with
      | true => exact .inl rfl
      | false =>
        rw [hspace, Bool.not_false, Bool.true_and, Bool.not_eq_false'] at hhead
        exact .inr hhead
    have htext : '#' :: body ++ tail = '#' :: word ++ d :: (more ++ tail) := by
      rw [← happend, List.cons_append, List.cons_append, List.append_assoc, List.cons_append]
    rw [← happend, List.mem_append, not_or] at hline
    rw [htext] at h hskip ⊢
    rcases hsep with hspace | hop
    · refine hskip (htoken.read_space hspace h) ?_
      exact skipLine_line hend hline.2 (suffix_of_append h) rfl
    · refine hskip (htoken.read_operator hop h) ?_
      obtain ⟨front, x, hx⟩ := List.eq_nil_or_concat' ('#' :: word) |>.resolve_left
        (List.cons_ne_nil _ _)
      have hmem : x ∈ '#' :: word := hx ▸ List.mem_append_right _ (List.mem_singleton_self x)
      have hnewline : '\n' ∉ x :: d :: more := by
        rw [List.mem_cons, not_or]
        refine ⟨?_, hline.2⟩
        rintro rfl
        rcases List.mem_cons.mp hmem with hmem | hmem
        · cases hmem
        · exact hline.1 hmem
      refine skipLine_line (x := x) hend hnewline ?_ rfl
      rw [hx, List.append_assoc] at h
      exact suffix_of_append h

def Quiet (rest : List Char) : Prop := nextChar rest ∉ ['+', '-', '*', '/']

theorem quiet_blanks {ws : List Char} (hws : ws.all isspace) : Quiet (ws ++ rest) ↔ Quiet rest := by
  rw [Quiet, nextChar, dropWhile_blanks hws]
  rfl

theorem quiet_newline (hrest : Quiet rest) : Quiet ('\n' :: rest) := by
  rw [Quiet, nextChar, List.dropWhile_cons_of_pos (by decide)]
  exact hrest

theorem quiet_char (hspace : isspace x = false) (hx : x ∉ ['+', '-', '*', '/']) :
    Quiet (x :: rest) := by
  rw [Quiet, nextChar, dropWhile_token hspace]
  exact hx

theorem quiet_isAlphanum (hx : x.isAlphanum) : Quiet (x :: rest) := by
  refine quiet_char (isAlphanum_token hx).1 fun hmem => ?_
  simp only [List.mem_cons, List.not_mem_nil, or_false] at hmem
  rcases hmem with rfl | rfl | rfl | rfl <;> cases hx

theorem SourceLine.quiet {l : SourceLine} (hv : l.Valid) (htail : Quiet tail) :
    Quiet (l.text ++ tail) := by
  cases l with
  | empty => exact htail
  | comment body => exact quiet_char rfl (by decide)
  | command c =>
    obtain ⟨x, w, htext, hx⟩ := Command.text_start hv
    change Quiet (c.text ++ tail)
    rw [htext]
    exact quiet_isAlphanum hx

/-- The statements that are parsed from `list` on are those of `nodes` and then those of the
rest just if the condition `Kept` is met. -/
def Sound (list nodes asts : List Node) (Kept : Prop) : Prop :=
  ∀ asts', list = nodes ++ asts' ↔ Kept ∧ asts = asts'

theorem Command.yields {c : Command} (hv : c.Valid) (htail : Follows tail)
    (h : c.text ++ tail <:+ text) (hasts : Yields (pos text tail) asts) :
    ∃ list, Yields (pos text (c.text ++ tail)) list ∧ Sound list [c.node] asts (c.Kept tail) := by
  obtain ⟨o, more, s₁, hst, hyields, houtcome⟩ := Command.parses hv htail h
  refine ⟨o.toList ++ (more ++ asts), yields_statement rfl hst (hyields asts hasts),
    fun asts' => ?_⟩
  rw [← List.append_assoc]
  by_cases hkept : c.Kept tail
  · obtain ⟨rfl, rfl⟩ := houtcome.kept hkept
    rw [Option.toList_some, List.append_nil, List.append_cancel_left_eq]
    exact ⟨fun heq => ⟨hkept, heq⟩, fun heq => heq.2⟩
  · refine ⟨fun heq => absurd ?_ (houtcome.lost hkept), fun heq => absurd heq.1 hkept⟩
    cases hlist : o.toList ++ more with
    | cons a list =>
      rw [hlist] at heq
      exact congrArg some (List.cons.inj heq).1
    | nil =>
      have hnil : tail = [] := Classical.byContradiction fun hne => houtcome.nonempty hne hlist
      obtain rfl := hnil
      rw [hlist, hasts.unique yields_end] at heq
      cases heq

theorem SourceLine.yields {l : SourceLine} (hv : l.Valid) (hend : LineEnd text tail s')
    (htail : Follows tail) (h : l.text ++ tail <:+ text) (hasts : Yields (pos text tail) asts) :
    ∃ list, Yields (pos text (l.text ++ tail)) list ∧
      Sound list l.nodes asts (l.SingleGaps ∧ (tail = [] → l.EndsWell)) := by
  have hsound : Sound asts [] asts (True ∧ (tail = [] → True)) := fun asts' =>
    ⟨fun heq => ⟨⟨trivial, fun _ => trivial⟩, heq⟩, fun heq => heq.2⟩
  cases l with
  | empty => exact ⟨asts, hasts, hsound⟩
  | command c => exact Command.yields hv htail h hasts
  | comment body =>
    refine ⟨asts, (yields_none rfl (comment_parsed hv hend h)).mpr ?_, hsound⟩
    rcases hend with ⟨rfl, rfl⟩ | ⟨rest, rfl, rfl⟩
    · rw [hasts.unique yields_end]
      exact yields_ended
    · exact (yields_blank rfl (suffix_of_append h)).mp hasts

theorem Item.quiet {i : Item} (hv : i.Valid) (hrest : Quiet rest) : Quiet (i.text ++ rest) := by
  cases i with
  | line l =>
    change Quiet (l.text ++ ['\n'] ++ rest)
    rw [List.append_assoc]
    exact SourceLine.quiet hv (quiet_newline hrest)
  | labelled name gap =>
    obtain ⟨x, w, htext, hx⟩ := Command.text_start (c := .label name) hv.1
    change Quiet (Command.text (.label name) ++ gap ++ rest)
    rw [htext]
    exact quiet_isAlphanum hx

theorem Item.yields {i : Item} (hv : i.Valid) (hrest : Quiet rest) (h : i.text ++ rest <:+ text)
    (hasts : Yields (pos text rest) asts) :
    ∃ list, Yields (pos text (i.text ++ rest)) list ∧ Sound list i.nodes asts i.SingleGaps := by
  cases i with
  | line l =>
    have htext : (Item.line l).text ++ rest = l.text ++ '\n' :: rest := List.append_assoc _ _ _
    rw [htext] at h ⊢
    have hsuffix : '\n' :: rest <:+ text := suffix_of_append h
    have hfollows : Follows ('\n' :: rest) :=
      ⟨fun b hb => (Option.some.inj hb) ▸ rfl, quiet_newline hrest⟩
    obtain ⟨list, hlist, hsound⟩ := SourceLine.yields hv (.inr ⟨rest, rfl, rfl⟩) hfollows h
      ((yields_blank rfl hsuffix).mpr hasts)
    refine ⟨list, hlist, fun asts' => (hsound asts').trans ?_⟩
    exact and_congr_left' ⟨fun hkept => hkept.1, fun hgaps => ⟨hgaps, fun hnil => by cases hnil⟩⟩
  | labelled name gap =>
    obtain ⟨hname, hne, hgap⟩ := hv
    have htext : (Item.labelled name gap).text ++ rest = name ++ (gap ++ rest) :=
      List.append_assoc _ _ _
    rw [htext] at h ⊢
    have hfollows : Follows (gap ++ rest) := by
      refine ⟨fun b hb => ?_, (quiet_blanks hgap).mpr hrest⟩
      cases gap with
      | nil => exact absurd rfl hne
      | cons b' gap =>
        obtain rfl := Option.some.inj hb
        rw [List.all_cons, Bool.and_eq_true] at hgap
        exact hgap.1
    obtain ⟨list, hlist, hsound⟩ := Command.yields (c := .label name) hname hfollows h
      ((yields_blanks hgap (suffix_of_append h)).mpr hasts)
    refine ⟨list, hlist, fun asts' => (hsound asts').trans (and_congr_left' ?_)⟩
    exact ⟨fun _ => trivial,
      fun _ => ⟨trivial, fun hnil => absurd (List.append_eq_nil_iff.mp hnil).1 hne⟩⟩

theorem items_yield {items : List Item} (hv : ∀ i ∈ items, i.Valid) (hrest : Quiet rest)
    (h : items.flatMap Item.text ++ rest <:+ text) (hasts : Yields (pos text rest) asts) :
    Quiet (items.flatMap Item.text ++ rest) ∧
      ∃ list, Yields (pos text (items.flatMap Item.text ++ rest)) list ∧
        Sound list (items.flatMap Item.nodes) asts (∀ i ∈ items, i.SingleGaps) := by
  induction items with
  | nil =>
    refine ⟨hrest, asts, hasts, fun asts' => ⟨fun heq => ⟨fun i hi => ?_, heq⟩, fun heq => heq.2⟩⟩
    cases hi
  | cons i items ih =>
    rw [List.flatMap_cons, List.append_assoc] at h ⊢
    rw [List.forall_mem_cons] at hv
    obtain ⟨hquiet, list, hlist, hsound⟩ := ih hv.2 (suffix_of_append h)
    obtain ⟨list', hlist', hsound'⟩ := Item.yields hv.1 hquiet h hlist
    refine ⟨Item.quiet hv.1 hquiet, list', hlist', fun asts' => ?_⟩
    rw [List.flatMap_cons, List.append_assoc, hsound', hsound, List.forall_mem_cons, and_assoc]

theorem last_yields {last : Option SourceLine} (hv : ∀ l ∈ last, l.Valid)
    (h : last.elim [] SourceLine.text <:+ text) : Quiet (last.elim [] SourceLine.text) ∧
      ∃ list, Yields (pos text (last.elim [] SourceLine.text)) list ∧
        (list = last.elim [] SourceLine.nodes ↔ ∀ l ∈ last, l.SingleGaps ∧ l.EndsWell) := by
  have hquiet : Quiet [] := by
    rw [Quiet]
    decide
  cases last with
  | none =>
    refine ⟨hquiet, [], yields_end, fun _ l hl => ?_, fun _ => rfl⟩
    cases hl
  | some l =>
    have hl := hv l rfl
    have hfollows : Follows [] := ⟨fun b hb => absurd hb (Option.not_mem_none b), hquiet⟩
    have h' : l.text ++ [] <:+ text := by
      rw [List.append_nil]
      exact h
    have hline := SourceLine.quiet hl hquiet
    rw [List.append_nil] at hline
    refine ⟨hline, ?_⟩
    obtain ⟨list, hlist, hsound⟩ :=
      SourceLine.yields hl (.inl ⟨rfl, rfl⟩) hfollows h' yields_end
    rw [List.append_nil] at hlist
    refine ⟨list, hlist, ?_⟩
    have hiff := hsound []
    rw [List.append_nil] at hiff
    refine hiff.trans ⟨fun hkept m hm => ?_, fun hkept => ?_⟩
    · obtain rfl := Option.some.inj hm
      exact ⟨hkept.1.1, hkept.1.2 rfl⟩
    · exact ⟨⟨(hkept l rfl).1, fun _ => (hkept l rfl).2⟩, rfl⟩

theorem yields_iff_spaced {p : SourceText} (hv : p.Valid) :
    Yields (fopen p.text) p.nodes ↔ p.Spaced := by
  have hlast : p.last.elim [] SourceLine.text <:+ p.text := List.suffix_append _ _
  obtain ⟨hquiet, asts, hasts, hsound⟩ := last_yields hv.2 hlast
  obtain ⟨-, list, hlist, hsound'⟩ := items_yield hv.1 hquiet (List.suffix_refl _) hasts
  have htotal : Yields (fopen p.text) list := by
    rw [fopen_eq_pos]
    exact hlist
  have hiff : list = p.nodes ↔ p.Spaced := by
    rw [SourceText.nodes, hsound', hsound, SourceText.Spaced]
  constructor
  · exact fun h => hiff.mp (htotal.unique h)
  · exact fun h => hiff.mpr h ▸ htotal

theorem yields_canonical {p : SourceText} (hv : p.Valid) :
    Yields (fopen p.canonical.text) p.nodes := by
  have h := (yields_iff_spaced (SourceText.canonical_valid hv)).mpr p.canonical_spaced
  rwa [SourceText.canonical_nodes] at h

/-- The labels in the statement are words. -/
def Node.Writable : Node → Prop
  | .label l => IsLabel l.toList
  | .goto l => IsLabel l.toList
  | .cond _ ifBranch => ifBranch.Writable
  | _ => True

theorem exists_infix {e : Node} (h : e.IsExpr) : ∃ x : Infix .expression, x.Valid ∧ x.node = e := by
  induction e with
  | num value =>
    have hlo := Int64.le_toInt value
    have hhi := Int64.toInt_lt value
    have hvalue : Int64.ofInt value.toInt = value := Int64.ofInt_toInt value
    by_cases hneg : value.toInt < 0
    · have hsign : Sign.minus.apply value.toInt.natAbs = value.toInt := by
        change -(value.toInt.natAbs : Int) = _
        omega
      refine ⟨.term (.factor (.num .minus value.toInt.natAbs)), ?_, ?_⟩
      · change _ ≤ Sign.minus.apply _ ∧ Sign.minus.apply _ < _
        rw [hsign]
        exact ⟨hlo, hhi⟩
      · change Node.num (.ofInt (Sign.minus.apply _)) = _
        rw [hsign, hvalue]
    · have hsign : Sign.none.apply value.toInt.natAbs = value.toInt := by
        change (value.toInt.natAbs : Int) = _
        omega
      refine ⟨.term (.factor (.num .none value.toInt.natAbs)), ?_, ?_⟩
      · change _ ≤ Sign.none.apply _ ∧ Sign.none.apply _ < _
        rw [hsign]
        exact ⟨hlo, hhi⟩
      · change Node.num (.ofInt (Sign.none.apply _)) = _
        rw [hsign, hvalue]
  | var name => exact ⟨.term (.factor (.var name)), h, rfl⟩
  | binaryOp op left right ihl ihr =>
    obtain ⟨hop, hl, hr⟩ := h
    obtain ⟨x, hx, rfl⟩ := ihl hl
    obtain ⟨y, hy, rfl⟩ := ihr hr
    simp only [List.mem_cons, List.not_mem_nil, or_false] at hop
    rcases hop with hadd | hsub | hmul
    · exact ⟨.add x [' '] op [' '] (.factor (.paren [] y [])),
        ⟨hx, rfl, by simp [hadd], rfl, rfl, hy, rfl⟩, rfl⟩
    · exact ⟨.add x [' '] op [' '] (.factor (.paren [] y [])),
        ⟨hx, rfl, by simp [hsub], rfl, rfl, hy, rfl⟩, rfl⟩
    · exact ⟨.term (.mul (.factor (.paren [] x [])) [' '] op [' '] (.paren [] y [])),
        ⟨⟨rfl, hx, rfl⟩, rfl, by simpa using hmul, rfl, rfl, hy, rfl⟩, rfl⟩
  | print | letVar | label | goto | cond => cases h

theorem exists_command {a : Node} (h : a.IsStatement) (hw : a.Writable) :
    ∃ c : Command, c.Valid ∧ c.node = a := by
  induction a with
  | label l => exact ⟨.label l.toList, hw, congrArg Node.label String.ofList_toList⟩
  | goto l =>
    exact ⟨.goto [' '] l.toList, ⟨List.cons_ne_nil _ _, rfl, hw⟩,
      congrArg Node.goto String.ofList_toList⟩
  | print e =>
    obtain ⟨x, hx, rfl⟩ := exists_infix h
    exact ⟨.print [' '] x, ⟨List.cons_ne_nil _ _, rfl, hx⟩, rfl⟩
  | letVar name e =>
    obtain ⟨x, hx, rfl⟩ := exists_infix h.2
    exact ⟨.assign [' '] name [' '] [' '] x,
      ⟨⟨List.cons_ne_nil _ _, rfl⟩, h.1, rfl, rfl, hx⟩, rfl⟩
  | cond condition ifBranch _ ih =>
    obtain ⟨hcondition, hbranch⟩ := h
    cases condition with
    | binaryOp op left right =>
      obtain ⟨hop, hl, hr⟩ := hcondition
      obtain ⟨x, hx, rfl⟩ := exists_infix hl
      obtain ⟨y, hy, rfl⟩ := exists_infix hr
      obtain ⟨c, hc, rfl⟩ := ih hbranch hw
      exact ⟨.cond [' '] x [' '] op [' '] y [' '] [' '] c, ⟨⟨List.cons_ne_nil _ _, rfl⟩, hx, rfl,
        hop, rfl, hy, ⟨List.cons_ne_nil _ _, rfl⟩, ⟨List.cons_ne_nil _ _, rfl⟩, hc⟩, rfl⟩
    | num | var | print | letVar | label | goto | cond => cases hcondition
  | num | binaryOp | var => cases h

theorem exists_text {asts : List Node} (h : ∀ a ∈ asts, a.IsStatement ∧ a.Writable) :
    ∃ p : SourceText, p.Valid ∧ p.nodes = asts := by
  have hitems : ∃ items : List Item, (∀ i ∈ items, i.Valid) ∧ items.flatMap Item.nodes = asts := by
    induction asts with
    | nil => exact ⟨[], List.forall_mem_nil _, rfl⟩
    | cons a asts ih =>
      rw [List.forall_mem_cons] at h
      obtain ⟨items, hv, hnodes⟩ := ih h.2
      obtain ⟨c, hc, rfl⟩ := exists_command h.1.1 h.1.2
      refine ⟨.line (.command c) :: items, List.forall_mem_cons.mpr ⟨hc, hv⟩, ?_⟩
      rw [List.flatMap_cons, hnodes]
      rfl
  obtain ⟨items, hv, hnodes⟩ := hitems
  exact ⟨⟨items, none⟩, ⟨hv, fun l hl => absurd hl (Option.not_mem_none l)⟩,
    (List.append_nil _).trans hnodes⟩

/-- Parsing undoes printing: the statements can be written down, and from each text in
canonical layout that they are written as, the loop of `main` gets just them and ends. -/
theorem parse_undoes_print {asts : List Node} (h : ∀ a ∈ asts, a.IsStatement ∧ a.Writable) :
    (∃ p : SourceText, p.Valid ∧ p.nodes = asts) ∧
      ∀ p : SourceText, p.Valid → p.nodes = asts →
        ∃ s', Returns (fun n => mainLoop n 0) (fopen p.canonical.text) ((asts, true), s') := by
  refine ⟨exists_text h, fun p hv hnodes => ?_⟩
  have hyields := yields_canonical hv
  rwa [hnodes] at hyields

/-- The lines `again` and `IF (A + 1) * 2 < 10 THEN GOTO again`. -/
def loopText : SourceText :=
  ⟨[.line (.command (.label "again".toList)), .line (.command
    (.cond [' '] (.term (.mul (.factor (.paren [] (.add (.term (.factor (.var 'A'))) [' '] '+' [' ']
      (.factor (.num .none 1))) [])) [' '] '*' [' '] (.num .none 2))) [' '] '<' [' ']
      (.term (.factor (.num .none 10))) [' '] [' '] (.goto [' '] "again".toList)))], none⟩

theorem isLabel_again : IsLabel "again".toList := ⟨by decide, by decide, by decide, by decide⟩

theorem loopText_valid : loopText.Valid := by
  have hnum : ∀ n < 100, (Infix.num .none n).Valid := fun n hn => by
    change (-2 ^ 63 : Int) ≤ n ∧ (n : Int) < 2 ^ 63
    omega
  refine ⟨fun i hi => ?_, fun l hl => absurd hl (Option.not_mem_none l)⟩
  simp only [loopText, List.mem_cons, List.not_mem_nil, or_false] at hi
  rcases hi with rfl | rfl
  · exact isLabel_again
  · exact ⟨⟨by decide, rfl⟩, ⟨⟨rfl, ⟨rfl, rfl, by decide, rfl, hnum 1 (by decide)⟩, rfl⟩, rfl,
      by decide, rfl, hnum 2 (by decide)⟩, rfl, by decide, rfl, hnum 10 (by decide),
      ⟨by decide, rfl⟩, ⟨by decide, rfl⟩, by decide, rfl, isLabel_again⟩

theorem parse_undoes_print_loop : ∃ s', Returns (fun n => mainLoop n 0)
    (fopen "again\nIF (A + 1) * 2 < 10 THEN GOTO again\n".toList)
    (([.label "again", .cond (.binaryOp '<' (.binaryOp '*' (.binaryOp '+' (.var 'A') (.num 1))
      (.num 2)) (.num 10)) (.goto "again")], true), s') := by
  have htext : loopText.canonical.text =
      "again\nIF (A + 1) * 2 < 10 THEN GOTO again\n".toList := by decide
  rw [← htext]
  refine (parse_undoes_print fun a ha => ?_).2 loopText loopText_valid rfl
  simp only [List.mem_cons, List.not_mem_nil, or_false] at ha
  rcases ha with rfl | rfl
  · exact ⟨show "again" ≠ "" by decide, isLabel_again⟩
  · exact ⟨⟨⟨by simp, ⟨by simp, ⟨by simp, rfl, trivial⟩, trivial⟩, trivial⟩, trivial⟩,
      isLabel_again⟩

/-- The same statements are parsed from a text as from its canonical layout just if there is
one blank after each `GOTO` and `THEN`, and the last line ends with neither a label nor a
number where its newline is missing. -/
theorem layout_irrelevant_iff {p : SourceText} (hv : p.Valid) :
    (∃ asts, Yields (fopen p.canonical.text) asts ∧ Yields (fopen p.text) asts) ↔ p.Spaced := by
  rw [← yields_iff_spaced hv]
  constructor
  · rintro ⟨asts, hcanonical, hyields⟩
    rwa [hcanonical.unique (yields_canonical hv)] at hyields
  · exact fun hyields => ⟨p.nodes, yields_canonical hv, hyields⟩

/-- `PRINT  A`, with two blanks and no newline. -/
def noNewline : SourceText := ⟨[], some (.command (.print [' ', ' '] (.term (.factor (.var 'A')))))⟩

theorem layout_irrelevant_print : ∃ asts, Yields (fopen "PRINT A\n".toList) asts ∧
    Yields (fopen "PRINT  A".toList) asts := by
  have hv : noNewline.Valid := by
    refine ⟨List.forall_mem_nil _, fun l hl => ?_⟩
    obtain rfl := Option.some.inj hl
    exact ⟨by decide, rfl, rfl⟩
  refine (layout_irrelevant_iff hv).mpr ⟨List.forall_mem_nil _, fun l hl => ?_⟩
  obtain rfl := Option.some.inj hl
  exact ⟨trivial, id⟩

/-- `GOTO  foo`, with two blanks. -/
def twoBlanks : SourceText :=
  ⟨[.line (.command (.goto [' ', ' '] "foo".toList))], none⟩

theorem twoBlanks_valid : twoBlanks.Valid := by
  refine ⟨fun i hi => ?_, fun l hl => absurd hl (Option.not_mem_none l)⟩
  obtain rfl := List.mem_singleton.mp hi
  exact ⟨by decide, rfl, by decide, by decide, by decide, by decide⟩

theorem layout_matters : twoBlanks.Valid ∧ twoBlanks.canonical.text = "GOTO foo\n".toList ∧
    twoBlanks.text = "GOTO  foo\n".toList ∧
    ¬ ∃ asts, Yields (fopen "GOTO foo\n".toList) asts ∧
      Yields (fopen "GOTO  foo\n".toList) asts := by
  have hcanonical : twoBlanks.canonical.text = "GOTO foo\n".toList := by decide
  have htext : twoBlanks.text = "GOTO  foo\n".toList := by decide
  refine ⟨twoBlanks_valid, hcanonical, htext, ?_⟩
  rintro ⟨asts, hone, htwo⟩
  rw [← hcanonical] at hone
  rw [← htext, hone.unique (yields_canonical twoBlanks_valid),
    yields_iff_spaced twoBlanks_valid] at htwo
  have hgap : (2 : Nat) = 1 := htwo.1 _ (List.mem_singleton_self _)
  cases hgap

end CS24.TeenyBasic
