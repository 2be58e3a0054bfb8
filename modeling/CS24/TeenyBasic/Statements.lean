import CS24.TeenyBasic.Reading

/-!
# Reading statements

What one call of `parse` takes from a text with one statement after the other, and what is
left to the next call. A blank too many after `GOTO` or `THEN` makes the parser see an empty
word there, and the rest of the statement is left as a statement of its own. At the end of
the file a word that no separator follows is lost.
-/

namespace CS24.TeenyBasic
open Machine

variable {text ws rest t w : List Char} {b c last : Char} {s s₁ : Stream} {k : Level}
  {asts : List Node}

theorem read_blank (hb : isspace b) (h : b :: t <:+ text) :
    advanceUntilSeparator (pos text (b :: t)) = .ok (some [], pos text t) := by
  rw [advanceUntilSeparator_pos, advanceUntilSeparatorLoop_space hb h]
  rfl

theorem statement_blank (hb : isspace b) (h : b :: t <:+ text) :
    Returns statement (pos text (b :: t)) (none, pos text t) := by
  exact (statement_word (read_blank hb h)).mpr (wordRest_empty.mpr rfl)

theorem yields_blank (hb : isspace b) (h : b :: t <:+ text) :
    Yields (pos text (b :: t)) asts ↔ Yields (pos text t) asts :=
  yields_none rfl (statement_blank hb h)

theorem yields_blanks (hws : ws.all isspace) (h : ws ++ t <:+ text) :
    Yields (pos text (ws ++ t)) asts ↔ Yields (pos text t) asts := by
  induction ws with
  | nil => rfl
  | cons b ws ih =>
    rw [List.all_cons, Bool.and_eq_true] at hws
    have h' : b :: (ws ++ t) <:+ text := h
    rw [List.cons_append, yields_blank hws.1 h', ih hws.2 (suffix_of_cons h')]

theorem yields_ended : Yields (ended text) [] := yields_eof rfl

theorem yields_end : Yields (pos text []) [] := by
  have hword : advanceUntilSeparator (pos text []) = .ok (none, ended text) := by
    rw [advanceUntilSeparator_pos, advanceUntilSeparatorLoop_end]
  exact (yields_none rfl ((statement_none hword).mpr rfl)).mpr yields_ended

theorem yields_last (hlast : text.getLast? = some last) : Yields (pos text [last]) [] := by
  obtain ⟨before, rfl⟩ := List.getLast?_eq_some_iff.mp hlast
  have h : [last] <:+ before ++ [last] := List.suffix_append _ _
  cases hb : isspace last with
  | true => exact (yields_blank hb h).mpr yields_end
  | false =>
    have hword : advanceUntilSeparator (pos (before ++ [last]) [last]) =
        .ok (none, ended (before ++ [last])) := by
      rw [advanceUntilSeparator_pos, List.length_singleton,
        advanceUntilSeparatorLoop_step hb (.inr rfl) (Nat.zero_le _) h,
        advanceUntilSeparatorLoop_end]
    exact (yields_none rfl ((statement_none hword).mpr rfl)).mpr yields_ended

theorem yields_statement {o : Option Node} (heof : s.eof = false)
    (hst : Returns statement s (o, s₁)) (h : Yields s₁ asts) : Yields s (o.toList ++ asts) := by
  cases o with
  | none => exact (yields_none heof hst).mpr h
  | some ast => exact yields_some heof hst h

theorem yields_toNext (hne : text ≠ []) (ht : t <:+ text) (h : Yields (pos text t) asts) :
    Yields (pos text (toNext text t)) asts := by
  obtain ⟨hws, happend⟩ := blanks_append t
  rw [← happend] at h ht
  have hnext := (yields_blanks hws ht).mp h
  rw [toNext]
  cases hdrop : t.dropWhile isspace with
  | cons c rest =>
    rw [hdrop] at hnext
    exact hnext
  | nil =>
    rw [hdrop] at hnext
    obtain rfl := hnext.unique yields_end
    rw [List.getLast?_eq_some_getLast hne]
    exact yields_last (List.getLast?_eq_some_getLast hne)

structure Follows (rest : List Char) : Prop where
  blank : ∀ x ∈ rest.head?, isspace x
  next : nextChar rest ∉ ['+', '-', '*', '/']

theorem Follows.isspace (hrest : Follows rest) (hne : rest ≠ []) :
    ∃ b rest', rest = b :: rest' ∧ isspace b := by
  cases rest with
  | nil => exact absurd rfl hne
  | cons b rest' => exact ⟨b, rest', rfl, hrest.blank b rfl⟩

theorem notMem_of_isspace (hb : isspace b) : b ∉ ['+', '-', '*', '/'] := by
  intro hmem
  simp only [List.mem_cons, List.not_mem_nil, or_false] at hmem
  rcases hmem with rfl | rfl | rfl | rfl <;> cases hb

theorem Follows.toNext {e : Infix k} (hv : e.Valid) (hrest : Follows rest)
    (h : e.text ++ rest <:+ text) : nextChar (toNext text rest) ∉ ['+', '-', '*', '/'] := by
  obtain ⟨hws, happend⟩ := blanks_append rest
  cases hdrop : rest.dropWhile TeenyBasic.isspace with
  | cons c u =>
    have hnext := hrest.next
    rw [nextChar, hdrop] at hnext
    rw [CS24.TeenyBasic.toNext, hdrop, nextChar_token (isspace_of_dropWhile hdrop)]
    exact hnext
  | nil =>
    rw [hdrop, List.append_nil] at happend
    obtain ⟨x, hx, hmem⟩ := e.text_last hv
    have hlast : ∃ y, text.getLast? = some y ∧ y ∉ ['+', '-', '*', '/'] := by
      obtain ⟨before, rfl⟩ := h
      rw [← List.append_assoc, List.getLast?_append]
      cases hrest : rest.getLast? with
      | some y =>
        have hy := List.all_eq_true.mp hws y
        rw [happend] at hy
        exact ⟨y, rfl, notMem_of_isspace (hy (List.mem_of_getLast? hrest))⟩
      | none =>
        rw [List.getLast?_append, hx]
        exact ⟨x, rfl, hmem⟩
    obtain ⟨y, hy, hmem⟩ := hlast
    have hend := Infix.nextChar_end hy hmem
    rw [CS24.TeenyBasic.toNext, hdrop]
    exact hend

theorem expression_parsed {e : Infix .expression} (hv : e.Valid) (hws : ws.all isspace)
    (hrest : Follows rest) (h : ws ++ (e.text ++ rest) <:+ text) :
    ∃ o, Returns expression (pos text (ws ++ (e.text ++ rest))) (o, pos text (toNext text rest)) ∧
      (rest = [] ∧ e.EndsInNumber → o = none) ∧
      (¬ (rest = [] ∧ e.EndsInNumber) → o = some e.node) := by
  by_cases hlost : rest = [] ∧ e.EndsInNumber
  · obtain ⟨rfl, hnum⟩ := hlost
    rw [List.append_nil] at h ⊢
    exact ⟨none, Infix.expression_loses hv hnum hws h, fun _ => rfl,
      fun hnot => absurd ⟨rfl, hnum⟩ hnot⟩
  · have hsep : e.Separated rest := by
      intro hnum
      obtain ⟨b, rest', rfl, hb⟩ := hrest.isspace fun hnil => hlost ⟨hnil, hnum⟩
      exact ⟨b, rfl, .inl hb⟩
    have hnext := hrest.next
    have hnext' := hrest.toNext hv (suffix_of_append h)
    simp only [List.mem_cons, List.not_mem_nil, or_false, not_or] at hnext hnext'
    exact ⟨some e.node, Infix.expression_of_reads hv (Infix.reads hv) hws hsep hnext.2.2.1
      hnext.2.2.2 hnext'.1 hnext'.2.1 h, fun h => absurd h hlost, fun _ => rfl⟩

theorem isAlphanum_token (h : c.isAlphanum) :
    isspace c = false ∧ isOperator c = false ∧ c ≠ '\x00' ∧ c ≠ '#' := by
  refine ⟨?_, ?_, ?_, ?_⟩
  · rw [isspace, decide_eq_false_iff_not]
    simp only [List.mem_cons, List.not_mem_nil, or_false, not_or]
    refine ⟨?_, ?_, ?_, ?_, ?_, ?_⟩ <;> rintro rfl <;> cases h
  · rw [isOperator, decide_eq_false_iff_not]
    simp only [List.mem_cons, List.not_mem_nil, or_false, not_or]
    refine ⟨?_, ?_, ?_, ?_, ?_, ?_, ?_, ?_, ?_⟩ <;> rintro rfl <;> cases h
  · rintro rfl
    cases h
  · rintro rfl
    cases h

theorem isToken_of_isAlphanum (hne : w ≠ []) (hw : w.all Char.isAlphanum)
    (hlen : w.length ≤ maxKeywordLength) : IsToken w ∧ cString w = w := by
  have hchar : ∀ c ∈ w, c.isAlphanum := List.all_eq_true.mp hw
  refine ⟨⟨hne, fun c hc => (isAlphanum_token (hchar c (List.mem_of_mem_head? hc))).1, ?_, hlen⟩,
    cString_eq fun hmem => (isAlphanum_token (hchar _ hmem)).2.2.1 rfl⟩
  refine List.all_eq_true.mpr fun c hc => ?_
  obtain ⟨hspace, hop, -⟩ := isAlphanum_token (hchar c (List.mem_of_mem_tail hc))
  rw [hspace, hop]
  rfl

theorem read_word (hne : w ≠ []) (hw : w.all Char.isAlphanum) (hlen : w.length ≤ maxKeywordLength)
    (hb : isspace b) (h : w ++ b :: rest <:+ text) :
    advanceUntilSeparator (pos text (w ++ b :: rest)) = .ok (some w, pos text rest) := by
  obtain ⟨htoken, hstring⟩ := isToken_of_isAlphanum hne hw hlen
  rw [htoken.read_space hb h, hstring]

theorem read_keyword (hw : w ∈ "THEN".toList :: keywords) (hws : ws ≠ []) (hb : ws.all isspace)
    (h : w ++ (ws ++ rest) <:+ text) : advanceUntilSeparator (pos text (w ++ (ws ++ rest))) =
      .ok (some w, pos text (ws.tail ++ rest)) := by
  have hwords : ∀ w ∈ "THEN".toList :: keywords, w ≠ [] ∧ w.all Char.isAlphanum ∧
    w.length ≤ maxKeywordLength := by decide
  obtain ⟨hne, hw, hlen⟩ := hwords w hw
  cases ws with
  | nil => exact absurd rfl hws
  | cons b ws =>
    rw [List.all_cons, Bool.and_eq_true] at hb
    exact read_word hne hw hlen hb.1 h

theorem read_label (hw : IsLabel w) (hrest : Follows rest) (h : w ++ rest <:+ text) :
    ∃ o s₁, advanceUntilSeparator (pos text (w ++ rest)) = .ok (o, s₁) ∧
      (∀ asts, Yields (pos text rest) asts → Yields s₁ asts) ∧ (rest = [] → o = none) ∧
      (rest ≠ [] → o = some w) := by
  obtain ⟨hne, hchar, hlen, -⟩ := hw
  by_cases hnil : rest = []
  · obtain rfl := hnil
    rw [List.append_nil] at h ⊢
    refine ⟨none, ended text, (isToken_of_isAlphanum hne hchar hlen).1.read_end h, ?_,
      fun _ => rfl, fun hnot => absurd rfl hnot⟩
    intro asts hasts
    rw [hasts.unique yields_end]
    exact yields_ended
  · obtain ⟨b, rest', rfl, hb⟩ := hrest.isspace hnil
    exact ⟨some w, pos text rest', read_word hne hchar hlen hb h,
      fun asts => (yields_blank hb (suffix_of_append h)).mp, fun h => absurd h hnil, fun _ => rfl⟩

theorem tail_suffix (h : w ++ (ws ++ rest) <:+ text) : ws.tail ++ rest <:+ text := by
  refine List.IsSuffix.trans ?_ (suffix_of_append h)
  exact (List.suffix_append_inj_of_length_eq rfl).mpr ⟨List.tail_suffix ws, rfl⟩

theorem tail_blanks (hws : ws.all isspace) : ws.tail.all isspace :=
  List.all_eq_true.mpr fun c hc => List.all_eq_true.mp hws c (List.mem_of_mem_tail hc)

/-- How many `IF`s the statement is nested in. -/
def nesting : Node → Nat
  | .cond _ body => nesting body + 1
  | _ => 0

namespace Command

def Kept (c : Command) (rest : List Char) : Prop := c.SingleGaps ∧ (rest = [] → c.EndsWell)

/-- What becomes of a statement: the node that the call of `parse` returns for it, and those
that the next calls get from what it leaves. -/
structure Outcome (c : Command) (rest : List Char) (o : Option Node) (more : List Node) :
    Prop where
  kept : c.Kept rest → o = some c.node ∧ more = []
  lost : ¬ c.Kept rest → (o.toList ++ more).head? ≠ some c.node
  nonempty : rest ≠ [] → o.toList ++ more ≠ []
  nesting : ∀ a ∈ o.toList ++ more, nesting a ≤ nesting c.node

/-- The statement is parsed from `rest` on as the outcome says. -/
def Parses (text : List Char) (c : Command) (rest : List Char) : Prop :=
  ∃ o more s₁, Returns statement (pos text (c.text ++ rest)) (o, s₁) ∧
    (∀ asts, Yields (pos text rest) asts → Yields s₁ (more ++ asts)) ∧ c.Outcome rest o more

theorem outcome_single {c : Command} {o : Option Node} (hone : o = some c.node ∨ o = none)
    (hkept : c.Kept rest ↔ o = some c.node) (hnone : rest ≠ [] → o = some c.node) :
    c.Outcome rest o [] where
  kept h := ⟨hkept.mp h, rfl⟩
  lost h hhead := by
    rcases hone with rfl | rfl
    · exact h (hkept.mpr rfl)
    · cases hhead
  nonempty h := by
    rw [hnone h]
    exact List.cons_ne_nil _ _
  nesting a ha := by
    rcases hone with rfl | rfl
    · rw [List.append_nil, Option.toList_some, List.mem_singleton] at ha
      rw [ha]
    · cases ha

theorem text_start {c : Command} (h : c.Valid) : ∃ x l, c.text = x :: l ∧ x.isAlphanum := by
  have hlabel : ∀ {name : List Char}, IsLabel name → ∃ x l, name = x :: l ∧ x.isAlphanum := by
    rintro name ⟨hne, hchar, -⟩
    cases name with
    | nil => exact absurd rfl hne
    | cons x l =>
      rw [List.all_cons, Bool.and_eq_true] at hchar
      exact ⟨x, l, rfl, hchar.1⟩
  cases c with
  | label name => exact hlabel h
  | goto gap name => exact ⟨'G', _, rfl, rfl⟩
  | print gap e => exact ⟨'P', _, rfl, rfl⟩
  | assign gap name before after e => exact ⟨'L', _, rfl, rfl⟩
  | cond gap left before op after right gap' gap'' body => exact ⟨'I', _, rfl, rfl⟩

theorem label_parses {name : List Char} (hv : (label name).Valid) (hrest : Follows rest)
    (h : name ++ rest <:+ text) : (label name).Parses text rest := by
  obtain ⟨o, s₁, hword, hyields, hnone, hsome⟩ := read_label hv hrest h
  obtain ⟨hne, hchar, -, hkey⟩ := hv
  have hhash : name.head? ≠ some '#' := fun hhead =>
    (isAlphanum_token (List.all_eq_true.mp hchar _ (List.mem_of_mem_head? hhead))).2.2.2 rfl
  by_cases hnil : rest = []
  · obtain rfl := hnone hnil
    refine ⟨none, [], s₁, (statement_none hword).mpr rfl, hyields, outcome_single (.inr rfl) ?_
      fun hnot => absurd hnil hnot⟩
    exact ⟨fun hkept => absurd (hkept.2 hnil) id, fun hnot => by cases hnot⟩
  · obtain rfl := hsome hnil
    refine ⟨some (.label (String.ofList name)), [], s₁, (statement_word hword).mpr
      ((wordRest_label hne hhash hkey).mpr rfl), hyields, outcome_single (.inl rfl) ?_
      fun _ => rfl⟩
    exact ⟨fun _ => rfl, fun _ => ⟨trivial, fun h => absurd h hnil⟩⟩

theorem single_or_more {gap : Blanks} (hne : gap ≠ []) (hgap : gap.all isspace) :
    (gap.tail = [] ∧ gap.length = 1) ∨
      ∃ b g, gap.tail = b :: g ∧ isspace b ∧ g.all isspace ∧ gap.length ≠ 1 := by
  match gap, hne with
  | [x], _ => exact .inl ⟨rfl, rfl⟩
  | x :: b :: g, _ =>
    simp only [List.all_cons, Bool.and_eq_true] at hgap
    refine .inr ⟨b, g, rfl, hgap.2.1, hgap.2.2, ?_⟩
    simp only [List.length_cons]
    omega

theorem goto_parses {gap : Blanks} {name : List Char} (hv : (goto gap name).Valid)
    (hrest : Follows rest) (h : (goto gap name).text ++ rest <:+ text) :
    (goto gap name).Parses text rest := by
  obtain ⟨hne, hgap, hname⟩ := hv
  have htext : (goto gap name).text ++ rest = "GOTO".toList ++ (gap ++ (name ++ rest)) := by
    rw [text_goto, List.append_assoc, List.append_assoc]
  rw [Parses, htext]
  rw [htext] at h
  have hgoto := read_keyword (w := "GOTO".toList) (by decide) hne hgap h
  have hsuffix : name ++ rest <:+ text := suffix_of_append (suffix_of_append h)
  have htail := tail_suffix h
  rcases single_or_more hne hgap with ⟨hnil, hone⟩ | ⟨b, g, hcons, hb, hg, htwo⟩
  · rw [hnil] at hgoto
    obtain ⟨o, s₁, hword, hyields, hnone, hsome⟩ := read_label hname hrest hsuffix
    refine ⟨initGotoNode o, [], s₁, (statement_word hgoto).mpr ((wordRest_goto hword).mpr rfl),
      hyields, ?_⟩
    by_cases hend : rest = []
    · obtain rfl := hnone hend
      refine outcome_single (.inr rfl) ?_ fun hnot => absurd hend hnot
      exact ⟨fun hkept => absurd (hkept.2 hend) id, fun hnot => by cases hnot⟩
    · obtain rfl := hsome hend
      refine outcome_single (.inl rfl) ?_ fun _ => rfl
      exact ⟨fun _ => rfl, fun _ => ⟨hone, fun h => absurd h hend⟩⟩
  · rw [hcons] at hgoto htail
    obtain ⟨o, more, s₁, hlabel, hyields, houtcome⟩ := label_parses hname hrest hsuffix
    refine ⟨some (.goto ""), o.toList ++ more, pos text (g ++ (name ++ rest)),
      (statement_word hgoto).mpr ((wordRest_goto (read_blank hb htail)).mpr rfl), ?_, ?_⟩
    · intro asts hasts
      rw [yields_blanks hg (suffix_of_cons htail), List.append_assoc]
      exact yields_statement rfl hlabel (hyields asts hasts)
    · refine ⟨fun hkept => absurd hkept.1 htwo, fun _ hhead => ?_, fun _ => List.cons_ne_nil _ _,
        fun a ha => ?_⟩
      · have heq := String.ofList_injective (Node.goto.inj (Option.some.inj hhead))
        exact hname.1 heq.symm
      · rcases List.mem_cons.mp ha with rfl | ha
        · exact Nat.le_refl 0
        · exact houtcome.nesting a ha

theorem outcome_expression {c : Command} {e : Infix .expression} {o : Option Node}
    (hkept : c.Kept rest ↔ ¬ (rest = [] ∧ e.EndsInNumber))
    (hnone : rest = [] ∧ e.EndsInNumber → o = none)
    (hsome : ¬ (rest = [] ∧ e.EndsInNumber) → o = some c.node) : c.Outcome rest o [] := by
  by_cases hlost : rest = [] ∧ e.EndsInNumber
  · obtain rfl := hnone hlost
    refine outcome_single (.inr rfl) ?_ fun hne => absurd hlost.1 hne
    rw [hkept]
    exact ⟨fun hnot => absurd hlost hnot, fun hnot => by cases hnot⟩
  · obtain rfl := hsome hlost
    exact outcome_single (.inl rfl) ⟨fun _ => rfl, fun _ => hkept.mpr hlost⟩ fun _ => rfl

theorem print_parses {gap : Blanks} {e : Infix .expression} (hv : (print gap e).Valid)
    (hrest : Follows rest) (h : (print gap e).text ++ rest <:+ text) :
    (print gap e).Parses text rest := by
  obtain ⟨hne, hgap, he⟩ := hv
  have htext : (print gap e).text ++ rest = "PRINT".toList ++ (gap ++ (e.text ++ rest)) := by
    rw [text_print, List.append_assoc, List.append_assoc]
  rw [Parses, htext]
  rw [htext] at h
  have hprint := read_keyword (w := "PRINT".toList) (by decide) hne hgap h
  have htail := tail_suffix h
  obtain ⟨o, hexpr, hnone, hsome⟩ := expression_parsed he (tail_blanks hgap) hrest htail
  have hsuffix : e.text ++ rest <:+ text := suffix_of_append htail
  refine ⟨initPrintNode o, [], pos text (toNext text rest), (statement_word hprint).mpr
    (wordRest_print.mpr ⟨o, _, hexpr, rfl⟩), ?_, ?_⟩
  · exact fun asts hasts => yields_toNext (Infix.ne_nil_of_suffix he htail)
      (suffix_of_append hsuffix) hasts
  · refine outcome_expression (e := e) ?_ (fun hlost => ?_) fun hkept => ?_
    · exact ⟨fun hkept hlost => hkept.2 hlost.1 hlost.2,
        fun hnot => ⟨trivial, fun hnil hnum => hnot ⟨hnil, hnum⟩⟩⟩
    · rw [hnone hlost]
      rfl
    · rw [hsome hkept]
      rfl

theorem assign_parses {gap before after : Blanks} {name : Char} {e : Infix .expression}
    (hv : (assign gap name before after e).Valid) (hrest : Follows rest)
    (h : (assign gap name before after e).text ++ rest <:+ text) :
    (assign gap name before after e).Parses text rest := by
  obtain ⟨⟨hne, hgap⟩, hname, hbefore, hafter, he⟩ := hv
  have htext : (assign gap name before after e).text ++ rest =
      "LET".toList ++ (gap ++ name :: (before ++ '=' :: (after ++ (e.text ++ rest)))) := by
    rw [text_assign]
    generalize "LET".toList = first
    simp only [List.append_assoc, List.cons_append]
  rw [Parses, htext]
  rw [htext] at h
  have hlet := read_keyword (w := "LET".toList) (by decide) hne hgap h
  have htail := tail_suffix h
  have hspace := isspace_of_isExpressionStart (isExpressionStart_of_isVariableName hname)
  have hvar := advance_pos (tail_blanks hgap) hspace htail
  have hequals := advance_pos hbefore (isspace_of_isOperator rfl)
    (suffix_of_cons (suffix_of_append htail))
  have hexprs := suffix_of_cons (suffix_of_append (suffix_of_cons (suffix_of_append htail)))
  obtain ⟨o, hexpr, hnone, hsome⟩ := expression_parsed he hafter hrest hexprs
  have hsuffix : e.text ++ rest <:+ text := suffix_of_append hexprs
  have hnull : name ≠ '\x00' := by
    rintro rfl
    cases hname
  refine ⟨initLetNode name o, [], pos text (toNext text rest), (statement_word hlet).mpr
    (wordRest_let.mpr ((letRest_iff hvar hname hequals).mpr ⟨o, _, hexpr, rfl⟩)), ?_, ?_⟩
  · exact fun asts hasts => yields_toNext (Infix.ne_nil_of_suffix he hexprs)
      (suffix_of_append hsuffix) hasts
  · refine outcome_expression (e := e) ?_ (fun hlost => ?_) fun hkept => ?_
    · exact ⟨fun hkept hlost => hkept.2 hlost.1 hlost.2,
        fun hnot => ⟨trivial, fun hnil hnum => hnot ⟨hnil, hnum⟩⟩⟩
    · rw [hnone hlost, initLetNode, if_neg hnull]
      rfl
    · rw [hsome hkept, initLetNode, if_neg hnull]
      rfl

theorem isOperator_compare {op : Char} (hop : op ∈ ['<', '=', '>']) :
    isOperator op ∧ op ∉ ['+', '-', '*', '/'] := by
  simp only [List.mem_cons, List.not_mem_nil, or_false] at hop
  rcases hop with rfl | rfl | rfl <;> exact ⟨rfl, by simp⟩

theorem comparison_parsed {left right : Infix .expression} {gap before after gap' : Blanks}
    {op x : Char} (hl : left.Valid) (hr : right.Valid) (hgap : gap.all isspace)
    (hbefore : before.all isspace) (hop : op ∈ ['<', '=', '>']) (hafter : after.all isspace)
    (hne : gap' ≠ []) (hgap' : gap'.all isspace) (hx : x.isAlphanum)
    (h : gap ++ (left.text ++ (before ++ op :: (after ++ (right.text ++ (gap' ++ x :: rest))))) <:+
      text) :
    Returns comparison
      (pos text (gap ++ (left.text ++ (before ++ op :: (after ++ (right.text ++
        (gap' ++ x :: rest)))))))
      (some (.binaryOp op left.node right.node), pos text (x :: rest)) := by
  obtain ⟨hisop, hnotop⟩ := isOperator_compare hop
  have hspace := (isAlphanum_token hx).1
  have hnotx : x ∉ ['+', '-', '*', '/'] := by
    intro hmem
    simp only [List.mem_cons, List.not_mem_nil, or_false] at hmem
    rcases hmem with rfl | rfl | rfl | rfl <;> cases hx
  simp only [List.mem_cons, List.not_mem_nil, or_false, not_or] at hnotop hnotx
  have hsuffix := suffix_of_append (suffix_of_append (suffix_of_append h))
  have hchar : nextChar (op :: (after ++ (right.text ++ (gap' ++ x :: rest)))) = op :=
    nextChar_token (isspace_of_isOperator hisop)
  have hleft := Infix.expression_of_reads hl (Infix.reads hl) hgap
    (Infix.separated_operator left hbefore hisop)
    (by rw [Infix.nextChar_operator hbefore hisop]; exact hnotop.2.2.1)
    (by rw [Infix.nextChar_operator hbefore hisop]; exact hnotop.2.2.2)
    (by rw [Infix.toNext_operator hbefore hisop, hchar]; exact hnotop.1)
    (by rw [Infix.toNext_operator hbefore hisop, hchar]; exact hnotop.2.1) h
  rw [Infix.toNext_operator hbefore hisop] at hleft
  have hsep : right.Separated (gap' ++ x :: rest) := by
    intro _
    cases gap' with
    | nil => exact absurd rfl hne
    | cons b gap' =>
      rw [List.all_cons, Bool.and_eq_true] at hgap'
      exact ⟨b, rfl, .inl hgap'.1⟩
  have hnext : nextChar (gap' ++ x :: rest) = x := by
    rw [nextChar, dropWhile_blanks hgap', dropWhile_token hspace]
    rfl
  have hleft' : toNext text (gap' ++ x :: rest) = x :: rest := by
    rw [toNext, dropWhile_blanks hgap', dropWhile_token hspace]
  have hchar' : nextChar (x :: rest) = x := nextChar_token hspace
  have hright := Infix.expression_of_reads hr (Infix.reads hr) hafter hsep
    (by rw [hnext]; exact hnotx.2.2.1) (by rw [hnext]; exact hnotx.2.2.2)
    (by rw [hleft', hchar']; exact hnotx.1) (by rw [hleft', hchar']; exact hnotx.2.1)
    (suffix_of_cons hsuffix)
  rw [hleft'] at hright
  have hadvance := advance_char (isspace_of_isOperator hisop) hsuffix
  exact comparison_iff.mpr ⟨_, _, hleft,
    (compareRest_iff hadvance (by simpa using hop)).mpr ⟨_, hright, rfl⟩⟩

section

variable {gap before after gap' gap'' : Blanks} {left right : Infix .expression} {op : Char}
  {body : Command} {o : Option Node} {more : List Node}

theorem Outcome.not_mem_cond (h : body.Outcome rest o more) :
    (cond gap left before op after right gap' gap'' body).node ∉ o.toList ++ more := fun hmem =>
  Nat.not_succ_le_self _ (h.nesting _ hmem)

theorem Outcome.cond (h : body.Outcome rest o more) (hone : gap''.length = 1) :
    (cond gap left before op after right gap' gap'' body).Outcome rest
      (initCondNode (some (.binaryOp op left.node right.node)) o) more where
  kept hkept := by
    obtain ⟨rfl, rfl⟩ := h.kept ⟨hkept.1.2, hkept.2⟩
    exact ⟨rfl, rfl⟩
  lost hnot hhead := by
    cases o with
    | none =>
      exact h.not_mem_cond (List.mem_of_mem_head? hhead)
    | some b =>
      obtain ⟨-, rfl⟩ := Node.cond.inj (Option.some.inj hhead)
      exact h.lost (fun hkept => hnot ⟨⟨hone, hkept.1⟩, hkept.2⟩) rfl
  nonempty hne := by
    cases o with
    | none => exact h.nonempty hne
    | some b => exact List.cons_ne_nil _ _
  nesting a ha := by
    cases o with
    | none => exact (h.nesting a ha).trans (Nat.le_succ _)
    | some b =>
      rcases List.mem_cons.mp ha with rfl | ha
      · exact Nat.succ_le_succ (h.nesting b (List.mem_cons_self ..))
      · exact (h.nesting a (List.mem_cons_of_mem _ ha)).trans (Nat.le_succ _)

theorem Outcome.split (h : body.Outcome rest o more) (htwo : gap''.length ≠ 1) :
    (Command.cond gap left before op after right gap' gap'' body).Outcome rest
      (initCondNode (some (.binaryOp op left.node right.node)) none) (o.toList ++ more) where
  kept hkept := absurd hkept.1.1 htwo
  lost _ hhead := h.not_mem_cond (List.mem_of_mem_head? hhead)
  nonempty hne := h.nonempty hne
  nesting a ha := (h.nesting a ha).trans (Nat.le_succ _)

end

theorem cond_parses {gap before after gap' gap'' : Blanks} {left right : Infix .expression}
    {op : Char} {body : Command}
    (hv : (cond gap left before op after right gap' gap'' body).Valid)
    (hbody : body.text ++ rest <:+ text → body.Parses text rest)
    (h : (cond gap left before op after right gap' gap'' body).text ++ rest <:+ text) :
    (cond gap left before op after right gap' gap'' body).Parses text rest := by
  obtain ⟨⟨hne, hgap⟩, hl, hbefore, hop, hafter, hr, ⟨hne', hgap'⟩, ⟨hne'', hgap''⟩, -⟩ := hv
  have htext : (cond gap left before op after right gap' gap'' body).text ++ rest =
      "IF".toList ++ (gap ++ (left.text ++ (before ++ op :: (after ++ (right.text ++
        (gap' ++ ("THEN".toList ++ (gap'' ++ (body.text ++ rest))))))))) := by
    rw [text_cond]
    generalize "IF".toList = first, "THEN".toList = second
    simp only [List.append_assoc, List.cons_append]
  rw [Parses, htext]
  rw [htext] at h
  have hif := read_keyword (w := "IF".toList) (by decide) hne hgap h
  have htail := tail_suffix h
  have hcomparison := comparison_parsed hl hr (tail_blanks hgap) hbefore hop hafter hne' hgap'
    (x := 'T') rfl htail
  have hcompare := suffix_of_append (suffix_of_append (suffix_of_append htail))
  have hsuffix := suffix_of_append (suffix_of_append (suffix_of_append (suffix_of_cons hcompare)))
  have hthen := read_keyword (w := "THEN".toList) (by decide) hne'' hgap'' hsuffix
  have htail' := tail_suffix hsuffix
  obtain ⟨o, more, s₁, hst, hyields, houtcome⟩ := hbody (suffix_of_append htail')
  have hstatement : ∀ {o' s'}, Returns statement (pos text (gap''.tail ++ (body.text ++ rest)))
      (o', s') → Returns statement (pos text ("IF".toList ++ (gap ++ (left.text ++ (before ++
        op :: (after ++ (right.text ++ (gap' ++ ("THEN".toList ++ (gap'' ++ (body.text ++
          rest))))))))))) (initCondNode (some (.binaryOp op left.node right.node)) o', s') :=
    fun {o' s'} hst => (statement_word hif).mpr (wordRest_if.mpr
      ⟨_, _, hcomparison, (thenRest_iff hthen).mpr ⟨o', s', hst, rfl⟩⟩)
  rcases single_or_more hne'' hgap'' with ⟨hnil, hone⟩ | ⟨b, g, hcons, hb, hg, htwo⟩
  · rw [hnil] at hstatement
    exact ⟨_, more, s₁, hstatement hst, hyields, houtcome.cond hone⟩
  · rw [hcons] at hstatement htail'
    refine ⟨_, o.toList ++ more, pos text (g ++ (body.text ++ rest)),
      hstatement (statement_blank hb htail'), ?_, ?_⟩
    · intro asts hasts
      rw [yields_blanks hg (suffix_of_cons htail'), List.append_assoc]
      exact yields_statement rfl hst (hyields asts hasts)
    · exact houtcome.split htwo

theorem parses {c : Command} (hv : c.Valid) (hrest : Follows rest) (h : c.text ++ rest <:+ text) :
    c.Parses text rest := by
  induction c with
  | label name => exact label_parses hv hrest h
  | goto gap name => exact goto_parses hv hrest h
  | print gap e => exact print_parses hv hrest h
  | assign gap name before after e => exact assign_parses hv hrest h
  | cond gap left before op after right gap' gap'' body ih =>
    exact cond_parses hv (ih hv.2.2.2.2.2.2.2.2) h

end Command

end CS24.TeenyBasic
