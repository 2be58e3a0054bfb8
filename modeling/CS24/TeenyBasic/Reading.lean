import CS24.TeenyBasic.Layout

/-!
# Reading what was written

Parsing a statement gives the node that it stands for and leaves what comes next, up to
blanks. An expression is read up to the next token, which is looked at and put back.
-/

namespace CS24.TeenyBasic
open Machine

variable {text ws rest cs t : List Char} {b c last : Char} {n : Nat} {s s₁ s' : Stream}
  {r : Option Node × Stream} {o : Option Node} {k : Level}

theorem advanceUntilSeparatorLoop_word {result : List Char} {m : Nat}
    (hcs : cs.all fun x => !isspace x && !isOperator x)
    (hlen : result.length + cs.length ≤ maxKeywordLength + 1) (h : cs ++ rest <:+ text) :
    advanceUntilSeparatorLoop (cs.length + m) result (pos text (cs ++ rest)) =
      advanceUntilSeparatorLoop m (result ++ cs) (pos text rest) := by
  induction cs generalizing result with
  | nil => simp
  | cons x cs ih =>
    simp only [List.all_cons, Bool.and_eq_true, Bool.not_eq_true'] at hcs
    obtain ⟨⟨hspace, hop⟩, hcs⟩ := hcs
    rw [List.length_cons] at hlen
    have hsuffix : x :: (cs ++ rest) <:+ text := h
    rw [List.length_cons, Nat.add_right_comm, List.cons_append,
      advanceUntilSeparatorLoop_step hspace (.inl hop) (by omega) hsuffix,
      ih hcs (by rw [List.length_append, List.length_singleton]; omega) (suffix_of_cons hsuffix),
      List.append_assoc]
    rfl

structure IsToken (w : List Char) : Prop where
  ne_nil : w ≠ []
  space : ∀ x ∈ w.head?, isspace x = false
  tail : w.tail.all fun x => !isspace x && !isOperator x
  length : w.length ≤ maxKeywordLength

theorem IsToken.read {w : List Char} (hw : IsToken w) (h : w ++ rest <:+ text) :
    advanceUntilSeparator (pos text (w ++ rest)) =
      advanceUntilSeparatorLoop (rest.length + 1) w (pos text rest) := by
  obtain ⟨hne, hspace, htail, hlen⟩ := hw
  cases w with
  | nil => exact absurd rfl hne
  | cons x cs =>
    have hsuffix : x :: (cs ++ rest) <:+ text := h
    have hcs : [x].length + cs.length ≤ maxKeywordLength + 1 := by
      rw [List.length_cons] at hlen
      rw [List.length_singleton]
      omega
    rw [advanceUntilSeparator_pos, List.cons_append, List.length_cons, List.length_append,
      advanceUntilSeparatorLoop_step (hspace x rfl) (.inr rfl) (Nat.zero_le _) hsuffix,
      Nat.add_assoc cs.length]
    exact advanceUntilSeparatorLoop_word htail hcs (suffix_of_cons hsuffix)

theorem IsToken.terminate {w : List Char} (hw : IsToken w) (s : Stream) :
    terminate w s = .ok (some (cString w), s) := by
  rw [CS24.TeenyBasic.terminate, if_pos hw.length]
  rfl

theorem IsToken.read_space {w : List Char} (hw : IsToken w) (hb : isspace b)
    (h : w ++ b :: rest <:+ text) :
    advanceUntilSeparator (pos text (w ++ b :: rest)) = .ok (some (cString w), pos text rest) := by
  rw [hw.read h, advanceUntilSeparatorLoop_space hb (suffix_of_append h), hw.terminate]

theorem IsToken.read_operator {w : List Char} (hw : IsToken w) (hb : isOperator b)
    (h : w ++ b :: rest <:+ text) : advanceUntilSeparator (pos text (w ++ b :: rest)) =
      .ok (some (cString w), pos text (b :: rest)) := by
  rw [hw.read h, advanceUntilSeparatorLoop_operator hb hw.ne_nil (suffix_of_append h),
    hw.terminate]

theorem IsToken.read_end {w : List Char} (hw : IsToken w) (h : w <:+ text) :
    advanceUntilSeparator (pos text w) = .ok (none, ended text) := by
  have h' : w ++ [] <:+ text := by rwa [List.append_nil]
  have hread := hw.read h'
  rw [List.append_nil] at hread
  rw [hread, List.length_nil, advanceUntilSeparatorLoop_end]

theorem digitValue_of_isDigit (h : c.isDigit) : digitValue c = c.toNat - '0'.toNat ∧
    digitValue c < 10 := by
  have hvalue : digitValue c = c.toNat - '0'.toNat := by rw [digitValue, if_pos h]
  refine ⟨hvalue, ?_⟩
  simp only [Char.isDigit, Bool.and_eq_true, decide_eq_true_eq, ge_iff_le,
    UInt32.le_iff_toNat_le] at h
  have h0 : '0'.toNat = 48 := rfl
  have h9 : c.toNat ≤ 57 := h.2
  omega

theorem readDigits_eq {digits : List Char} (h : ∀ c ∈ digits, c.isDigit) :
    readDigits 10 digits = Nat.ofDigitChars 10 digits 0 := by
  have htake : (digits.takeWhile fun c => digitValue c < 10) = digits := by
    rw [List.takeWhile_eq_self_iff]
    exact fun c hc => decide_eq_true (digitValue_of_isDigit (h c hc)).2
  rw [readDigits, htake, Nat.ofDigitChars_eq_foldl]
  have hfold : ∀ n, digits.foldl (fun n c => n * 10 + digitValue c) n =
      digits.foldl (fun n c => 10 * n + (c.toNat - '0'.toNat)) n := by
    clear htake
    induction digits with
    | nil => exact fun n => rfl
    | cons c digits ih =>
      intro n
      rw [List.foldl_cons, List.foldl_cons, ih (fun d hd => h d (List.mem_cons_of_mem _ hd)),
        (digitValue_of_isDigit (h c (List.mem_cons_self ..))).1, Nat.mul_comm]
  exact hfold 0

theorem toDigits_isDigit (m : Nat) : ∀ c ∈ Nat.toDigits 10 m, c.isDigit := fun _ hc =>
  Nat.isDigit_of_mem_toDigits (by decide) (by decide) hc

theorem toDigits_head {m : Nat} (hm : 0 < m) : (Nat.toDigits 10 m).head? ≠ some '0' := by
  induction m using Nat.strongRecOn with
  | ind m ih =>
    rw [Nat.toDigits_eq_if (by decide)]
    split_ifs with hlt
    · have hdigit : ∀ d < 10, 0 < d → [d.digitChar].head? ≠ some '0' := by decide
      exact hdigit m hlt hm
    · have hne : Nat.toDigits 10 (m / 10) ≠ [] := Nat.toDigits_ne_nil
      have hhead := ih (m / 10) (by omega) (by omega)
      cases hdigits : Nat.toDigits 10 (m / 10) with
      | nil => exact absurd hdigits hne
      | cons c digits =>
        rw [hdigits] at hhead
        exact hhead

theorem readMagnitude_toDigits (m : Nat) : readMagnitude (Nat.toDigits 10 m) = m := by
  rcases Nat.eq_zero_or_pos m with rfl | hm
  · rfl
  · have hhead := toDigits_head hm
    have hread : readMagnitude (Nat.toDigits 10 m) = readDigits 10 (Nat.toDigits 10 m) := by
      generalize Nat.toDigits 10 m = digits at hhead
      unfold readMagnitude
      split <;> first | rfl | exact absurd rfl hhead
    rw [hread, readDigits_eq (toDigits_isDigit m),
      Nat.ofDigitChars_toDigits (by decide) (by decide)]

theorem isspace_of_isDigit (h : c.isDigit) : isspace c = false := by
  rw [isspace, decide_eq_false_iff_not]
  simp only [List.mem_cons, List.not_mem_nil, or_false, not_or]
  refine ⟨?_, ?_, ?_, ?_, ?_, ?_⟩ <;> rintro rfl <;> cases h

theorem isOperator_of_isDigit (h : c.isDigit) : isOperator c = false := by
  rw [isOperator, decide_eq_false_iff_not]
  simp only [List.mem_cons, List.not_mem_nil, or_false, not_or]
  refine ⟨?_, ?_, ?_, ?_, ?_, ?_, ?_, ?_, ?_⟩ <;> rintro rfl <;> cases h

theorem readSign_literal (sign : Sign) (m : Nat) :
    ∃ u : Int, readSign (sign.text ++ Nat.toDigits 10 m) = (u, Nat.toDigits 10 m) ∧
      u * m = sign.apply m := by
  cases sign with
  | plus => exact ⟨1, rfl, Int.one_mul _⟩
  | minus => exact ⟨-1, rfl, Int.neg_one_mul _⟩
  | none =>
    refine ⟨1, ?_, Int.one_mul _⟩
    have hdigit := toDigits_isDigit m
    change readSign (Nat.toDigits 10 m) = _
    generalize Nat.toDigits 10 m = digits at hdigit
    unfold readSign
    split
    · exact absurd (hdigit '-' (List.mem_cons_self ..)) (by decide)
    · exact absurd (hdigit '+' (List.mem_cons_self ..)) (by decide)
    · rfl

theorem literal_start (sign : Sign) (m : Nat) :
    ∃ c l, sign.text ++ Nat.toDigits 10 m = c :: l ∧ isNumberStart c := by
  cases sign with
  | plus => exact ⟨'+', _, rfl, rfl⟩
  | minus => exact ⟨'-', _, rfl, rfl⟩
  | none =>
    cases hdigits : Nat.toDigits 10 m with
    | nil => exact absurd hdigits Nat.toDigits_ne_nil
    | cons c l =>
      have hc : c.isDigit := toDigits_isDigit m c (hdigits ▸ List.mem_cons_self ..)
      exact ⟨c, l, rfl, by rw [isNumberStart, hc, Bool.or_true]⟩

theorem cString_eq {w : List Char} (h : '\x00' ∉ w) : cString w = w := by
  rw [cString, List.takeWhile_eq_self_iff]
  intro c hc
  rw [bne_iff_ne]
  rintro rfl
  exact h hc

theorem cString_literal (sign : Sign) (m : Nat) :
    cString (sign.text ++ Nat.toDigits 10 m) = sign.text ++ Nat.toDigits 10 m := by
  refine cString_eq fun h => ?_
  rcases List.mem_append.mp h with h | h
  · cases sign <;> simp [Sign.text] at h
  · exact absurd (toDigits_isDigit m _ h) (by decide)

theorem literal_isToken (sign : Sign) {m : Nat} (hlo : -2 ^ 63 ≤ sign.apply m)
    (hhi : sign.apply m < 2 ^ 63) : IsToken (sign.text ++ Nat.toDigits 10 m) := by
  have hdigits : ∀ c ∈ Nat.toDigits 10 m, (!isspace c && !isOperator c) = true := fun c hc => by
    have hdigit := toDigits_isDigit m c hc
    rw [isspace_of_isDigit hdigit, isOperator_of_isDigit hdigit]
    rfl
  have hlength : (Nat.toDigits 10 m).length ≤ 20 := by
    rw [Nat.length_toDigits_le_iff (by decide) (by decide)]
    cases sign <;> simp only [Sign.apply] at hlo hhi <;> omega
  have hne : Nat.toDigits 10 m ≠ [] := Nat.toDigits_ne_nil
  cases sign with
  | none =>
    refine ⟨hne, fun c hc => ?_, ?_, hlength.trans (by decide)⟩
    · exact isspace_of_isDigit (toDigits_isDigit m c (List.mem_of_mem_head? hc))
    · exact List.all_eq_true.mpr fun c hc => hdigits c (List.mem_of_mem_tail hc)
  | plus | minus =>
    refine ⟨List.cons_ne_nil _ _, fun c hc => ?_, List.all_eq_true.mpr hdigits, ?_⟩
    · obtain rfl := Option.some.inj hc
      rfl
    · change (Nat.toDigits 10 m).length + 1 ≤ maxKeywordLength
      unfold maxKeywordLength
      omega

theorem strtol_literal {sign : Sign} {m : Nat} (hlo : -2 ^ 63 ≤ sign.apply m)
    (hhi : sign.apply m < 2 ^ 63) :
    strtol (sign.text ++ Nat.toDigits 10 m) = .ofInt (sign.apply m) := by
  have hdrop : (sign.text ++ Nat.toDigits 10 m).dropWhile isspace =
      sign.text ++ Nat.toDigits 10 m := by
    have hspace := (literal_isToken sign hlo hhi).space
    generalize sign.text ++ Nat.toDigits 10 m = literal at hspace
    cases literal with
    | nil => rfl
    | cons c literal => rw [List.dropWhile_cons_of_neg (by rw [hspace c rfl]; decide)]
  obtain ⟨u, hsign, hu⟩ := readSign_literal sign m
  rw [strtol, hdrop, hsign]
  simp only [readMagnitude_toDigits, hu]
  rw [min_eq_right (by omega), max_eq_right (by omega)]

def nextChar (t : List Char) : Char := (t.dropWhile isspace).headD '\x00'

def toNext (text t : List Char) : List Char :=
  match t.dropWhile isspace with
  | [] => text.getLast?.toList
  | c :: u => c :: u

theorem dropWhile_blanks (hws : ws.all isspace) :
    (ws ++ t).dropWhile isspace = t.dropWhile isspace :=
  List.dropWhile_append_of_pos (List.all_eq_true.mp hws)

theorem dropWhile_token (hc : isspace c = false) : (c :: t).dropWhile isspace = c :: t :=
  List.dropWhile_cons_of_neg (by rw [hc]; decide)

theorem blanks_append (t : List Char) :
    (t.takeWhile isspace).all isspace ∧ t.takeWhile isspace ++ t.dropWhile isspace = t :=
  ⟨List.all_takeWhile, List.takeWhile_append_dropWhile⟩

theorem nextChar_token (hc : isspace c = false) : nextChar (c :: t) = c := by
  rw [nextChar, dropWhile_token hc]
  rfl

theorem isspace_of_dropWhile (h : t.dropWhile isspace = c :: rest) : isspace c = false := by
  have hhead := List.head?_dropWhile_not isspace t
  rw [h] at hhead
  exact hhead

theorem advance_token (ht : t <:+ text) (h : t.dropWhile isspace = c :: rest) :
    advance (pos text t) = .ok (c, pos text rest) := by
  obtain ⟨hws, happend⟩ := blanks_append t
  rw [← happend, h] at ht ⊢
  exact advance_pos hws (isspace_of_dropWhile h) ht

theorem advance_char (hc : isspace c = false) (h : c :: rest <:+ text) :
    advance (pos text (c :: rest)) = .ok (c, pos text rest) :=
  advance_token h (dropWhile_token hc)

theorem advance_rewind (ht : t <:+ text) (hne : text ≠ []) :
    ∃ s₁, advance (pos text t) = .ok (nextChar t, s₁) ∧
      rewindOne s₁ = .ok ((), pos text (toNext text t)) := by
  rw [nextChar, toNext]
  cases h : t.dropWhile isspace with
  | nil =>
    have hws : t.all isspace := by
      obtain ⟨hws, happend⟩ := blanks_append t
      rw [h, List.append_nil] at happend
      rwa [happend] at hws
    refine ⟨ended text, advance_end hws ht, ?_⟩
    rw [List.getLast?_eq_some_getLast hne]
    exact rewindOne_ended (List.getLast?_eq_some_getLast hne)
  | cons c rest =>
    refine ⟨pos text rest, advance_token ht h, rewindOne_pos ?_⟩
    rw [← h]
    exact (List.dropWhile_suffix isspace).trans ht

theorem toNext_suffix (ht : t <:+ text) : toNext text t <:+ text := by
  rw [toNext]
  cases h : t.dropWhile isspace with
  | nil =>
    cases hlast : text.getLast? with
    | none => exact List.nil_suffix
    | some last =>
      obtain ⟨before, rfl⟩ := List.getLast?_eq_some_iff.mp hlast
      exact List.suffix_append before [last]
  | cons c rest =>
    change c :: rest <:+ text
    rw [← h]
    exact (List.dropWhile_suffix isspace).trans ht

theorem toNext_toNext (t : List Char) : toNext text (toNext text t) = toNext text t := by
  rw [toNext.eq_def text t]
  cases h : t.dropWhile isspace with
  | cons c rest =>
    change toNext text (c :: rest) = c :: rest
    rw [toNext, dropWhile_token (isspace_of_dropWhile h)]
  | nil =>
    change toNext text text.getLast?.toList = text.getLast?.toList
    cases hlast : text.getLast? with
    | none =>
      rw [toNext, hlast]
      rfl
    | some last =>
      rw [toNext, hlast]
      cases hb : isspace last with
      | true =>
        rw [Option.toList_some, List.dropWhile_cons_of_pos hb]
        rfl
      | false => rw [Option.toList_some, dropWhile_token hb]

def sum (n : Nat) : Parse (Option Node) := term n >>= expressionLoop n

theorem termLoop_done (ht : t <:+ text) (hne : text ≠ []) (hmul : nextChar t ≠ '*')
    (hdiv : nextChar t ≠ '/') :
    Returns (fun n => termLoop n o) (pos text t) (o, pos text (toNext text t)) := by
  obtain ⟨s₁, hadvance, hrewind⟩ := advance_rewind ht hne
  exact (termLoop_stop hadvance (not_or.mpr ⟨hmul, hdiv⟩) hrewind).mpr rfl

theorem termLoop_finished (ht : t <:+ text) (hne : text ≠ [])
    (hnext : t.dropWhile isspace = rest.dropWhile isspace) (hmul : nextChar rest ≠ '*')
    (hdiv : nextChar rest ≠ '/') :
    Returns (fun n => termLoop n o) (pos text t) (o, pos text (toNext text rest)) := by
  have hchar : nextChar t = nextChar rest := by rw [nextChar, hnext, nextChar]
  have hleft : toNext text t = toNext text rest := by rw [toNext, hnext, toNext]
  rw [← hchar] at hmul hdiv
  rw [← hleft]
  exact termLoop_done ht hne hmul hdiv

theorem expressionLoop_done (ht : t <:+ text) (hne : text ≠ []) (hadd : nextChar t ≠ '+')
    (hsub : nextChar t ≠ '-') :
    Returns (fun n => expressionLoop n o) (pos text t) (o, pos text (toNext text t)) := by
  obtain ⟨s₁, hadvance, hrewind⟩ := advance_rewind ht hne
  exact (expressionLoop_stop hadvance (not_or.mpr ⟨hadd, hsub⟩) hrewind).mpr rfl

theorem isspace_of_isOperator (h : isOperator c) : isspace c = false := by
  rw [isspace, decide_eq_false_iff_not]
  simp only [List.mem_cons, List.not_mem_nil, or_false, not_or]
  refine ⟨?_, ?_, ?_, ?_, ?_, ?_⟩ <;> rintro rfl <;> cases h

theorem isExpressionStart_of_isNumberStart (h : isNumberStart c) : isExpressionStart c := by
  rw [isExpressionStart, h, Bool.or_true]

theorem isExpressionStart_of_isVariableName (h : isVariableName c) : isExpressionStart c := by
  rw [isExpressionStart, h, Bool.or_true, Bool.true_or]

theorem isspace_of_isExpressionStart (h : isExpressionStart c) : isspace c = false := by
  rw [isspace, decide_eq_false_iff_not]
  simp only [List.mem_cons, List.not_mem_nil, or_false, not_or]
  refine ⟨?_, ?_, ?_, ?_, ?_, ?_⟩ <;> rintro rfl <;> cases h

theorem expression_sum (hws : ws.all isspace) (hc : isExpressionStart c)
    (h : ws ++ c :: rest <:+ text) :
    Returns expression (pos text (ws ++ c :: rest)) r ↔ Returns sum (pos text (c :: rest)) r := by
  have hpeek := peek_pos hws (isspace_of_isExpressionStart hc) h
  rw [expression_iff hpeek hc]
  exact (returns_bind (q := fun n o => expressionLoop n o) term_fueled expressionLoop_fueled).symm

namespace Infix

def Separated (e : Infix k) (rest : List Char) : Prop :=
  e.EndsInNumber → ∃ x ∈ rest.head?, isspace x ∨ isOperator x

/-- The text of `e` at this position is read, up to the loop that could go on with it. -/
def Reads (text : List Char) : {k : Level} → Infix k → Prop
  | .factor, f => ∀ {ws rest : List Char}, ws.all isspace → f.Separated rest →
      ws ++ (f.text ++ rest) <:+ text → ∃ u, u <:+ text ∧
        u.dropWhile isspace = rest.dropWhile isspace ∧
        Returns TeenyBasic.factor (pos text (ws ++ (f.text ++ rest))) (some f.node, pos text u)
  | .term, t => ∀ {ws rest : List Char} {r : Option Node × Stream}, ws.all isspace →
      t.Separated rest → ws ++ (t.text ++ rest) <:+ text →
      (∀ u, u <:+ text → u.dropWhile isspace = rest.dropWhile isspace →
        Returns (fun n => termLoop n (some t.node)) (pos text u) r) →
      Returns TeenyBasic.term (pos text (ws ++ (t.text ++ rest))) r
  | .expression, e => ∀ {ws rest : List Char} {r : Option Node × Stream}, ws.all isspace →
      e.Separated rest → nextChar rest ≠ '*' → nextChar rest ≠ '/' →
      ws ++ (e.text ++ rest) <:+ text →
      Returns (fun n => expressionLoop n (some e.node)) (pos text (toNext text rest)) r →
      Returns sum (pos text (ws ++ (e.text ++ rest))) r

theorem text_start {e : Infix k} (h : e.Valid) : ∃ c l, e.text = c :: l ∧ isExpressionStart c := by
  induction e with
  | num sign m =>
    obtain ⟨c, l, hl, hc⟩ := literal_start sign m
    exact ⟨c, l, hl, isExpressionStart_of_isNumberStart hc⟩
  | var name => exact ⟨name, [], rfl, isExpressionStart_of_isVariableName h⟩
  | paren => exact ⟨'(', _, rfl, rfl⟩
  | factor f ih => exact ih h
  | term t ih => exact ih h
  | mul left before op after right ihl ihr | add left before op after right ihl ihr =>
    obtain ⟨c, l, hl, hc⟩ := ihl h.1
    refine ⟨c, l ++ before ++ op :: (after ++ right.text), ?_, hc⟩
    rw [text, hl]
    rfl

theorem nextChar_operator {op : Char} {before : List Char} (hb : before.all isspace)
    (hop : isOperator op) : nextChar (before ++ op :: t) = op := by
  rw [nextChar, dropWhile_blanks hb, dropWhile_token (isspace_of_isOperator hop)]
  rfl

theorem toNext_operator {op : Char} {before : List Char} (hb : before.all isspace)
    (hop : isOperator op) : toNext text (before ++ op :: t) = op :: t := by
  rw [toNext, dropWhile_blanks hb, dropWhile_token (isspace_of_isOperator hop)]

theorem isOperator_of_mem {op d d' : Char} (h : op ∈ [d, d'])
    (hd : isOperator d ∧ isOperator d' := by exact ⟨rfl, rfl⟩) : isOperator op := by
  simp only [List.mem_cons, List.not_mem_nil, or_false] at h
  rcases h with rfl | rfl
  · exact hd.1
  · exact hd.2

theorem separated_operator {op : Char} {before : List Char} (e : Infix k)
    (hb : before.all isspace) (hop : isOperator op) : e.Separated (before ++ op :: t) := by
  intro _
  cases before with
  | nil => exact ⟨op, rfl, .inr hop⟩
  | cons b before =>
    rw [List.all_cons, Bool.and_eq_true] at hb
    exact ⟨b, rfl, .inl hb.1⟩

theorem ne_nil_of_suffix {e : Infix k} (hv : e.Valid) (h : ws ++ (e.text ++ rest) <:+ text) :
    text ≠ [] := by
  rintro rfl
  obtain ⟨c, l, htext, -⟩ := text_start hv
  rw [List.suffix_nil, htext] at h
  exact List.cons_ne_nil _ _ (List.append_eq_nil_iff.mp h).2

theorem expression_of_reads {e : Infix .expression} (hv : e.Valid) (he : e.Reads text)
    (hws : ws.all isspace) (hsep : e.Separated rest) (hmul : nextChar rest ≠ '*')
    (hdiv : nextChar rest ≠ '/') (hadd : nextChar (toNext text rest) ≠ '+')
    (hsub : nextChar (toNext text rest) ≠ '-') (h : ws ++ (e.text ++ rest) <:+ text) :
    Returns TeenyBasic.expression (pos text (ws ++ (e.text ++ rest)))
      (some e.node, pos text (toNext text rest)) := by
  have hne := ne_nil_of_suffix hv h
  have hrest : rest <:+ text := suffix_of_append (suffix_of_append h)
  have hdone := expressionLoop_done (o := some e.node) (toNext_suffix hrest) hne hadd hsub
  rw [toNext_toNext] at hdone
  have hsum : Returns sum (pos text ([] ++ (e.text ++ rest))) _ :=
    he rfl hsep hmul hdiv (suffix_of_append h) hdone
  obtain ⟨c, l, htext, hc⟩ := text_start hv
  rw [htext] at h hsum ⊢
  exact (expression_sum hws hc h).mpr hsum

theorem reads_num {sign : Sign} {m : Nat} (hv : (num sign m).Valid) : (num sign m).Reads text := by
  intro ws rest hws hsep h
  obtain ⟨c, l, htext, hc⟩ := literal_start sign m
  have hspace := isspace_of_isExpressionStart (isExpressionStart_of_isNumberStart hc)
  have htoken := literal_isToken sign hv.1 hv.2
  have hnode : initNumNode (some (cString (sign.text ++ Nat.toDigits 10 m))) =
      some (num sign m).node := by
    rw [cString_literal, initNumNode, Option.map_some, strtol_literal hv.1 hv.2]
    rfl
  have hpeek : peek (pos text (ws ++ ((num sign m).text ++ rest))) =
      .ok (c, pos text ((num sign m).text ++ rest)) := by
    rw [Infix.text, htext] at h ⊢
    exact peek_pos hws hspace h
  have hsuffix : sign.text ++ Nat.toDigits 10 m ++ rest <:+ text := suffix_of_append h
  obtain ⟨b, hb, hsep⟩ := hsep trivial
  cases rest with
  | nil => cases hb
  | cons x rest =>
    obtain rfl := Option.some.inj hb
    rcases hsep with hspace | hop
    · refine ⟨rest, suffix_of_cons (suffix_of_append hsuffix), ?_, ?_⟩
      · rw [List.dropWhile_cons_of_pos hspace]
      · rw [factor_num hpeek hc (htoken.read_space hspace hsuffix), hnode]
    · refine ⟨x :: rest, suffix_of_append hsuffix, rfl, ?_⟩
      rw [factor_num hpeek hc (htoken.read_operator hop hsuffix), hnode]

theorem reads {e : Infix k} (hv : e.Valid) : e.Reads text := by
  induction e with
  | num => exact reads_num hv
  | var name =>
    intro ws rest hws hsep h
    have hspace := isspace_of_isExpressionStart (isExpressionStart_of_isVariableName hv)
    have hpeek := peek_pos hws hspace h
    have hadvance := advance_char hspace (suffix_of_append h)
    exact ⟨rest, suffix_of_append (suffix_of_append h), rfl,
      (factor_var hpeek hadvance hv).mpr rfl⟩
  | paren before e after ih =>
    intro ws rest hws hsep h
    obtain ⟨hbefore, hv, hafter⟩ := hv
    have htext : (paren before e after).text ++ rest =
        '(' :: (before ++ (e.text ++ (after ++ ')' :: rest))) := by
      simp only [Infix.text, List.cons_append, List.append_assoc, List.nil_append]
    rw [htext] at h ⊢
    have hsuffix := suffix_of_append h
    have hpeek := peek_pos hws (isspace_of_isOperator rfl) h
    have hadvance := advance_char (isspace_of_isOperator rfl) hsuffix
    have hnext : nextChar (after ++ ')' :: rest) = ')' := nextChar_operator hafter rfl
    have hleft : toNext text (after ++ ')' :: rest) = ')' :: rest := toNext_operator hafter rfl
    have hchar : nextChar (')' :: rest) = ')' := nextChar_token rfl
    have hexpr := expression_of_reads hv (ih hv) hbefore (separated_operator e hafter rfl)
      (by rw [hnext]; decide) (by rw [hnext]; decide) (by rw [hleft, hchar]; decide)
      (by rw [hleft, hchar]; decide) (suffix_of_cons hsuffix)
    rw [hleft] at hexpr
    have hparen : ')' :: rest <:+ text :=
      suffix_of_append (suffix_of_append (suffix_of_append (suffix_of_cons hsuffix)))
    have hclose := advance_char (isspace_of_isOperator rfl) hparen
    refine ⟨rest, suffix_of_cons hparen, rfl, ?_⟩
    refine (factor_paren hpeek hadvance).mpr ⟨_, _, hexpr, ?_⟩
    rw [closeParen, bind_of_ok hclose]
    rfl
  | factor f ih =>
    intro ws rest r hws hsep h hloop
    obtain ⟨u, hu, hnext, hf⟩ := ih hv hws hsep h
    exact term_iff.mpr ⟨some f.node, pos text u, hf, hloop u hu hnext⟩
  | term t ih =>
    intro ws rest r hws hsep hmul hdiv h hloop
    have hne := ne_nil_of_suffix hv h
    have hterm := ih hv hws hsep h fun u hu hnext =>
      termLoop_finished hu hne hnext hmul hdiv
    exact (returns_bind (q := fun n o => expressionLoop n o) term_fueled
      expressionLoop_fueled).mpr ⟨_, _, hterm, hloop⟩
  | mul left before op after right ihl ihr =>
    intro ws rest r hws hsep h hloop
    obtain ⟨hl, hbefore, hop, hafter, hr⟩ := hv
    have htext : (mul left before op after right).text ++ rest =
        left.text ++ (before ++ op :: (after ++ (right.text ++ rest))) := by
      simp only [Infix.text, List.cons_append, List.append_assoc]
    rw [htext] at h ⊢
    have hisop : isOperator op := isOperator_of_mem hop
    refine ihl hl hws (separated_operator left hbefore hisop) h fun u hu hnext => ?_
    have hsuffix := suffix_of_cons (suffix_of_append (suffix_of_append (suffix_of_append h)))
    obtain ⟨v, hv, hnext', hfactor⟩ := ihr hr hafter hsep hsuffix
    rw [dropWhile_blanks hbefore, dropWhile_token (isspace_of_isOperator hisop)] at hnext
    exact (termLoop_operator (advance_token hu hnext) (by simpa using hop)).mpr
      ⟨_, _, hfactor, hloop v hv hnext'⟩
  | add left before op after right ihl ihr =>
    intro ws rest r hws hsep hmul hdiv h hloop
    obtain ⟨hl, hbefore, hop, hafter, hr⟩ := hv
    have htext : (add left before op after right).text ++ rest =
        left.text ++ (before ++ op :: (after ++ (right.text ++ rest))) := by
      simp only [Infix.text, List.cons_append, List.append_assoc]
    rw [htext] at h ⊢
    have hne := ne_nil_of_suffix hl h
    have hisop : isOperator op := isOperator_of_mem hop
    have hnext : nextChar (before ++ op :: (after ++ (right.text ++ rest))) = op :=
      nextChar_operator hbefore hisop
    have hsuffix := suffix_of_append (suffix_of_append (suffix_of_append h))
    refine ihl hl hws (separated_operator left hbefore hisop) ?_ ?_ h ?_
    · rw [hnext]
      rintro rfl
      exact absurd hop (by decide)
    · rw [hnext]
      rintro rfl
      exact absurd hop (by decide)
    · have hadvance : advance (pos text ([] ++ op :: _)) = _ :=
        advance_pos rfl (isspace_of_isOperator hisop) hsuffix
      have hterm := ihr hr hafter hsep (suffix_of_cons hsuffix) fun u hu hnext =>
        termLoop_finished hu hne hnext hmul hdiv
      rw [toNext_operator hbefore hisop]
      exact (expressionLoop_operator hadvance (by simpa using hop)).mpr ⟨_, _, hterm, hloop⟩

theorem text_last {e : Infix k} (h : e.Valid) :
    ∃ x, e.text.getLast? = some x ∧ x ∉ ['+', '-', '*', '/'] := by
  induction e with
  | num sign m =>
    have hne : Nat.toDigits 10 m ≠ [] := Nat.toDigits_ne_nil
    refine ⟨(Nat.toDigits 10 m).getLast hne, ?_, fun hmem => ?_⟩
    · exact (List.getLast?_append_of_ne_nil _ hne).trans (List.getLast?_eq_some_getLast hne)
    · have hdigit := toDigits_isDigit m _ (List.getLast_mem hne)
      generalize (Nat.toDigits 10 m).getLast hne = x at hmem hdigit
      simp only [List.mem_cons, List.not_mem_nil, or_false] at hmem
      rcases hmem with rfl | rfl | rfl | rfl <;> cases hdigit
  | var name =>
    refine ⟨name, rfl, fun hmem => ?_⟩
    change name.isUpper = true at h
    simp only [List.mem_cons, List.not_mem_nil, or_false] at hmem
    rcases hmem with rfl | rfl | rfl | rfl <;> cases h
  | paren before e after =>
    refine ⟨')', ?_, by decide⟩
    rw [Infix.text, ← List.cons_append, List.getLast?_concat]
  | factor f ih => exact ih h
  | term t ih => exact ih h
  | mul left before op after right ihl ihr | add left before op after right ihl ihr =>
    obtain ⟨x, hx, hmem⟩ := ihr h.2.2.2.2
    refine ⟨x, ?_, hmem⟩
    have hne : right.text ≠ [] := by
      intro hnil
      rw [hnil] at hx
      cases hx
    rw [Infix.text, ← List.cons_append, ← List.append_assoc, List.getLast?_append_of_ne_nil _ hne,
      hx]

theorem nextChar_end {x : Char} (hlast : text.getLast? = some x) (hx : x ∉ ['+', '-', '*', '/']) :
    nextChar (toNext text []) ∉ ['+', '-', '*', '/'] := by
  change nextChar text.getLast?.toList ∉ _
  rw [hlast, Option.toList_some, nextChar]
  cases hspace : isspace x with
  | true =>
    rw [List.dropWhile_cons_of_pos hspace]
    decide
  | false =>
    rw [dropWhile_token hspace]
    exact hx

def Loses (text : List Char) : {k : Level} → Infix k → Prop
  | .factor, f => ∀ ⦃ws : List Char⦄, ws.all isspace → ws ++ f.text <:+ text →
      Returns TeenyBasic.factor (pos text (ws ++ f.text)) (none, ended text)
  | .term, t => ∀ ⦃ws : List Char⦄, ws.all isspace → ws ++ t.text <:+ text →
      Returns TeenyBasic.term (pos text (ws ++ t.text)) (none, pos text (toNext text []))
  | .expression, e => ∀ ⦃ws : List Char⦄, ws.all isspace → ws ++ e.text <:+ text →
      Returns sum (pos text (ws ++ e.text)) (none, pos text (toNext text []))

theorem loses_num {sign : Sign} {m : Nat} (hv : (num sign m).Valid) : (num sign m).Loses text := by
  intro ws hws h
  obtain ⟨c, l, htext, hc⟩ := literal_start sign m
  have hspace := isspace_of_isExpressionStart (isExpressionStart_of_isNumberStart hc)
  have hpeek : peek (pos text (ws ++ (num sign m).text)) =
      .ok (c, pos text (num sign m).text) := by
    rw [Infix.text, htext] at h ⊢
    exact peek_pos hws hspace h
  have hword := (literal_isToken sign hv.1 hv.2).read_end (suffix_of_append h)
  exact (factor_num hpeek hc hword).mpr rfl

theorem termLoop_ended (hne : text ≠ []) {o : Option Node} :
    Returns (fun n => termLoop n o) (ended text) (o, pos text (toNext text [])) := by
  have hlast := List.getLast?_eq_some_getLast hne
  have hleft : toNext text [] = [text.getLast hne] := congrArg Option.toList hlast
  rw [hleft]
  exact (termLoop_stop advance_ended (by decide) (rewindOne_ended hlast)).mpr rfl

theorem loses {e : Infix k} (hv : e.Valid) (hnum : e.EndsInNumber) : e.Loses text := by
  have hlost : ∀ {k : Level} {e : Infix k} {ws : List Char}, e.Valid → ws ++ e.text <:+ text →
      text ≠ [] ∧ Returns (fun n => expressionLoop n none) (pos text (toNext text []))
        (none, pos text (toNext text [])) := by
    intro k e ws hv h
    obtain ⟨x, hx, hmem⟩ := text_last hv
    have hlast : text.getLast? = some x := by
      obtain ⟨before, rfl⟩ := h
      rw [← List.append_assoc, List.getLast?_append, hx]
      rfl
    have hne : text ≠ [] := by
      rintro rfl
      cases hlast
    have hnext := nextChar_end hlast hmem
    simp only [List.mem_cons, List.not_mem_nil, or_false, not_or] at hnext
    have hdone := expressionLoop_done (o := none) (toNext_suffix List.nil_suffix) hne hnext.1
      hnext.2.1
    rw [toNext_toNext] at hdone
    exact ⟨hne, hdone⟩
  induction e with
  | num => exact loses_num hv
  | var | paren => exact absurd hnum id
  | factor f ih =>
    intro ws hws h
    exact term_iff.mpr ⟨none, _, ih hv hnum hws h, termLoop_ended (hlost hv h).1⟩
  | term t ih =>
    intro ws hws h
    exact (returns_bind (q := fun n o => expressionLoop n o) term_fueled
      expressionLoop_fueled).mpr ⟨_, _, ih hv hnum hws h, (hlost hv h).2⟩
  | mul left before op after right ihl ihr =>
    intro ws hws h
    have hne := (hlost hv h).1
    obtain ⟨hl, hbefore, hop, hafter, hr⟩ := hv
    rw [Infix.text, List.append_assoc] at h ⊢
    have hisop : isOperator op := isOperator_of_mem hop
    refine reads hl hws (separated_operator left hbefore hisop) h fun u hu hnext => ?_
    rw [dropWhile_blanks hbefore, dropWhile_token (isspace_of_isOperator hisop)] at hnext
    have hsuffix := suffix_of_cons (suffix_of_append (suffix_of_append (suffix_of_append h)))
    refine (termLoop_operator (advance_token hu hnext) (by simpa using hop)).mpr
      ⟨_, _, ihr hr hnum hafter hsuffix, termLoop_ended hne⟩
  | add left before op after right ihl ihr =>
    intro ws hws h
    have hloop := (hlost hv h).2
    obtain ⟨hl, hbefore, hop, hafter, hr⟩ := hv
    rw [Infix.text, List.append_assoc] at h ⊢
    have hisop : isOperator op := isOperator_of_mem hop
    have hnext : nextChar (before ++ op :: (after ++ right.text)) = op :=
      nextChar_operator hbefore hisop
    have hsuffix := suffix_of_append (suffix_of_append (suffix_of_append h))
    have hadvance := advance_char (isspace_of_isOperator hisop) hsuffix
    refine reads hl hws (separated_operator left hbefore hisop) ?_ ?_ h ?_
    · rw [hnext]
      rintro rfl
      exact absurd hop (by decide)
    · rw [hnext]
      rintro rfl
      exact absurd hop (by decide)
    · rw [toNext_operator hbefore hisop]
      exact (expressionLoop_operator hadvance (by simpa using hop)).mpr
        ⟨_, _, ihr hr hnum hafter (suffix_of_cons hsuffix), hloop⟩

theorem expression_loses {e : Infix .expression} (hv : e.Valid) (hnum : e.EndsInNumber)
    (hws : ws.all isspace) (h : ws ++ e.text <:+ text) :
    Returns TeenyBasic.expression (pos text (ws ++ e.text)) (none, pos text (toNext text [])) := by
  have hsum : Returns sum (pos text ([] ++ e.text)) _ := loses hv hnum rfl (suffix_of_append h)
  obtain ⟨c, l, htext, hc⟩ := text_start hv
  rw [htext] at h hsum ⊢
  exact (expression_sum hws hc h).mpr hsum

end Infix

end CS24.TeenyBasic
