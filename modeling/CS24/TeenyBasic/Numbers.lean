import CS24.TeenyBasic.Reading

/-!
# What a number literal means

The token of a number is read by the conversion that finds the base in the number itself, so
that leading zeros make it octal. Digits in base 8 are worth less than in base 10, except for
a single one, and so a literal has its decimal value when at most one digit below 8 comes
after its leading zeros.
-/

namespace CS24.TeenyBasic
open Machine

variable {token digits l : List Char} {c next : Char} {m n a b : Nat} {s s₁ s₂ s' : Stream}

/-- The number that an optional sign and decimal digits stand for, when it has 64 bits. -/
def meaning (token : List Char) : Option Int64 :=
  let (sign, digits) := readSign token
  let value := sign * Nat.ofDigitChars 10 digits 0
  if digits ≠ [] ∧ digits.all Char.isDigit ∧ -2 ^ 63 ≤ value ∧ value < 2 ^ 63 then
    some (.ofInt value)
  else none

def NotOctal (digits : List Char) : Prop :=
  ∀ rest, digits = '0' :: rest → (rest.dropWhile (· = '0')).length ≤ 1 ∧
    ∀ c ∈ rest.dropWhile (· = '0'), c ≠ '8' ∧ c ≠ '9'

/-- An optional sign and decimal digits of a number of 64 bits, which are not octal. -/
def ReadsAsDecimal (token : List Char) : Prop :=
  (meaning token).isSome ∧ NotOctal (readSign token).2

def moreDigits (base n : Nat) (digits : List Char) : Nat :=
  (digits.takeWhile fun c => digitValue c < base).foldl (fun n c => n * base + digitValue c) n

theorem moreDigits_cons (h : digitValue c < m) :
    moreDigits m n (c :: digits) = moreDigits m (n * m + digitValue c) digits := by
  rw [moreDigits, List.takeWhile_cons_of_pos (p := fun c => decide (digitValue c < m))
    (decide_eq_true h)]
  rfl

theorem moreDigits_stop (h : ¬ digitValue c < m) : moreDigits m n (c :: digits) = n := by
  rw [moreDigits, List.takeWhile_cons_of_neg (by simpa using h)]
  rfl

theorem le_moreDigits (hm : 0 < m) : n ≤ moreDigits m n digits := by
  induction digits generalizing n with
  | nil => exact Nat.le_refl n
  | cons c digits ih =>
    by_cases h : digitValue c < m
    · rw [moreDigits_cons h]
      have hmul : n ≤ n * m := Nat.le_mul_of_pos_right n hm
      exact (hmul.trans (Nat.le_add_right _ _)).trans ih
    · rw [moreDigits_stop h]

theorem octal_add_le_decimal (hdigits : ∀ c ∈ digits, c.isDigit) (h : a + n ≤ b) :
    moreDigits 8 a digits + n ≤ moreDigits 10 b digits := by
  induction digits generalizing a b with
  | nil => exact h
  | cons c digits ih =>
    have hc := (digitValue_of_isDigit (hdigits c (List.mem_cons_self ..))).2
    have hdigits' : ∀ d ∈ digits, d.isDigit := fun d hd => hdigits d (List.mem_cons_of_mem _ hd)
    rw [moreDigits_cons hc]
    by_cases hoctal : digitValue c < 8
    · rw [moreDigits_cons hoctal]
      apply ih hdigits'
      omega
    · rw [moreDigits_stop hoctal]
      have hle : b * 10 + digitValue c ≤ moreDigits 10 (b * 10 + digitValue c) digits :=
        le_moreDigits (by decide)
      omega

theorem dropWhile_zero (digits : List Char) :
    ('0' :: digits).dropWhile (· = '0') = digits.dropWhile (· = '0') := rfl

theorem moreDigits_zeros (hm : 0 < m) :
    moreDigits m 0 digits = moreDigits m 0 (digits.dropWhile (· = '0')) := by
  have hzero : digitValue '0' = 0 := rfl
  induction digits with
  | nil => rfl
  | cons c digits ih =>
    by_cases hc : c = '0'
    · subst hc
      rw [dropWhile_zero, ← ih,
        moreDigits_cons (by rw [hzero]; exact hm), hzero, Nat.zero_mul]
    · rw [List.dropWhile_cons_of_neg (by simpa using hc)]

theorem isDigit_cases (h : c.isDigit) :
    c ∈ ['0', '1', '2', '3', '4', '5', '6', '7', '8', '9'] := by
  have hvalue := digitValue_of_isDigit h
  simp only [Char.isDigit, Bool.and_eq_true, decide_eq_true_eq, ge_iff_le,
    UInt32.le_iff_toNat_le] at h
  have h0 : '0'.toNat = 48 := rfl
  obtain ⟨hlo, hhi⟩ : 48 ≤ c.toNat ∧ c.toNat ≤ 57 := h
  rw [← Char.ofNat_toNat c]
  generalize c.toNat = k at hlo hhi
  interval_cases k <;> decide

theorem octal_digit_iff (h : c.isDigit) : digitValue c < 8 ↔ c ≠ '8' ∧ c ≠ '9' := by
  have hmem := isDigit_cases h
  simp only [List.mem_cons, List.not_mem_nil, or_false] at hmem
  rcases hmem with rfl | rfl | rfl | rfl | rfl | rfl | rfl | rfl | rfl | rfl <;> decide

theorem digitValue_pos (h : c.isDigit) (hc : c ≠ '0') : 0 < digitValue c := by
  have hmem := isDigit_cases h
  simp only [List.mem_cons, List.not_mem_nil, or_false] at hmem
  rcases hmem with rfl | rfl | rfl | rfl | rfl | rfl | rfl | rfl | rfl | rfl
  · exact absurd rfl hc
  all_goals decide

theorem octal_eq_decimal_iff (hdigits : ∀ c ∈ digits, c.isDigit)
    (hhead : ∀ c ∈ digits.head?, c ≠ '0') : moreDigits 8 0 digits = moreDigits 10 0 digits ↔
      digits.length ≤ 1 ∧ ∀ c ∈ digits, c ≠ '8' ∧ c ≠ '9' := by
  cases digits with
  | nil => simp [moreDigits]
  | cons c digits =>
    have hc := hdigits c (List.mem_cons_self ..)
    have hpos := digitValue_pos hc (hhead c rfl)
    have hdecimal := (digitValue_of_isDigit hc).2
    rw [moreDigits_cons hdecimal, Nat.zero_mul, Nat.zero_add]
    by_cases hoctal : digitValue c < 8
    · rw [moreDigits_cons hoctal, Nat.zero_mul, Nat.zero_add]
      cases digits with
      | nil =>
        have hne := (octal_digit_iff hc).mp hoctal
        simpa [moreDigits] using hne
      | cons d digits =>
        have hd := (digitValue_of_isDigit (hdigits d (by simp))).2
        have hrest : ∀ x ∈ digits, x.isDigit := fun x hx => hdigits x (by simp [hx])
        have hlt : moreDigits 8 (digitValue c) (d :: digits) + 1 ≤
            moreDigits 10 (digitValue c) (d :: digits) := by
          rw [moreDigits_cons hd]
          by_cases hd' : digitValue d < 8
          · rw [moreDigits_cons hd']
            apply octal_add_le_decimal hrest
            omega
          · rw [moreDigits_stop hd']
            have hle : digitValue c * 10 + digitValue d ≤
              moreDigits 10 (digitValue c * 10 + digitValue d) digits := le_moreDigits (by decide)
            omega
        simp only [List.length_cons]
        constructor
        · intro heq
          omega
        · intro h
          omega
    · rw [moreDigits_stop hoctal]
      have hle : digitValue c ≤ moreDigits 10 (digitValue c) digits := le_moreDigits (by decide)
      constructor
      · intro heq
        omega
      · intro h
        exact absurd ((octal_digit_iff hc).mpr (h.2 c (List.mem_cons_self ..))) hoctal

theorem moreDigits_decimal (hdigits : ∀ c ∈ digits, c.isDigit) :
    moreDigits 10 0 digits = Nat.ofDigitChars 10 digits 0 := readDigits_eq hdigits

theorem readMagnitude_octal (hrest : ∀ c ∈ digits, c.isDigit) :
    readMagnitude ('0' :: digits) = moreDigits 8 0 digits := by
  unfold readMagnitude
  split
  · exact absurd (hrest 'x' (by simp_all)) (by decide)
  · exact absurd (hrest 'X' (by simp_all)) (by decide)
  · rename_i hcons
    rw [(List.cons.inj hcons).2]
    rfl
  · rename_i hne
    exact (hne digits rfl).elim

theorem readMagnitude_decimal (hc : c ≠ '0') :
    readMagnitude (c :: digits) = moreDigits 10 0 (c :: digits) := by
  unfold readMagnitude
  split
  · rename_i hcons
    exact absurd (List.cons.inj hcons).1 hc
  · rename_i hcons
    exact absurd (List.cons.inj hcons).1 hc
  · rename_i hcons
    exact absurd (List.cons.inj hcons).1 hc
  · rfl

theorem moreDigits_zero_cons : moreDigits 10 0 ('0' :: digits) = moreDigits 10 0 digits :=
  moreDigits_cons (by decide)

theorem readMagnitude_le (hdigits : ∀ c ∈ digits, c.isDigit) :
    readMagnitude digits ≤ Nat.ofDigitChars 10 digits 0 := by
  rw [← moreDigits_decimal hdigits]
  cases digits with
  | nil => exact Nat.le_refl 0
  | cons c rest =>
    by_cases hc : c = '0'
    · subst hc
      have hrest : ∀ d ∈ rest, d.isDigit := fun d hd => hdigits d (List.mem_cons_of_mem _ hd)
      rw [readMagnitude_octal hrest, moreDigits_zero_cons]
      exact octal_add_le_decimal (n := 0) hrest (Nat.le_refl 0)
    · rw [readMagnitude_decimal hc]

theorem readMagnitude_eq_iff (hdigits : ∀ c ∈ digits, c.isDigit) :
    readMagnitude digits = Nat.ofDigitChars 10 digits 0 ↔ NotOctal digits := by
  rw [← moreDigits_decimal hdigits]
  cases digits with
  | nil => exact ⟨fun _ rest h => (List.cons_ne_nil _ _ h.symm).elim, fun _ => rfl⟩
  | cons c rest =>
    by_cases hc : c = '0'
    · subst hc
      have hrest : ∀ d ∈ rest, d.isDigit := fun d hd => hdigits d (List.mem_cons_of_mem _ hd)
      have hsig : ∀ d ∈ rest.dropWhile (· = '0'), d.isDigit := fun d hd =>
        hrest d ((List.dropWhile_suffix _).mem hd)
      have hhead : ∀ d ∈ (rest.dropWhile (· = '0')).head?, d ≠ '0' := fun d hd => by
        have hnot := List.head?_dropWhile_not (· = '0') rest
        rw [hd] at hnot
        simpa using hnot
      rw [readMagnitude_octal hrest, moreDigits_zero_cons, moreDigits_zeros (m := 8) (by decide),
        moreDigits_zeros (m := 10) (by decide), octal_eq_decimal_iff hsig hhead]
      constructor
      · rintro h rest' heq
        rw [← (List.cons.inj heq).2]
        exact h
      · exact fun h => h rest rfl
    · rw [readMagnitude_decimal hc]
      exact ⟨fun _ rest' h => absurd (List.cons.inj h).1 hc, fun _ => rfl⟩

theorem advanceLoop_char (h : advanceLoop n s = .ok (c, s')) (hc : c ≠ '\x00') :
    ∃ before rest eof, s' = ⟨c :: before, rest, eof⟩ := by
  induction n generalizing s with
  | zero => cases h
  | succ n ih =>
    obtain ⟨o, s₁, hget, h⟩ := bind_eq_ok.mp h
    cases o with
    | none =>
      cases h
      exact absurd rfl hc
    | some d =>
      dsimp only at h
      split_ifs at h
      · exact ih h
      · cases h
        rw [fgetc] at hget
        split at hget
        · cases hget
        · cases hget
          exact ⟨_, _, _, rfl⟩

theorem peek_stream (h : peek s = .ok (c, s₁)) (hc : c ≠ '\x00') :
    ∃ before rest eof, s₁ = ⟨before, c :: rest, eof⟩ := by
  obtain ⟨d, s', hadvance, h⟩ := bind_eq_ok.mp h
  obtain ⟨u, s'', hrewind, h⟩ := bind_eq_ok.mp h
  cases h
  obtain ⟨k, s', hreads, hadvance⟩ := bind_eq_ok.mp hadvance
  cases hreads
  obtain ⟨before, rest, eof, rfl⟩ := advanceLoop_char hadvance hc
  cases hrewind
  exact ⟨_, _, _, rfl⟩

theorem terminate_token (h : terminate l s = .ok (some token, s')) : token = cString l := by
  rw [terminate] at h
  split_ifs at h
  · cases h
    rfl
  · cases h

theorem advanceUntilSeparatorLoop_extends
    (h : advanceUntilSeparatorLoop n l s = .ok (some token, s')) :
    ∃ more, token = cString (l ++ more) := by
  induction n generalizing l s with
  | zero => cases h
  | succ n ih =>
    have hnil : cString l = cString (l ++ []) := by rw [List.append_nil]
    obtain ⟨o, s₁, hget, h⟩ := bind_eq_ok.mp h
    cases o with
    | none => cases h
    | some d =>
      dsimp only at h
      split_ifs at h
      · obtain ⟨u, s₂, hrewind, h⟩ := bind_eq_ok.mp h
        exact ⟨[], (terminate_token h).trans hnil⟩
      · exact ⟨[], (terminate_token h).trans hnil⟩
      · obtain ⟨more, hmore⟩ := ih h
        exact ⟨d :: more, by rw [hmore, List.append_assoc]; rfl⟩
      · cases h

theorem token_head (hpeek : peek s = .ok (next, s₁)) (hnext : isNumberStart next)
    (hword : advanceUntilSeparator s₁ = .ok (some token, s₂)) : ∃ l, token = next :: l := by
  have hspace : isspace next = false :=
    isspace_of_isExpressionStart (isExpressionStart_of_isNumberStart hnext)
  have hnull : next ≠ '\x00' := by
    rintro rfl
    cases hnext
  obtain ⟨before, rest, eof, rfl⟩ := peek_stream hpeek hnull
  have hfirst : advanceUntilSeparatorLoop (rest.length + 1) [next] ⟨next :: before, rest, eof⟩ =
      .ok (some token, s₂) := by
    have hloop : advanceUntilSeparatorLoop (rest.length + 1 + 1) [] ⟨before, next :: rest, eof⟩ =
      .ok (some token, s₂) := hword
    symm
    rw [← hloop, advanceUntilSeparatorLoop,
      bind_of_ok (show fgetc ⟨before, next :: rest, eof⟩ = .ok (some next, _) from rfl)]
    dsimp only
    rw [if_neg (fun h => absurd h.2 (Nat.lt_irrefl 0)), hspace, if_neg (by decide),
      if_pos (show ([] : List Char).length ≤ maxKeywordLength from Nat.zero_le _)]
    rfl
  obtain ⟨more, rfl⟩ := advanceUntilSeparatorLoop_extends hfirst
  have hne : (next != '\x00') = true := bne_iff_ne.mpr hnull
  refine ⟨cString more, ?_⟩
  rw [cString, List.singleton_append, List.takeWhile_cons_of_pos (p := (· != '\x00')) hne]
  rfl

theorem strtol_number (hnext : isNumberStart next) : strtol (next :: l) =
    .ofInt (max (-2 ^ 63) (min (2 ^ 63 - 1)
      ((readSign (next :: l)).1 * readMagnitude (readSign (next :: l)).2))) := by
  have hspace : isspace next = false :=
    isspace_of_isExpressionStart (isExpressionStart_of_isNumberStart hnext)
  rw [strtol, List.dropWhile_cons_of_neg (by rw [hspace]; decide)]

theorem readSign_unit (token : List Char) :
    (readSign token).1 = 1 ∨ (readSign token).1 = -1 := by
  unfold readSign
  split
  · exact .inr rfl
  · exact .inl rfl
  · exact .inl rfl

theorem ofInt_inj {x y : Int} (hx : -2 ^ 63 ≤ x ∧ x < 2 ^ 63) (hy : -2 ^ 63 ≤ y ∧ y < 2 ^ 63)
    (h : Int64.ofInt x = .ofInt y) : x = y := by
  have htoInt := congrArg Int64.toInt h
  rwa [Int64.toInt_ofInt_of_le hx.1 hx.2, Int64.toInt_ofInt_of_le hy.1 hy.2] at htoInt

theorem meaning_eq_strtol_iff (hnext : isNumberStart next) :
    meaning (next :: l) = some (strtol (next :: l)) ↔ ReadsAsDecimal (next :: l) := by
  rw [strtol_number hnext, ReadsAsDecimal, meaning]
  have hunit := readSign_unit (next :: l)
  generalize readSign (next :: l) = signed at hunit ⊢
  obtain ⟨sign, digits⟩ := signed
  dsimp only at hunit ⊢
  split_ifs with h
  · obtain ⟨hne, hall, hlo, hhi⟩ := h
    have hdigits : ∀ c ∈ digits, c.isDigit := List.all_eq_true.mp hall
    have hle := readMagnitude_le hdigits
    rw [← readMagnitude_eq_iff hdigits]
    generalize readMagnitude digits = read at hle ⊢
    generalize Nat.ofDigitChars 10 digits 0 = value at hle hlo hhi ⊢
    have hrange : -2 ^ 63 ≤ sign * read ∧ sign * read < 2 ^ 63 := by
      rcases hunit with rfl | rfl <;> omega
    rw [min_eq_right (by omega), max_eq_right hrange.1]
    constructor
    · intro heq
      have hvalue := ofInt_inj ⟨hlo, hhi⟩ hrange (Option.some.inj heq)
      refine ⟨rfl, ?_⟩
      rcases hunit with rfl | rfl <;> omega
    · rintro ⟨-, rfl⟩
      rfl
  · exact ⟨nofun, fun h => absurd h.1 (by decide)⟩

/-- A number is read as what it means, and anything else as no number, exactly for the
decimal literals. -/
theorem number_meaning_iff (hpeek : peek s = .ok (next, s₁)) (hnext : isNumberStart next)
    (hword : advanceUntilSeparator s₁ = .ok (some token, s₂)) :
    Returns factor s ((meaning token).map .num, s₂) ↔ ReadsAsDecimal token := by
  obtain ⟨l, rfl⟩ := token_head hpeek hnext hword
  rw [factor_num hpeek hnext hword, ← meaning_eq_strtol_iff hnext]
  constructor
  · intro h
    have hnode := congrArg Prod.fst h
    cases hmeaning : meaning (next :: l) with
    | none =>
      rw [hmeaning] at hnode
      cases hnode
    | some value =>
      rw [hmeaning] at hnode
      exact congrArg some (Node.num.inj (Option.some.inj hnode))
  · intro h
    rw [h]
    rfl

/-- A zero in front of the digits makes them octal. -/
theorem number_meaning_octal : ¬ ∀ (s s₁ s₂ : Stream) (next : Char) (token : List Char),
    peek s = .ok (next, s₁) → isNumberStart next →
      advanceUntilSeparator s₁ = .ok (some token, s₂) →
      Returns factor s ((meaning token).map .num, s₂) := by
  intro h
  have hword : advanceUntilSeparator (pos ['0', '1', '0', ' '] ['0', '1', '0', ' ']) =
    .ok (some ['0', '1', '0'], pos ['0', '1', '0', ' '] []) := rfl
  have hread := h (fopen ['0', '1', '0', ' ']) _ _ '0' _ rfl rfl hword
  rw [factor_num rfl rfl hword] at hread
  have hmeaning : meaning ['0', '1', '0'] = some 10 := by decide
  have hstrtol : strtol ['0', '1', '0'] = 8 := by decide
  rw [hmeaning, initNumNode, Option.map_some, Option.map_some, hstrtol] at hread
  have hvalue := Node.num.inj (Option.some.inj (congrArg Prod.fst hread))
  exact absurd hvalue (by decide)

theorem number_meaning_negative :
    Returns factor (fopen ['-', '4', '2', ' '])
      ((meaning ['-', '4', '2']).map .num, pos ['-', '4', '2', ' '] []) :=
  (number_meaning_iff (show peek (fopen ['-', '4', '2', ' ']) =
    .ok ('-', pos ['-', '4', '2', ' '] ['-', '4', '2', ' ']) from rfl) rfl rfl).mpr
    ⟨by decide, fun rest h => by cases h⟩

end CS24.TeenyBasic
