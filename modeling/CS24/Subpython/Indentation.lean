import CS24.Machine.Program

/-!
# Blocks and their tokens

The actions of the scanner in `grammar.l.c` that turn the white space in front of a line into
`INDENT` and `DEDENT`. Which rule matches is left open: the results hold for any sequence of
matches. The parser is asked after each token whether it wants more; if not, `yylex` returns.
Levels and the depth of brackets are `int`s, which wrap around.
-/

namespace CS24.Subpython.Indentation
open Machine

/-- The tokens of the actions below; any other one by the number of its rule. -/
inductive Token where
  | startSingle | startFile | lineEnd | inputEnd | indent | dedent | indentOverflow
  | rule (n : Nat)
  deriving DecidableEq

/-- `START` and `INNER` -/
inductive Condition where
  | start | inner
  deriving DecidableEq

/-- A match: the empty line of rule 1, the leading white space of rule 2 with its text, the
rules 3 and 6 that push nothing, the newline of rule 5, the brackets of rules 32 to 37, any
other rule, and the end of the file. -/
inductive Match where
  | emptyLine
  | leading (text : List Char)
  | skip
  | newline
  | opening (rule : Nat)
  | closing (rule : Nat)
  | other (rule : Nat)
  | eof

/-- The levels are `yyindent_stack` from `yyindent_pos` down. -/
structure Scanner where
  condition : Condition
  levels : List Int
  bracketDepth : Int
  tokens : List Token

/-- `yylex` returns in the middle of an action, or `yyindent_pos` is below 0. -/
inductive Stop where
  | parser (s : Scanner)
  | outOfBounds

abbrev SM := StateT Scanner (Except Stop)

def indentSize : Int := 8
def maxIndentLevels : Nat := 100

/-- An `int` -/
def wrap (i : Int) : Int := i.bmod (2 ^ 32)

/-- `_new_level` after a character -/
def newLevel (level : Int) (c : Char) : Int :=
  if c = '\t' then wrap ((level.tdiv indentSize + 1) * indentSize)
  else if c = ' ' then wrap (level + 1)
  else level

def levelOf (text : List Char) : Int := (text.takeWhile (· ≠ '\x00')).foldl newLevel 0

section
variable (interactive : Bool) (more : List Token → Bool)

def push (token : Token) : SM Unit := do
  modify fun s => { s with tokens := s.tokens ++ [token] }
  if more (← reads Scanner.tokens) then pure ()
  else throw (.parser (← reads id))

/-- The loop of `CHECK_INDENT_V`, on the levels there are. -/
def dedents (level : Int) : List Int → SM Unit
  | [] => throw .outOfBounds
  | top :: levels =>
    if level < top then do
      push more .dedent
      modify fun s => { s with levels := levels }
      dedents level levels
    else pure ()

def checkIndentV (level : Int) : SM Unit := do
  let levels ← reads Scanner.levels
  dedents more level levels
  if levels.headD 0 < level then
    if (← reads Scanner.levels).length < maxIndentLevels then do
      modify fun s => { s with levels := level :: s.levels }
      push more .indent
    else push more .indentOverflow

/-- The action of a rule, and whether it returns from `yylex`. -/
def act : Match → SM Bool
  | .emptyLine => do
    if interactive then do
      checkIndentV more 0
      push more .lineEnd
    pure false
  | .leading text => do
    if (← reads Scanner.bracketDepth) = 0 then checkIndentV more (levelOf text)
    modify fun s => { s with condition := .inner }
    pure false
  | .skip => pure false
  | .newline => do
    if (← reads Scanner.bracketDepth) = 0 then do
      modify fun s => { s with condition := .start }
      push more .lineEnd
    pure false
  | .opening rule => do
    modify fun s => { s with bracketDepth := wrap (s.bracketDepth + 1) }
    push more (.rule rule)
    pure false
  | .closing rule => do
    modify fun s => { s with bracketDepth := wrap (s.bracketDepth - 1) }
    push more (.rule rule)
    pure false
  | .other rule => do
    push more (.rule rule)
    pure false
  | .eof => do
    match ← reads Scanner.condition with
    | .start => do
      checkIndentV more (levelOf [])
      push more .inputEnd
      pure true
    | .inner => do
      modify fun s => { s with condition := .start }
      push more .lineEnd
      push more .inputEnd
      pure false

def scanLoop : List Match → SM Bool
  | [] => pure false
  | m :: ms => do
    if ← act interactive more m then pure true else scanLoop ms

/-- `yylex`, and whether it has returned. -/
def scan (ms : List Match) : SM Bool := do
  push more (if interactive then .startSingle else .startFile)
  scanLoop interactive more ms

end

def initial : Scanner := ⟨.start, [0], 0, []⟩

/-- How many blocks are open after the tokens, if no `DEDENT` comes without its `INDENT`. -/
def nesting : Nat → List Token → Option Nat
  | depth, [] => some depth
  | depth, .indent :: ts => nesting (depth + 1) ts
  | 0, .dedent :: _ => none
  | depth + 1, .dedent :: ts => nesting depth ts
  | depth, _ :: ts => nesting depth ts

def Token.Plain (t : Token) : Prop := t ≠ .indent ∧ t ≠ .dedent

variable {interactive : Bool} {more : List Token → Bool} {s : Scanner} {depth d : Nat}
  {level : Int} {ts us : List Token} {t : Token} {levels : List Int}

theorem nesting_append (h : nesting depth ts = some d) :
    nesting depth (ts ++ us) = nesting d us := by
  induction ts generalizing depth with
  | nil =>
    obtain rfl := Option.some.inj h
    rfl
  | cons t ts ih =>
    cases t with
    | indent => exact ih h
    | dedent =>
      cases depth with
      | zero => cases h
      | succ depth => exact ih h
    | _ => cases depth <;> exact ih h

theorem nesting_plain (ht : t.Plain) : nesting depth [t] = some depth := by
  cases t with
  | indent => exact absurd rfl ht.1
  | dedent => exact absurd rfl ht.2
  | _ => cases depth <;> rfl

/-- The open blocks have strictly increasing levels from 0 on, and they are those that the
tokens have opened and not closed. -/
structure Sound (s : Scanner) : Prop where
  bottom : s.levels.getLast? = some 0
  sorted : s.levels.Pairwise (· > ·)
  length : s.levels.length ≤ maxIndentLevels
  nested : nesting 0 s.tokens = some (s.levels.length - 1)

/-- When the parser ends the scan, no `DEDENT` has come without its `INDENT`. -/
def Stopped : Stop → Prop
  | .parser s => ∃ d, nesting 0 s.tokens = some d
  | .outOfBounds => False

def reindent (level : Int) (levels : List Int) : List Int :=
  if levels.headD 0 < level then
    if levels.length < maxIndentLevels then level :: levels else levels
  else levels.dropWhile (level < ·)

theorem push_spec (h : nesting 0 (s.tokens ++ [t]) = some d) :
    wp (push more t) Stopped (fun _ s' => s' = { s with tokens := s.tokens ++ [t] }) s := by
  rw [push, wp_bind, wp_modify, wp_bind_of_ok (show reads Scanner.tokens _ = .ok (_, _) from rfl)]
  refine wp_ite.mpr ⟨fun _ => rfl, fun _ => ?_⟩
  exact ⟨d, h⟩

theorem push_plain (hs : Sound s) (ht : t.Plain) : wp (push more t) Stopped
    (fun _ s' => Sound s' ∧ s' = { s with tokens := s.tokens ++ [t] }) s := by
  have hnested : nesting 0 (s.tokens ++ [t]) = some (s.levels.length - 1) := by
    rw [nesting_append hs.nested]
    exact nesting_plain ht
  refine (push_spec hnested).post fun _ s' hs' => ⟨?_, hs'⟩
  rw [hs']
  exact ⟨hs.bottom, hs.sorted, hs.length, hnested⟩

theorem dedents_spec (hlevel : 0 ≤ level) (hlevels : s.levels = levels)
    (hbottom : levels.getLast? = some 0)
    (hnested : nesting 0 s.tokens = some (levels.length - 1)) :
    wp (dedents more level levels) Stopped (fun _ s' =>
      s'.levels = levels.dropWhile (level < ·) ∧ s'.levels.getLast? = some 0 ∧
      nesting 0 s'.tokens = some (s'.levels.length - 1) ∧ s'.condition = s.condition) s := by
  induction levels generalizing s with
  | nil => cases hbottom
  | cons top levels ih =>
    rw [dedents, List.dropWhile_cons]
    by_cases htop : level < top
    · rw [if_pos htop, if_pos (decide_eq_true htop)]
      cases levels with
      | nil =>
        -- the lowest level is 0, which is above none
        obtain rfl : top = 0 := Option.some.inj hbottom
        exact absurd htop (not_lt.mpr hlevel)
      | cons next levels =>
        have hpush : nesting 0 (s.tokens ++ [.dedent]) = some levels.length := by
          rw [nesting_append hnested]
          rfl
        rw [List.getLast?_cons_cons] at hbottom
        refine (push_spec hpush).bind fun _ s₁ hs₁ => ?_
        rw [wp_bind, wp_modify, hs₁]
        exact ih rfl hbottom hpush
    · rw [if_neg htop, if_neg (by simpa using htop)]
      exact ⟨hlevels, hlevels ▸ hbottom, hlevels ▸ hnested, rfl⟩

theorem checkIndentV_spec (hs : Sound s) (hlevel : 0 ≤ level) :
    wp (checkIndentV more level) Stopped (fun _ s' =>
    Sound s' ∧ s'.levels = reindent level s.levels ∧ s'.condition = s.condition) s := by
  rw [checkIndentV, wp_bind_of_ok (show reads Scanner.levels s = .ok (_, _) from rfl)]
  refine (dedents_spec hlevel rfl hs.bottom hs.nested).bind fun _ s₁ hs₁ => ?_
  obtain ⟨hlevels, hbottom, hnested, hcondition⟩ := hs₁
  rw [reindent]
  by_cases hdeeper : s.levels.headD 0 < level
  · -- nothing was closed
    have hkept : s₁.levels = s.levels := by
      rw [hlevels]
      cases hl : s.levels with
      | nil => rfl
      | cons top levels =>
        rw [hl] at hdeeper
        have hdeeper : top < level := hdeeper
        rw [List.dropWhile_cons_of_neg]
        simp
        omega
    rw [if_pos hdeeper, if_pos hdeeper,
      wp_bind_of_ok (show reads Scanner.levels s₁ = .ok (_, _) from rfl), hkept]
    rw [hkept] at hnested hbottom
    obtain ⟨top, levels, hl⟩ : ∃ top levels, s.levels = top :: levels := by
      cases hl : s.levels with
      | nil =>
        rw [hl] at hbottom
        cases hbottom
      | cons top levels => exact ⟨top, levels, rfl⟩
    by_cases hroom : s.levels.length < maxIndentLevels
    · rw [if_pos hroom, if_pos hroom, wp_bind, wp_modify]
      have hpush : nesting 0 (s₁.tokens ++ [.indent]) = some s.levels.length := by
        rw [nesting_append hnested, hl]
        rfl
      refine (push_spec (s := { s₁ with levels := level :: s₁.levels }) hpush).post
        fun _ s₂ hs₂ => ?_
      subst hs₂
      refine ⟨⟨?_, .cons ?_ (hkept ▸ hs.sorted), ?_, hpush.trans ?_⟩, ?_, hcondition⟩
      · rw [hkept, hl, List.getLast?_cons_cons, ← hl]
        exact hs.bottom
      · intro q hq
        rw [hkept, hl] at hq
        rw [hl] at hdeeper
        have htop : top < level := hdeeper
        rcases List.mem_cons.mp hq with rfl | hq
        · exact htop
        · have hsorted := hs.sorted
          rw [hl] at hsorted
          have hlt := (List.pairwise_cons.mp hsorted).1 q hq
          exact lt_trans hlt htop
      · change (level :: s₁.levels).length ≤ _
        rw [List.length_cons, hkept]
        exact hroom
      · change some s.levels.length = some ((level :: s₁.levels).length - 1)
        rw [hkept]
        rfl
      · change level :: s₁.levels = _
        rw [hkept]
    · rw [if_neg hroom, if_neg hroom]
      have hs₁ : Sound s₁ := by
        refine ⟨?_, ?_, ?_, ?_⟩
        · rw [hkept]
          exact hs.bottom
        · rw [hkept]
          exact hs.sorted
        · rw [hkept]
          exact hs.length
        · rw [hkept]
          exact hnested
      refine (push_plain hs₁ ⟨by decide, by decide⟩).post fun _ s₂ hs₂ => ?_
      obtain ⟨hsound, rfl⟩ := hs₂
      exact ⟨hsound, hkept, hcondition⟩
  · rw [if_neg hdeeper, if_neg hdeeper]
    have hsuffix : s₁.levels <:+ s.levels := hlevels ▸ List.dropWhile_suffix _
    exact ⟨⟨hbottom, hs.sorted.sublist hsuffix.sublist, hsuffix.length_le.trans hs.length, hnested⟩,
      hlevels, hcondition⟩

theorem Sound.top_nonneg (hs : Sound s) : 0 ≤ s.levels.headD 0 := by
  have hbottom := hs.bottom
  have hsorted := hs.sorted
  cases hl : s.levels with
  | nil => exact le_rfl
  | cons top levels =>
    rw [hl] at hbottom hsorted
    cases levels with
    | nil =>
      obtain rfl : top = 0 := Option.some.inj hbottom
      exact le_rfl
    | cons next levels =>
      rw [List.getLast?_cons_cons] at hbottom
      have hlast : (0 : Int) ∈ next :: levels := List.mem_of_getLast? hbottom
      exact (List.pairwise_cons.mp hsorted).1 0 hlast |>.le

theorem reindent_zero (hs : Sound s) : reindent 0 s.levels = [0] := by
  rw [reindent, if_neg (not_lt.mpr hs.top_nonneg)]
  have hbottom := hs.bottom
  have hsorted := hs.sorted
  generalize s.levels = levels at hbottom hsorted
  induction levels with
  | nil => cases hbottom
  | cons top levels ih =>
    cases levels with
    | nil =>
      obtain rfl : top = 0 := Option.some.inj hbottom
      rfl
    | cons next levels =>
      rw [List.getLast?_cons_cons] at hbottom
      have hlast : (0 : Int) ∈ next :: levels := List.mem_of_getLast? hbottom
      have htop : 0 < top := (List.pairwise_cons.mp hsorted).1 0 hlast
      rw [List.dropWhile_cons_of_pos (by simpa using htop)]
      exact ih hbottom (List.pairwise_cons.mp hsorted).2

/-- A line does not start with so much white space that its level overflows. -/
def Match.Short (m : Match) : Prop := ∀ text, m = .leading text → text.length < 2 ^ 28

theorem newLevel_bounds (h₀ : 0 ≤ level) (hlt : level < 2 ^ 31 - 8) (c : Char) :
    0 ≤ newLevel level c ∧ newLevel level c ≤ level + 8 := by
  have hwrap : ∀ {i : Int}, 0 ≤ i → i < 2 ^ 31 → wrap i = i := fun h₁ h₂ =>
    Int.bmod_eq_of_le (by omega) (by omega)
  have htdiv : level.tdiv indentSize = level / 8 := Int.tdiv_eq_ediv_of_nonneg h₀
  rw [newLevel, htdiv, indentSize]
  split_ifs
  · rw [hwrap (by omega) (by omega)]
    omega
  · rw [hwrap (by omega) (by omega)]
    omega
  · omega

theorem foldl_newLevel_nonneg {text : List Char} (h₀ : 0 ≤ level)
    (hlt : level + 8 * text.length < 2 ^ 31) : 0 ≤ text.foldl newLevel level := by
  induction text generalizing level with
  | nil => exact h₀
  | cons c text ih =>
    rw [List.length_cons] at hlt
    obtain ⟨hnonneg, hle⟩ := newLevel_bounds h₀ (by omega) c
    exact ih hnonneg (by omega)

theorem levelOf_nonneg {text : List Char} (h : text.length < 2 ^ 28) : 0 ≤ levelOf text := by
  have hlength := (List.takeWhile_prefix (· ≠ '\x00') (l := text)).length_le
  exact foldl_newLevel_nonneg le_rfl (by omega)

theorem act_spec (hs : Sound s) {m : Match} (hm : m.Short) :
    wp (act interactive more m) Stopped (fun finished s' => Sound s' ∧
      (finished = true → s'.levels = [0])) s := by
  have hplain : ∀ {s : Scanner} {t : Token}, Sound s → t.Plain →
      wp (do push more t; pure false) Stopped (fun finished s' => Sound s' ∧
        (finished = true → s'.levels = [0])) s := by
    intro s t hs ht
    refine (push_plain hs ht).bind fun _ s₁ hs₁ => ?_
    exact ⟨hs₁.1, fun h => by cases h⟩
  cases m with
  | emptyLine =>
    cases interactive with
    | false => exact ⟨hs, fun h => by cases h⟩
    | true =>
      change wp (checkIndentV more 0 >>= fun _ => do push more .lineEnd; pure false) _ _ s
      refine (checkIndentV_spec hs le_rfl).bind fun _ s₁ hs₁ => ?_
      exact hplain hs₁.1 ⟨by decide, by decide⟩
  | leading text =>
    have hinner : ∀ {s : Scanner}, Sound s → wp (do
        modify fun s => { s with condition := .inner }
        pure false : SM Bool) Stopped (fun finished s' => Sound s' ∧
          (finished = true → s'.levels = [0])) s :=
      fun hs => ⟨⟨hs.bottom, hs.sorted, hs.length, hs.nested⟩, fun h => by cases h⟩
    rw [act, wp_bind_of_ok (show reads Scanner.bracketDepth s = .ok (_, _) from rfl)]
    by_cases hdepth : s.bracketDepth = 0
    · rw [if_pos hdepth]
      refine (checkIndentV_spec hs (levelOf_nonneg (hm text rfl))).bind fun _ s₁ hs₁ => ?_
      exact hinner hs₁.1
    · rw [if_neg hdepth]
      exact hinner hs
  | skip => exact ⟨hs, fun h => by cases h⟩
  | newline =>
    rw [act, wp_bind_of_ok (show reads Scanner.bracketDepth s = .ok (_, _) from rfl)]
    by_cases hdepth : s.bracketDepth = 0
    · rw [if_pos hdepth, wp_bind, wp_modify]
      exact hplain ⟨hs.bottom, hs.sorted, hs.length, hs.nested⟩ ⟨by decide, by decide⟩
    · rw [if_neg hdepth]
      exact ⟨hs, fun h => by cases h⟩
  | opening rule =>
    rw [act, wp_bind, wp_modify]
    exact hplain ⟨hs.bottom, hs.sorted, hs.length, hs.nested⟩ ⟨by simp, by simp⟩
  | closing rule =>
    rw [act, wp_bind, wp_modify]
    exact hplain ⟨hs.bottom, hs.sorted, hs.length, hs.nested⟩ ⟨by simp, by simp⟩
  | other rule => exact hplain hs ⟨by simp, by simp⟩
  | eof =>
    rw [act, wp_bind_of_ok (show reads Scanner.condition s = .ok (_, _) from rfl)]
    cases s.condition with
    | start =>
      refine (checkIndentV_spec hs (levelOf_nonneg (by decide))).bind fun _ s₁ hs₁ => ?_
      obtain ⟨hs₁, hlevels, -⟩ := hs₁
      refine (push_plain hs₁ ⟨by decide, by decide⟩).bind fun _ s₂ hs₂ => ?_
      obtain ⟨hs₂, rfl⟩ := hs₂
      exact ⟨hs₂, fun _ => hlevels.trans (reindent_zero hs)⟩
    | inner =>
      rw [wp_bind, wp_modify]
      have hstart : Sound { s with condition := .start } :=
        ⟨hs.bottom, hs.sorted, hs.length, hs.nested⟩
      refine (push_plain hstart ⟨by decide, by decide⟩).bind fun _ s₁ hs₁ => ?_
      exact hplain hs₁.1 ⟨by decide, by decide⟩

theorem scanLoop_spec (hs : Sound s) {ms : List Match} (hms : ∀ m ∈ ms, m.Short) :
    wp (scanLoop interactive more ms) Stopped (fun finished s' => Sound s' ∧
      (finished = true → s'.levels = [0])) s := by
  induction ms generalizing s with
  | nil => exact ⟨hs, fun h => by cases h⟩
  | cons m ms ih =>
    obtain ⟨hm, hms⟩ := List.forall_mem_cons.mp hms
    refine (act_spec hs hm).bind fun finished s₁ hs₁ => ?_
    exact wp_ite.mpr ⟨fun h => ⟨hs₁.1, fun _ => hs₁.2 h⟩, fun _ => ih hs₁.1 hms⟩

theorem initial_sound : Sound initial :=
  ⟨rfl, List.pairwise_singleton _ _, by decide, rfl⟩

/-- Whatever text is scanned, with fewer than 2^28 characters of white space in front of a line,
and wherever the parser stops: no `DEDENT` comes without its `INDENT`; between two matches the open
blocks are those of the stack, at most 100 levels that increase strictly from 0; and when `yylex`
returns at the end of the file all are closed. -/
theorem blocks_nested (interactive : Bool) (more : List Token → Bool) {ms : List Match}
    (hms : ∀ m ∈ ms, m.Short) :
    wp (scan interactive more ms) Stopped (fun finished s => Sound s ∧
      (finished = true → nesting 0 s.tokens = some 0)) initial := by
  refine (push_plain initial_sound ?_).bind fun _ s hs => ?_
  · cases interactive with
    | false => exact ⟨by decide, by decide⟩
    | true => exact ⟨by decide, by decide⟩
  · refine (scanLoop_spec hs.1 hms).post fun finished s' hs' => ⟨hs'.1, fun h => ?_⟩
    rw [hs'.1.nested, hs'.2 h]
    rfl

/-- A block inside a block, closed by a bracket's line and by the end of the file, where the first
`INPUT_END` comes inside. -/
def nestedFile : List Match :=
  [.other 7, .newline, .leading [' '], .other 8, .newline, .leading ['\t'], .opening 34, .newline,
    .leading [], .closing 35, .newline, .leading [' '], .other 43, .eof, .eof]

theorem blocks_nested_file : ∃ s, scan false (fun _ => true) nestedFile initial = .ok (true, s) ∧
    s.tokens = [.startFile, .rule 7, .lineEnd, .indent, .rule 8, .lineEnd, .indent, .rule 34,
      .rule 35, .lineEnd, .dedent, .rule 43, .lineEnd, .inputEnd, .dedent, .inputEnd] ∧
    s.levels = [0] ∧ nesting 0 s.tokens = some 0 := by
  have hshort : ∀ m ∈ nestedFile, m.Short := by
    intro m hm text htext
    subst htext
    have hlength : text.length ≤ 1 := by
      simp only [nestedFile, List.mem_cons, Match.leading.injEq, reduceCtorEq, false_or,
        List.not_mem_nil, or_false] at hm
      rcases hm with rfl | rfl | rfl | rfl <;> decide
    omega
  have hspec := blocks_nested false (fun _ => true) hshort
  exact ⟨_, rfl, rfl, rfl, (hspec.ok rfl).2 rfl⟩

end CS24.Subpython.Indentation
