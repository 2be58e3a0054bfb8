import CS24.Proxy.RequestLine

/-!
# The headers that go to the server

`filter_rest_headers` copies the lines of the client, with some of them dropped or replaced,
and adds the ones that are missing. It compares the names of headers as they are written,
and HTTP compares them without regard to capitals.
-/

namespace CS24.Proxy.Headers
open RequestLine

variable {input line rest out host xs ys : Bytes} {lines : List Bytes} {lastC : UInt8}
  {accepts : Bytes → Bytes → Bool} {sentHost sentConnection : Bool} {fuel : Nat}

/-- `write_string` to the server, which has received `out`; `accepts` says whether the write
succeeds, and then it is in full. -/
def writeString (accepts : Bytes → Bytes → Bool) (out str : Bytes) : Bool × Bytes :=
  if accepts out str then (true, out ++ str) else (false, out)

def writeAll (accepts : Bytes → Bytes → Bool) (out : Bytes) : List Bytes → Bool × Bytes
  | [] => (true, out)
  | str :: strs =>
    let (success, out) := writeString accepts out str
    if success then writeAll accepts out strs else (false, out)

def startsWith (str start : Bytes) : Bool := start.isPrefixOf str

/-- The part of `filter_rest_headers` after the loop -/
def finish (accepts : Bytes → Bytes → Bool) (host : Bytes) (sentHost sentConnection : Bool)
    (out : Bytes) : Bool × Bytes :=
  writeAll accepts out
    ((if sentHost then [] else [ascii "Host: ", host, ascii "\r\n"]) ++
      (if sentConnection then [] else [ascii "Connection: close\r\n"]) ++ [ascii "\r\n"])

def replaced (line : Bytes) (sentHost sentConnection : Bool) : Bytes × Bool × Bool :=
  if startsWith line (ascii "Host:") then (line, true, sentConnection)
  else if startsWith line (ascii "Connection:") then
    (ascii "Connection: close\r\n", sentHost, true)
  else if startsWith line (ascii "Proxy-Connection:") then
    (ascii "Proxy-Connection: close\r\n", sentHost, sentConnection)
  else (line, sentHost, sentConnection)

/-- The loop of `filter_rest_headers` over the lines -/
def filterFrom (accepts : Bytes → Bytes → Bool) (host : Bytes) :
    Nat → Bool → Bool → Bytes → Bytes → Option (Bool × Bytes)
  | 0, _, _, _, _ => none
  | fuel + 1, sentHost, sentConnection, input, out =>
    match readFullLine input with
    | none => some (false, out)
    | some (buf, rest) =>
      let line := cString buf
      if line = ascii "\r\n" then some (finish accepts host sentHost sentConnection out)
      else if startsWith line (ascii "Keep-Alive:") then
        filterFrom accepts host fuel sentHost sentConnection rest out
      else
        let (line, sentHost, sentConnection) := replaced line sentHost sentConnection
        let (success, out) := writeString accepts out line
        if success then filterFrom accepts host fuel sentHost sentConnection rest out
        else some (false, out)

/-- `filter_rest_headers`, for input with fewer than `fuel` lines: what it returns, and what it
sends to the server -/
def filterRestHeaders (accepts : Bytes → Bytes → Bool) (fuel : Nat) (input host : Bytes) :
    Option (Bool × Bytes) :=
  filterFrom accepts host fuel false false input []

inductive HeaderName where
  | keepAlive
  | host
  | connection
  | proxyConnection

def HeaderName.text : HeaderName → Bytes
  | .keepAlive => ascii "Keep-Alive:"
  | .host => ascii "Host:"
  | .connection => ascii "Connection:"
  | .proxyConnection => ascii "Proxy-Connection:"

def lower (c : UInt8) : UInt8 := if 65 ≤ c ∧ c ≤ 90 then c + 32 else c

abbrev Written (name : HeaderName) (line : Bytes) : Prop := name.text <+: line

abbrev Named (name : HeaderName) (line : Bytes) : Prop :=
  name.text.map lower <+: line.map lower

variable {name name' : HeaderName}

theorem Written.named (h : Written name line) : Named name line := h.map lower

theorem startsWith_eq (str start : Bytes) : startsWith str start = decide (start <+: str) := by
  rw [startsWith, Bool.eq_iff_iff, List.isPrefixOf_iff_prefix, decide_eq_true_eq]

theorem head_of_prefix {start : Bytes} (h : start <+: line) (hne : start ≠ []) :
    line.head? = start.head? := by
  obtain ⟨after, rfl⟩ := h
  cases start with
  | nil => exact absurd rfl hne
  | cons c start => rfl

theorem Named.unique (h : Named name line) (h' : Named name' line) : name = name' := by
  have hhead : (name.text.map lower).head? = (name'.text.map lower).head? := by
    rw [← head_of_prefix h (by cases name <;> decide),
      ← head_of_prefix h' (by cases name' <;> decide)]
  cases name <;> cases name' <;> first | rfl | exact absurd hhead (by decide)

theorem not_written (h : Named name line) (hne : name' ≠ name) : ¬ Written name' line :=
  fun h' => hne (h'.named.unique h)

theorem lower_eq_colon : ∀ c : UInt8, lower c = 58 ↔ c = 58 := by
  have hall : ∀ i : Fin 256, lower (UInt8.ofFin i) = 58 ↔ UInt8.ofFin i = 58 := by decide +kernel
  exact fun c => hall c.toFin

theorem not_mem_takeWhile (h : Named name line) : 13 ∉ line.takeWhile (· ≠ 58) := by
  intro hmem
  have hlower : lower 13 ∈ (line.takeWhile (· ≠ 58)).map lower := List.mem_map_of_mem hmem
  have hmap : (line.takeWhile (· ≠ 58)).map lower = (line.map lower).takeWhile (· ≠ 58) := by
    rw [List.takeWhile_map]
    congr 2
    funext c
    simp [lower_eq_colon]
  obtain ⟨after, hafter⟩ := h
  rw [hmap, ← hafter] at hlower
  have hname : ∀ name : HeaderName,
      lower 13 ∉ (name.text.map lower ++ after).takeWhile (· ≠ 58) := by
    intro name
    cases name <;> simp [HeaderName.text, ascii, lower]
  exact hname name hlower

/-- A header line of the client -/
structure HeaderLine (line : Bytes) : Prop where
  nul : 0 ∉ line
  header : line ≠ ascii "\r\n"
  whole : FirstLine line line

def passed (line : Bytes) : Bytes :=
  if Written .keepAlive line then []
  else if Written .connection line then ascii "Connection: close\r\n"
  else if Written .proxyConnection line then ascii "Proxy-Connection: close\r\n"
  else line

def trailer (host : Bytes) (sentHost sentConnection : Bool) : Bytes :=
  (if sentHost then [] else ascii "Host: " ++ host ++ ascii "\r\n") ++
    (if sentConnection then [] else ascii "Connection: close\r\n") ++ ascii "\r\n"

/-- Every write succeeds. -/
def always (_ _ : Bytes) : Bool := true

theorem firstLine_append (h : FirstLine line line) (rest : Bytes) :
    FirstLine (line ++ rest) line := by
  refine ⟨List.prefix_append line rest, h.ends, fun l hl hends => ?_⟩
  rcases Nat.le_total line.length l.length with hle | hle
  · exact hle
  · exact h.shortest l
      (List.prefix_of_prefix_length_le hl (List.prefix_append line rest) hle) hends

theorem readFullLine_append (h : FirstLine line line) (rest : Bytes) :
    readFullLine (line ++ rest) = some (line, rest) := by
  obtain ⟨rest', hread⟩ := firstLine_iff.mp (firstLine_append h rest)
  have happend := (readFullLineFrom_some hread).1
  rw [hread, List.append_cancel_left happend]

theorem finish_always : finish always host sentHost sentConnection out =
    (true, out ++ trailer host sentHost sentConnection) := by
  cases sentHost <;> cases sentConnection <;>
    simp [finish, writeAll, writeString, always, trailer]

theorem startsWith_text : startsWith line name.text = decide (Written name line) :=
  startsWith_eq ..

theorem replaced_eq (hkeep : ¬ Written .keepAlive line) :
    replaced line sentHost sentConnection =
      (passed line, sentHost || decide (Written .host line),
        sentConnection || decide (Written .connection line)) := by
  have hnot : ∀ {name name'}, name' ≠ name → Written name line →
      decide (Written name' line) = false := fun hne h => decide_eq_false (not_written h.named hne)
  have htexts : replaced line sentHost sentConnection =
      if startsWith line HeaderName.host.text then (line, true, sentConnection)
      else if startsWith line HeaderName.connection.text then
        (ascii "Connection: close\r\n", sentHost, true)
      else if startsWith line HeaderName.proxyConnection.text then
        (ascii "Proxy-Connection: close\r\n", sentHost, sentConnection)
      else (line, sentHost, sentConnection) := rfl
  rw [htexts, startsWith_text, startsWith_text, startsWith_text, passed, if_neg hkeep]
  by_cases hhost : Written .host line
  · rw [decide_eq_true hhost, hnot (by simp) hhost, if_pos rfl,
      if_neg (not_written hhost.named (by simp)), if_neg (not_written hhost.named (by simp))]
    simp
  by_cases hconnection : Written .connection line
  · rw [decide_eq_false hhost, decide_eq_true hconnection, if_pos hconnection]
    simp
  rw [decide_eq_false hhost, decide_eq_false hconnection, if_neg hconnection]
  by_cases hproxy : Written .proxyConnection line
  · rw [decide_eq_true hproxy, if_pos hproxy]
    simp
  · rw [decide_eq_false hproxy, if_neg hproxy]
    simp

theorem filterFrom_line (h : HeaderLine line) :
    filterFrom always host (fuel + 1) sentHost sentConnection (line ++ rest) out =
      filterFrom always host fuel (sentHost || decide (Written .host line))
        (sentConnection || decide (Written .connection line)) rest (out ++ passed line) := by
  have hstart : startsWith line (ascii "Keep-Alive:") = decide (Written .keepAlive line) :=
    startsWith_eq ..
  rw [filterFrom, readFullLine_append h.whole]
  dsimp only
  rw [cString_of_not_mem h.nul, if_neg h.header, hstart]
  by_cases hkeep : Written .keepAlive line
  · have hhost : ¬ Written .host line := not_written hkeep.named (by simp)
    have hconnection : ¬ Written .connection line := not_written hkeep.named (by simp)
    rw [if_pos (decide_eq_true hkeep), decide_eq_false hhost, decide_eq_false hconnection,
      passed, if_pos hkeep, Bool.or_false, Bool.or_false, List.append_nil]
  · rw [if_neg (by simpa using hkeep), replaced_eq hkeep]
    rfl

theorem filterFrom_lines (h : ∀ line ∈ lines, HeaderLine line) (hfuel : lines.length < fuel) :
    filterFrom always host fuel sentHost sentConnection
        (lines.flatten ++ (ascii "\r\n" ++ rest)) out =
      some (true, out ++ lines.flatMap passed ++
        trailer host (sentHost || decide (∃ line ∈ lines, Written .host line))
          (sentConnection || decide (∃ line ∈ lines, Written .connection line))) := by
  induction lines generalizing fuel sentHost sentConnection out with
  | nil =>
    obtain ⟨fuel, rfl⟩ := Nat.exists_eq_succ_of_ne_zero (Nat.ne_of_gt hfuel)
    have hline : FirstLine (ascii "\r\n") (ascii "\r\n") := firstLine_iff.mpr ⟨[], by decide⟩
    rw [List.flatten_nil, List.nil_append, filterFrom, readFullLine_append hline]
    dsimp only
    rw [cString_of_not_mem (by decide), if_pos rfl, finish_always]
    simp
  | cons line lines ih =>
    obtain ⟨fuel, rfl⟩ := Nat.exists_eq_succ_of_ne_zero (Nat.ne_of_gt (Nat.zero_lt_of_lt hfuel))
    obtain ⟨hline, hrest⟩ := List.forall_mem_cons.mp h
    have hlength : lines.length < fuel := Nat.lt_of_succ_lt_succ hfuel
    have hany : ∀ name, decide (∃ l ∈ line :: lines, Written name l) =
        (decide (Written name line) || decide (∃ l ∈ lines, Written name l)) := fun name => by
      simp
    rw [List.flatten_cons, List.append_assoc, filterFrom_line hline,
      ih hrest hlength, List.flatMap_cons]
    simp only [hany, Bool.or_assoc, List.append_assoc]

/-- The name of the line, as it is written, with the value `close` -/
def closed (line : Bytes) : Bytes := line.takeWhile (· ≠ 58) ++ ascii ": close\r\n"

def rewritten (line : Bytes) : Bytes :=
  if Named .keepAlive line then []
  else if Named .connection line ∨ Named .proxyConnection line then closed line
  else line

/-- The headers of a request on a connection that is not persistent. -/
def nonPersistent (host : Bytes) (lines : List Bytes) : Bytes :=
  lines.flatMap rewritten ++ trailer host (decide (∃ line ∈ lines, Named .host line))
    (decide (∃ line ∈ lines, Named .connection line))

/-- The lines are written with the capitals of the program where it matters. -/
structure Capitalised (lines : List Bytes) : Prop where
  keepAlive : ∀ line ∈ lines, Named .keepAlive line → Written .keepAlive line
  host : (∃ line ∈ lines, Named .host line) → ∃ line ∈ lines, Written .host line
  connection : (∃ line ∈ lines, Named .connection line) → ∃ line ∈ lines, Written .connection line
  close : ∀ line ∈ lines, (Named .connection line ∧ ¬ Written .connection line ∨
    Named .proxyConnection line ∧ ¬ Written .proxyConnection line) → line = closed line

theorem closed_of_written {after : Bytes} (h : name = .connection ∨ name = .proxyConnection) :
    closed (name.text ++ after) = name.text ++ ascii " close\r\n" := by
  rcases h with rfl | rfl <;> simp [closed, HeaderName.text, ascii]

theorem passed_eq_rewritten (h : Written name line) : passed line = rewritten line := by
  have hno : ∀ {name'}, name' ≠ name → ¬ Written name' line ∧ ¬ Named name' line := fun hne =>
    ⟨not_written h.named hne, fun h' => hne (h'.unique h.named)⟩
  cases name with
  | keepAlive => rw [passed, if_pos h, rewritten, if_pos h.named]
  | host =>
    rw [passed, if_neg (hno (by simp)).1, if_neg (hno (by simp)).1, if_neg (hno (by simp)).1,
      rewritten, if_neg (hno (by simp)).2,
      if_neg (not_or.mpr ⟨(hno (by simp)).2, (hno (by simp)).2⟩)]
  | connection =>
    obtain ⟨after, rfl⟩ := id h
    rw [passed, if_neg (hno (by simp)).1, if_pos h, rewritten, if_neg (hno (by simp)).2,
      if_pos (.inl h.named), closed_of_written (.inl rfl)]
    rfl
  | proxyConnection =>
    obtain ⟨after, rfl⟩ := id h
    rw [passed, if_neg (hno (by simp)).1, if_neg (hno (by simp)).1, if_pos h, rewritten,
      if_neg (hno (by simp)).2, if_pos (.inr h.named), closed_of_written (.inr rfl)]
    rfl

theorem passed_of_not_written (h : ∀ name, ¬ Written name line) : passed line = line := by
  rw [passed, if_neg (h _), if_neg (h _), if_neg (h _)]

theorem passed_eq_rewritten_iff (hkeep : Named .keepAlive line → Written .keepAlive line) :
    passed line = rewritten line ↔
      (Named .connection line ∧ ¬ Written .connection line ∨
        Named .proxyConnection line ∧ ¬ Written .proxyConnection line → line = closed line) := by
  by_cases hwritten : ∃ name, Written name line
  · obtain ⟨name, h⟩ := hwritten
    refine iff_of_true (passed_eq_rewritten h) ?_
    rintro (⟨hnamed, hnot⟩ | ⟨hnamed, hnot⟩)
    · exact absurd (hnamed.unique h.named ▸ h) hnot
    · exact absurd (hnamed.unique h.named ▸ h) hnot
  · have hnone : ∀ name, ¬ Written name line := not_exists.mp hwritten
    have hkeep' : ¬ Named .keepAlive line := fun h => hnone _ (hkeep h)
    rw [passed_of_not_written hnone, rewritten, if_neg hkeep']
    by_cases hclose : Named .connection line ∨ Named .proxyConnection line
    · rw [if_pos hclose]
      refine ⟨fun heq _ => heq, fun heq => heq ?_⟩
      exact hclose.imp (fun h => ⟨h, hnone _⟩) fun h => ⟨h, hnone _⟩
    · rw [if_neg hclose]
      refine iff_of_true rfl ?_
      rintro (⟨h, -⟩ | ⟨h, -⟩)
      · exact absurd (.inl h) hclose
      · exact absurd (.inr h) hclose

def crlfsFrom (lastC : UInt8) : Bytes → Nat
  | [] => 0
  | c :: rest => (if lastC = 13 ∧ c = 10 then 1 else 0) + crlfsFrom c rest

def crlfs (bytes : Bytes) : Nat := crlfsFrom 0 bytes

theorem crlfsFrom_append : crlfsFrom lastC (xs ++ ys) =
    crlfsFrom lastC xs + crlfsFrom (xs.getLastD lastC) ys := by
  induction xs generalizing lastC with
  | nil => simp [crlfsFrom]
  | cons c xs ih =>
    rw [List.cons_append, crlfsFrom, crlfsFrom, ih, List.getLastD_cons, Nat.add_assoc]

theorem crlfsFrom_ten : crlfsFrom 10 ys = crlfs ys := by
  cases ys with
  | nil => rfl
  | cons c ys => simp [crlfs, crlfsFrom]

theorem crlfs_append (h : [13, 10] <:+ xs) : crlfs (xs ++ ys) = crlfs xs + crlfs ys := by
  obtain ⟨zs, rfl⟩ := h
  have hlast : (zs ++ [13, 10]).getLastD (0 : UInt8) = 10 := by
    rw [List.getLastD_eq_getLast?, List.getLast?_append]
    rfl
  rw [crlfs, crlfsFrom_append, hlast, crlfsFrom_ten]
  rfl

theorem crlfs_pos (h : [13, 10] <:+ xs) : 1 ≤ crlfs xs := by
  obtain ⟨zs, rfl⟩ := h
  rw [crlfs, crlfsFrom_append]
  simp [crlfsFrom]

theorem crlfsFrom_line (h : readFullLineFrom lastC input = some (line, rest)) :
    crlfsFrom lastC line = 1 := by
  induction input generalizing lastC line with
  | nil => cases h
  | cons c input ih =>
    rw [readFullLineFrom] at h
    split_ifs at h with hend
    · obtain ⟨rfl, rfl⟩ := Prod.mk.inj (Option.some.inj h)
      rw [crlfsFrom, if_pos hend]
      rfl
    · obtain ⟨⟨line', rest'⟩, hrest, heq⟩ := Option.map_eq_some_iff.mp h
      obtain ⟨rfl, rfl⟩ := Prod.mk.inj heq
      rw [crlfsFrom, if_neg hend, ih hrest]

theorem crlfs_line (h : FirstLine input line) : crlfs line = 1 := by
  obtain ⟨rest, hread⟩ := firstLine_iff.mp h
  exact crlfsFrom_line hread

theorem firstLine_of_not_mem (h : 13 ∉ xs) : FirstLine (xs ++ [13, 10]) (xs ++ [13, 10]) := by
  refine ⟨List.prefix_refl _, List.suffix_append _ _, fun l hl hends => ?_⟩
  by_contra hlt
  obtain ⟨zs, rfl⟩ := hends
  obtain ⟨after, hafter⟩ := hl
  have hlength := congrArg List.length hafter
  simp only [List.length_append] at hlength hlt
  have hbefore : zs.length < xs.length := by omega
  have hget : (zs ++ [13, 10] ++ after)[zs.length]? = (xs ++ [13, 10])[zs.length]? := by
    rw [hafter]
  rw [List.append_assoc, List.getElem?_append_right le_rfl, List.getElem?_append_left hbefore,
    Nat.sub_self] at hget
  exact h (List.mem_of_getElem? hget.symm)

variable {f g : Bytes → Bytes} {p q : Bytes → Bool}

theorem all_of_countP_eq (h : ∀ line ∈ lines, p line → q line)
    (heq : lines.countP p = lines.countP q) : ∀ line ∈ lines, q line → p line := by
  induction lines with
  | nil => simp
  | cons l lines ih =>
    obtain ⟨hl, hrest⟩ := List.forall_mem_cons.mp h
    have hle : lines.countP p ≤ lines.countP q := List.countP_mono_left hrest
    rw [List.countP_cons, List.countP_cons] at heq
    have hcases : (q l → p l) ∧ lines.countP p = lines.countP q := by
      by_cases hq : q l
      · rw [if_pos hq] at heq
        by_cases hp : p l
        · rw [if_pos hp] at heq
          exact ⟨fun _ => hp, by omega⟩
        · rw [if_neg hp] at heq
          omega
      · have hp : ¬ p l := fun hp => hq (hl hp)
        rw [if_neg hp, if_neg hq] at heq
        exact ⟨fun h => absurd h hq, heq⟩
    exact List.forall_mem_cons.mpr ⟨hcases.1, ih hrest hcases.2⟩

theorem crlfs_flatMap (h : ∀ line ∈ lines, f line = [] ∨ FirstLine (f line) (f line)) :
    crlfs (lines.flatMap f ++ ys) = lines.countP (fun line => f line ≠ []) + crlfs ys := by
  induction lines with
  | nil => simp
  | cons l lines ih =>
    obtain ⟨hl, hlines⟩ := List.forall_mem_cons.mp h
    have hrest := ih hlines
    rw [List.flatMap_cons, List.append_assoc, List.countP_cons]
    rcases hl with hnil | hline
    · rw [hnil, List.nil_append, hrest]
      simp
    · have hne := ne_nil_of_ends hline.ends
      rw [crlfs_append hline.ends, hrest, crlfs_line hline]
      simp [hne]
      omega

theorem eq_of_flatMap_eq (h : ∀ line ∈ lines, f line = [] ∧ g line = [] ∨
      FirstLine (f line) (f line) ∧ FirstLine (g line) (g line))
    (heq : lines.flatMap f = lines.flatMap g) : ∀ line ∈ lines, f line = g line := by
  induction lines with
  | nil => simp
  | cons l lines ih =>
    rw [List.flatMap_cons, List.flatMap_cons] at heq
    obtain ⟨hl, hlines⟩ := List.forall_mem_cons.mp h
    have hboth : f l = g l ∧ lines.flatMap f = lines.flatMap g := by
      rcases hl with ⟨hf, hg⟩ | ⟨hf, hg⟩
      · rw [hf, hg] at heq ⊢
        exact ⟨rfl, heq⟩
      · have hfirst := firstLine_append hf (lines.flatMap f)
        rw [heq] at hfirst
        have hfg := hfirst.unique (firstLine_append hg (lines.flatMap g))
        rw [hfg] at heq
        exact ⟨hfg, List.append_cancel_left heq⟩
    exact List.forall_mem_cons.mpr ⟨hboth.1, ih hlines hboth.2⟩

theorem passed_keepAlive (h : Written .keepAlive line) : passed line = [] := if_pos h

theorem rewritten_keepAlive (h : Named .keepAlive line) : rewritten line = [] := if_pos h

theorem passed_line (h : HeaderLine line) (hkeep : ¬ Written .keepAlive line) :
    FirstLine (passed line) (passed line) := by
  rw [passed, if_neg hkeep]
  split_ifs
  · exact firstLine_iff.mpr ⟨[], by decide⟩
  · exact firstLine_iff.mpr ⟨[], by decide⟩
  · exact h.whole

theorem rewritten_line (h : HeaderLine line) (hkeep : ¬ Named .keepAlive line) :
    FirstLine (rewritten line) (rewritten line) := by
  rw [rewritten, if_neg hkeep]
  split_ifs with hclose
  · have hname : 13 ∉ line.takeWhile (· ≠ 58) := by
      rcases hclose with hclose | hclose
      · exact not_mem_takeWhile hclose
      · exact not_mem_takeWhile hclose
    have hnot : 13 ∉ line.takeWhile (· ≠ 58) ++ ascii ": close" := by
      rw [List.mem_append]
      exact not_or.mpr ⟨hname, by decide⟩
    have hsplit : closed line = (line.takeWhile (· ≠ 58) ++ ascii ": close") ++ [13, 10] := by
      rw [closed, List.append_assoc]
      rfl
    rw [hsplit]
    exact firstLine_of_not_mem hnot
  · exact h.whole

theorem passed_ne_nil_iff (h : HeaderLine line) : passed line ≠ [] ↔ ¬ Written .keepAlive line := by
  refine ⟨fun hne hkeep => hne (passed_keepAlive hkeep), fun hkeep => ?_⟩
  exact ne_nil_of_ends (passed_line h hkeep).ends

theorem rewritten_ne_nil_iff (h : HeaderLine line) :
    rewritten line ≠ [] ↔ ¬ Named .keepAlive line := by
  refine ⟨fun hne hkeep => hne (rewritten_keepAlive hkeep), fun hkeep => ?_⟩
  exact ne_nil_of_ends (rewritten_line h hkeep).ends

/-- The `Host` line that is added -/
def hostLine (host : Bytes) : Bytes := ascii "Host: " ++ host ++ ascii "\r\n"

theorem hostLine_ends (host : Bytes) : [13, 10] <:+ hostLine host := List.suffix_append _ _

theorem crlfs_trailer : crlfs (trailer host sentHost sentConnection) =
    (if sentHost then 0 else crlfs (hostLine host)) + (if sentConnection then 0 else 1) + 1 := by
  have hhost : ∀ ys, crlfs (hostLine host ++ ys) = crlfs (hostLine host) + crlfs ys :=
    fun ys => crlfs_append (hostLine_ends host)
  have htail : crlfs (ascii "Connection: close\r\n" ++ ascii "\r\n") = 2 := by decide
  have hempty : crlfs (ascii "\r\n") = 1 := by decide
  cases sentHost <;> cases sentConnection
  · change crlfs (hostLine host ++ ascii "Connection: close\r\n" ++ ascii "\r\n") = _
    rw [List.append_assoc, hhost, htail]
    rfl
  · change crlfs (hostLine host ++ [] ++ ascii "\r\n") = _
    rw [List.append_nil, hhost, hempty]
    rfl
  · exact htail
  · exact hempty

theorem flag_le {P Q : Prop} [Decidable P] [Decidable Q] (h : P → Q) (n : Nat) :
    (if decide Q then 0 else n) ≤ if decide P then 0 else n := by
  by_cases hp : P
  · simp [hp, h hp]
  · rw [decide_eq_false hp, if_neg (show ¬ false = true by simp)]
    split_ifs
    · exact Nat.zero_le n
    · exact le_rfl

theorem of_flag_eq {P Q : Prop} [Decidable P] [Decidable Q] {n : Nat} (hn : 1 ≤ n)
    (heq : (if decide Q then 0 else n) = if decide P then 0 else n) (hq : Q) : P := by
  by_contra hp
  rw [decide_eq_true hq, decide_eq_false hp, if_pos rfl, if_neg (by simp)] at heq
  omega

theorem sent_eq_iff (h : ∀ line ∈ lines, HeaderLine line) :
    lines.flatMap passed ++ trailer host (decide (∃ line ∈ lines, Written .host line))
        (decide (∃ line ∈ lines, Written .connection line)) = nonPersistent host lines ↔
      Capitalised lines := by
  have hnamed : ∀ name, (∃ line ∈ lines, Written name line) → ∃ line ∈ lines, Named name line :=
    fun name ⟨line, hline, hwritten⟩ => ⟨line, hline, hwritten.named⟩
  constructor
  · intro heq
    have hpassed : ∀ line ∈ lines, passed line = [] ∨ FirstLine (passed line) (passed line) :=
      fun line hline => (em (Written .keepAlive line)).imp passed_keepAlive
        (passed_line (h line hline))
    have hrewritten : ∀ line ∈ lines,
        rewritten line = [] ∨ FirstLine (rewritten line) (rewritten line) :=
      fun line hline => (em (Named .keepAlive line)).imp rewritten_keepAlive
        (rewritten_line (h line hline))
    have hkept : ∀ line ∈ lines, decide (rewritten line ≠ []) → decide (passed line ≠ []) := by
      intro line hline hne
      rw [decide_eq_true_eq, rewritten_ne_nil_iff (h line hline)] at hne
      rw [decide_eq_true_eq, passed_ne_nil_iff (h line hline)]
      exact fun hwritten => hne hwritten.named
    have hcount := congrArg crlfs heq
    rw [nonPersistent, crlfs_flatMap hpassed, crlfs_flatMap hrewritten, crlfs_trailer,
      crlfs_trailer] at hcount
    -- nothing on the left is smaller than its part on the right, so all of them are equal
    have hle := List.countP_mono_left hkept
    have hhost := flag_le (hnamed .host) (crlfs (hostLine host))
    have hconnection := flag_le (hnamed .connection) 1
    have hkeep : ∀ line ∈ lines, Named .keepAlive line → Written .keepAlive line := by
      intro line hline hname
      by_contra hnot
      have hne := (passed_ne_nil_iff (h line hline)).mpr hnot
      have hall := all_of_countP_eq hkept (by omega) line hline (by simpa using hne)
      rw [decide_eq_true_eq, rewritten_ne_nil_iff (h line hline)] at hall
      exact hall hname
    have hhost' := of_flag_eq (P := ∃ line ∈ lines, Written .host line)
      (Q := ∃ line ∈ lines, Named .host line) (crlfs_pos (hostLine_ends host)) (by omega)
    have hconnection' := of_flag_eq (P := ∃ line ∈ lines, Written .connection line)
      (Q := ∃ line ∈ lines, Named .connection line) le_rfl (by omega)
    have hsame : lines.flatMap passed = lines.flatMap rewritten := by
      rw [nonPersistent, decide_eq_decide.mpr ⟨hnamed .host, hhost'⟩,
        decide_eq_decide.mpr ⟨hnamed .connection, hconnection'⟩] at heq
      exact List.append_cancel_right heq
    have hboth : ∀ line ∈ lines, passed line = [] ∧ rewritten line = [] ∨
        FirstLine (passed line) (passed line) ∧ FirstLine (rewritten line) (rewritten line) := by
      intro line hline
      by_cases hname : Named .keepAlive line
      · exact .inl ⟨passed_keepAlive (hkeep line hline hname), rewritten_keepAlive hname⟩
      · exact .inr ⟨passed_line (h line hline) fun hwritten => hname hwritten.named,
          rewritten_line (h line hline) hname⟩
    exact ⟨hkeep, hhost', hconnection', fun line hline =>
      (passed_eq_rewritten_iff (hkeep line hline)).mp (eq_of_flatMap_eq hboth hsame line hline)⟩
  · intro hc
    have hsame : lines.flatMap passed = lines.flatMap rewritten :=
      List.flatMap_congr fun line hline =>
        (passed_eq_rewritten_iff (hc.keepAlive line hline)).mpr (hc.close line hline)
    rw [nonPersistent, hsame, decide_eq_decide.mpr ⟨hnamed .host, hc.host⟩,
      decide_eq_decide.mpr ⟨hnamed .connection, hc.connection⟩]

/-- The program returns, and what it has sent is right exactly if no `Keep-Alive` line is in other
capitals than its own, and the lines in other capitals need no change and have no effect on the
lines that are added. -/
theorem filter_rest_headers_iff (h : ∀ line ∈ lines, HeaderLine line) (host rest : Bytes) :
    ∃ sent, (∀ fuel, lines.length < fuel →
      filterRestHeaders always fuel (lines.flatten ++ (ascii "\r\n" ++ rest)) host =
        some (true, sent)) ∧
      (sent = nonPersistent host lines ↔ Capitalised lines) := by
  refine ⟨_, fun fuel hfuel => ?_, sent_eq_iff h⟩
  rw [filterRestHeaders, filterFrom_lines h hfuel, List.nil_append, Bool.false_or, Bool.false_or]

def oneHeader (header : String) : List Bytes := [ascii (header ++ "\r\n")]

theorem oneHeader_headerLine {header : String}
    (hread : readFullLine (ascii (header ++ "\r\n")) = some (ascii (header ++ "\r\n"), []))
    (hnul : 0 ∉ ascii (header ++ "\r\n")) (hne : ascii (header ++ "\r\n") ≠ ascii "\r\n") :
    ∀ line ∈ oneHeader header, HeaderLine line := by
  intro line hline
  obtain rfl := List.mem_singleton.mp hline
  exact ⟨hnul, hne, firstLine_iff.mpr ⟨[], hread⟩⟩

theorem filter_rest_headers_keep_alive : ∃ sent,
    filterRestHeaders always 2 ((oneHeader "Keep-Alive: 5").flatten ++ (ascii "\r\n" ++ []))
      (ascii "h") = some (true, sent) ∧
    sent = nonPersistent (ascii "h") (oneHeader "Keep-Alive: 5") := by
  obtain ⟨sent, hrun, hiff⟩ := filter_rest_headers_iff
    (@oneHeader_headerLine "Keep-Alive: 5" (by decide) (by decide) (by decide))
    (ascii "h") []
  refine ⟨sent, hrun 2 (by decide), hiff.mpr ⟨?_, ?_, ?_, ?_⟩⟩
  · decide
  · decide
  · decide
  · decide

/-- A `Keep-Alive` line without capitals goes to the server. -/
theorem filter_rest_headers_lower_case :
    (∀ line ∈ oneHeader "keep-alive: 5", HeaderLine line) ∧ ∃ sent,
      filterRestHeaders always 2 ((oneHeader "keep-alive: 5").flatten ++ (ascii "\r\n" ++ []))
        (ascii "h") = some (true, sent) ∧
      sent ≠ nonPersistent (ascii "h") (oneHeader "keep-alive: 5") :=
  ⟨oneHeader_headerLine (by decide) (by decide) (by decide), _, rfl, by decide⟩

end CS24.Proxy.Headers
