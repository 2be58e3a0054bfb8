import CS24.Proxy.Request

/-!
# What `make_get_header` returns and sends

The call with its two output parameters and the responses that it sends, against a
description of the requests it is to accept: the first line of the input, its tokens, and
the two parts of the URL.
-/

namespace CS24.Proxy.RequestLine

variable {input line rest s t l url version : Bytes} {lastC : UInt8}

/-- `*full_host` and `*path`, and what was written to the client. -/
structure ClientSide where
  fullHost : Option Bytes
  path : Option Bytes
  sent : List Bytes

variable {client : ClientSide}

/-- The response of `send_status_code` -/
def response (status msg : Bytes) : Bytes :=
  ascii "HTTP/1.0 " ++ status ++
    ascii "\r\nContent-Type: text/html\r\nConnection: close\r\n\r\n<html><head><title>" ++
    status ++ ascii "</title></head><body>" ++ msg ++ ascii "</body></html>"

def sendStatusCode (status msg : Bytes) (client : ClientSide) : ClientSide :=
  { client with sent := client.sent ++ [response status msg] }

/-- The label `MALFORMED_ERROR` -/
def malformedError (client : ClientSide) : Bool × ClientSide :=
  (false, sendStatusCode (ascii "400 Bad Request") (ascii "Invalid request sent to proxy.") client)

/-- The label `NOT_IMPLEMENTED_ERROR` -/
def notImplementedError (client : ClientSide) : Bool × ClientSide :=
  (false, sendStatusCode (ascii "501 Not Implemented") (ascii "Invalid request sent to proxy.")
    client)

def makeGetHeader (input : Bytes) (client : ClientSide) : Bool × ClientSide :=
  let client := { client with fullHost := none, path := none }
  match readFullLine input with
  | none => malformedError client
  | some (buf, _) =>
    match threeTokens (cString buf) with
    | none => malformedError client
    | some (getMethod, url, version) =>
      if getMethod ≠ ascii "GET" then notImplementedError client
      else if ¬ ascii "HTTP/" <+: version then malformedError client
      else if ¬ ascii "http://" <+: url then malformedError client
      else
        let (host, pathStart) := strchr 47 (url.drop (ascii "http://").length)
        let client := { client with path := some (pathStart.getD (ascii "/")) }
        (true, { client with fullHost := some host })

theorem makeGetHeader_eq : makeGetHeader input client =
    match Proxy.makeGetHeader input with
    | .ok header => (true, ⟨some header.fullHost, some header.path, client.sent⟩)
    | .error .malformed => malformedError ⟨none, none, client.sent⟩
    | .error .notImplemented => notImplementedError ⟨none, none, client.sent⟩ := by
  unfold makeGetHeader Proxy.makeGetHeader
  cases readFullLine input with
  | none => rfl
  | some p =>
    dsimp only
    cases threeTokens (cString p.1) with
    | none => rfl
    | some tokens =>
      obtain ⟨getMethod, url, version⟩ := tokens
      simp only [headerOfTokens]
      split_ifs <;> rfl

/-- The bytes up to and including the first CRLF. -/
structure FirstLine (input line : Bytes) : Prop where
  start : line <+: input
  ends : [13, 10] <:+ line
  shortest : ∀ l, l <+: input → [13, 10] <:+ l → line.length ≤ l.length

theorem FirstLine.unique (h : FirstLine input line) (h' : FirstLine input l) : line = l := by
  have hlength : line.length = l.length :=
    le_antisymm (h.shortest l h'.start h'.ends) (h'.shortest line h.start h.ends)
  exact (List.prefix_of_prefix_length_le h.start h'.start hlength.le).eq_of_length hlength

theorem suffix_cons_cons {c : UInt8} (h : [13, 10] <:+ lastC :: c :: l) :
    lastC = 13 ∧ c = 10 ∧ l = [] ∨ l ≠ [] ∧ [13, 10] <:+ c :: l := by
  rcases List.suffix_cons_iff.mp h with heq | hsuffix
  · simp only [List.cons.injEq] at heq
    exact .inl ⟨heq.1.symm, heq.2.1.symm, heq.2.2.symm⟩
  · refine .inr ⟨?_, hsuffix⟩
    rintro rfl
    have hle := hsuffix.length_le
    simp at hle

theorem readFullLineFrom_some (h : readFullLineFrom lastC input = some (line, rest)) :
    line ++ rest = input ∧ line ≠ [] ∧ [13, 10] <:+ lastC :: line ∧
      ∀ l, l ≠ [] → l <+: input → [13, 10] <:+ lastC :: l → line.length ≤ l.length := by
  induction input generalizing lastC line with
  | nil => cases h
  | cons c input ih =>
    rw [readFullLineFrom] at h
    split_ifs at h with hend
    · obtain ⟨rfl, rfl⟩ := Prod.mk.inj (Option.some.inj h)
      obtain ⟨rfl, rfl⟩ := hend
      exact ⟨rfl, by simp, List.suffix_refl _, fun l hl _ _ => List.length_pos_iff.mpr hl⟩
    · obtain ⟨⟨line', rest'⟩, hrest, heq⟩ := Option.map_eq_some_iff.mp h
      obtain ⟨rfl, rfl⟩ := Prod.mk.inj heq
      obtain ⟨happend, -, hsuffix, hshortest⟩ := ih hrest
      refine ⟨by rw [List.cons_append, happend], by simp, hsuffix.trans (List.suffix_cons _ _),
        fun l hl hstart hends => ?_⟩
      cases l with
      | nil => exact absurd rfl hl
      | cons d l =>
        obtain ⟨rfl, hstart'⟩ := List.cons_prefix_cons.mp hstart
        rcases suffix_cons_cons hends with ⟨h13, h10, -⟩ | ⟨hne, hends⟩
        · exact absurd ⟨h13, h10⟩ hend
        · exact Nat.succ_le_succ (hshortest l hne hstart' hends)

theorem readFullLineFrom_none (h : readFullLineFrom lastC input = none) (hl : l ≠ [])
    (hstart : l <+: input) : ¬ [13, 10] <:+ lastC :: l := by
  induction input generalizing lastC l with
  | nil => exact absurd (List.prefix_nil.mp hstart) hl
  | cons c input ih =>
    intro hends
    rw [readFullLineFrom] at h
    split_ifs at h with hend
    have hrest := Option.map_eq_none_iff.mp h
    cases l with
    | nil => exact absurd rfl hl
    | cons d l =>
      obtain ⟨rfl, hstart'⟩ := List.cons_prefix_cons.mp hstart
      rcases suffix_cons_cons hends with ⟨h13, h10, -⟩ | ⟨hne, hends⟩
      · exact hend ⟨h13, h10⟩
      · exact ih hrest hne hstart' hends

theorem suffix_zero_cons : [13, 10] <:+ (0 : UInt8) :: l ↔ [13, 10] <:+ l := by
  rw [List.suffix_cons_iff]
  simp

theorem ne_nil_of_ends (h : [13, 10] <:+ l) : l ≠ [] := by
  rintro rfl
  simp at h

theorem firstLine_iff : FirstLine input line ↔ ∃ rest, readFullLine input = some (line, rest) := by
  have hsome : ∀ {line rest}, readFullLine input = some (line, rest) → FirstLine input line := by
    intro line rest h
    obtain ⟨happend, -, hends, hshortest⟩ := readFullLineFrom_some h
    exact ⟨⟨rest, happend⟩, suffix_zero_cons.mp hends, fun l hstart hl =>
      hshortest l (ne_nil_of_ends hl) hstart (suffix_zero_cons.mpr hl)⟩
  constructor
  · intro h
    cases hread : readFullLine input with
    | none =>
      exact absurd (suffix_zero_cons.mpr h.ends)
        (readFullLineFrom_none hread (ne_nil_of_ends h.ends) h.start)
    | some p =>
      obtain ⟨line', rest⟩ := p
      exact ⟨rest, by rw [h.unique (hsome hread)]⟩
  · rintro ⟨rest, h⟩
    exact hsome h

/-- The parts between runs of spaces. -/
def tokens (line : Bytes) : List Bytes := (line.splitOn 32).filter (· ≠ [])

theorem head_of_dropWhile {c d : UInt8} (h : s.dropWhile (· ≠ c) = d :: rest) : d = c := by
  have hne : s.dropWhile (· ≠ c) ≠ [] := by
    rw [h]
    simp
  have hhead := List.head_dropWhile_not _ hne
  simp only [h, List.head_cons] at hhead
  simpa using hhead

theorem dropWhile_of_mem {c : UInt8} (h : c ∈ s) : ∃ rest, s.dropWhile (· ≠ c) = c :: rest := by
  cases hdrop : s.dropWhile (· ≠ c) with
  | nil =>
    have hall := List.dropWhile_eq_nil_iff.mp hdrop c h
    simp at hall
  | cons d rest => exact ⟨rest, by rw [head_of_dropWhile hdrop]⟩

theorem tokens_dropWhile (s : Bytes) : tokens (s.dropWhile (· = 32)) = tokens s := by
  induction s with
  | nil => rfl
  | cons c s ih =>
    by_cases hc : c = 32
    · rw [List.dropWhile_cons_of_pos (by simpa using hc), ih, tokens, tokens,
        List.splitOn_cons_eq_if_modifyHead, if_pos (by simpa using hc)]
      rfl
    · rw [List.dropWhile_cons_of_neg (by simpa using hc)]

theorem tokens_token (hs : s ≠ []) (hspace : s.head hs ≠ 32) :
    tokens s = s.takeWhile (· ≠ 32) :: tokens ((s.dropWhile (· ≠ 32)).drop 1) := by
  have htake : ∀ c ∈ s.takeWhile (· ≠ 32), (c == 32) = false := fun c hc => by
    simpa using List.mem_takeWhile_imp hc
  have hne : s.takeWhile (· ≠ 32) ≠ [] := by
    cases s with
    | nil => exact absurd rfl hs
    | cons c s =>
      rw [List.takeWhile_cons_of_pos (by simpa using hspace)]
      simp
  have hsplit : s.splitOn 32 =
      (s.takeWhile (· ≠ 32) ++ s.dropWhile (· ≠ 32)).splitOn 32 := by
    rw [List.takeWhile_append_dropWhile]
  rw [tokens, hsplit, List.splitOn_eq_splitOnP]
  cases hdrop : s.dropWhile (· ≠ 32) with
  | nil =>
    rw [List.append_nil, List.splitOnP_eq_singleton htake,
      List.filter_cons_of_pos (by simpa using hne)]
    rfl
  | cons c l =>
    have hc : c = 32 := head_of_dropWhile hdrop
    rw [List.splitOnP_append_cons_of_forall_mem htake c (by simpa using hc),
      List.filter_cons_of_pos (by simpa using hne)]
    rfl

theorem tokens_of_strtok : tokens s =
    match strtok s with
    | none => []
    | some (token, rest) => token :: tokens rest := by
  rw [← tokens_dropWhile, strtok]
  by_cases hs : s.dropWhile (· = 32) = []
  · rw [if_pos hs, hs]
    rfl
  · rw [if_neg hs]
    refine tokens_token hs ?_
    have hhead := List.head_dropWhile_not (· = (32 : UInt8)) hs
    simpa using hhead

theorem threeTokens_iff {t₁ t₂ t₃ : Bytes} :
    threeTokens s = some (t₁, t₂, t₃) ↔ tokens s = [t₁, t₂, t₃] := by
  rw [threeTokens, tokens_of_strtok]
  cases strtok s with
  | none => simp
  | some p₁ =>
    dsimp only
    rw [tokens_of_strtok]
    cases hp₂ : strtok p₁.2 with
    | none => simp [hp₂]
    | some p₂ =>
      dsimp only
      rw [tokens_of_strtok]
      cases hp₃ : strtok p₂.2 with
      | none => simp [hp₂, hp₃]
      | some p₃ =>
        dsimp only
        rw [tokens_of_strtok]
        cases hp₄ : strtok p₃.2 with
        | none => simp [hp₂, hp₃, hp₄]
        | some p₄ => simp [hp₂, hp₃, hp₄]

/-- Three tokens: `GET`, a URL with `http://` and a version with `HTTP/` in front. -/
def Accepted (input url version : Bytes) : Prop :=
  ∃ line, FirstLine input line ∧ tokens line = [ascii "GET", url, version] ∧
    ascii "http://" <+: url ∧ ascii "HTTP/" <+: version

/-- Three tokens, the first of them another method. -/
def OtherMethod (input : Bytes) : Prop :=
  ∃ line getMethod url version, FirstLine input line ∧ tokens line = [getMethod, url, version] ∧
    getMethod ≠ ascii "GET"

/-- The URL after `http://`, up to the first slash -/
def hostOf (url : Bytes) : Bytes := (url.drop 7).takeWhile (· ≠ 47)

/-- The rest of the URL, or a slash -/
def pathOf (url : Bytes) : Bytes :=
  if 47 ∈ url.drop 7 then (url.drop 7).dropWhile (· ≠ 47) else [47]

theorem cString_of_not_mem (h : 0 ∉ s) : cString s = s :=
  List.takeWhile_eq_self_iff.mpr fun c hc => by
    have hne : c ≠ 0 := fun h0 => h (h0 ▸ hc)
    simpa using hne

theorem dropWhile_eq_nil (h : 47 ∉ s) : s.dropWhile (· ≠ 47) = [] :=
  List.dropWhile_eq_nil_iff.mpr fun c hc => by
    have hne : c ≠ 47 := fun h47 => h (h47 ▸ hc)
    simpa using hne

theorem strchr_getD (s : Bytes) : (strchr 47 s).2.getD (ascii "/") =
    if 47 ∈ s then s.dropWhile (· ≠ 47) else [47] := by
  rw [strchr]
  by_cases hs : 47 ∈ s
  · obtain ⟨rest, hrest⟩ := dropWhile_of_mem hs
    rw [if_pos hs, hrest]
    rfl
  · rw [if_neg hs, dropWhile_eq_nil hs]
    rfl

theorem url_parts (h : ascii "http://" <+: url) :
    47 ∉ hostOf url ∧ (∃ rest, pathOf url = 47 :: rest) ∧
      ascii "http://" ++ hostOf url ++ pathOf url =
        if 47 ∈ url.drop 7 then url else url ++ [47] := by
  obtain ⟨rest, rfl⟩ := h
  have hdrop : (ascii "http://" ++ rest).drop 7 = rest := rfl
  rw [hostOf, pathOf, hdrop, List.append_assoc]
  refine ⟨fun hmem => by simpa using List.mem_takeWhile_imp hmem, ?_, ?_⟩
  · split_ifs with hslash
    · exact dropWhile_of_mem hslash
    · exact ⟨[], rfl⟩
  · split_ifs with hslash
    · rw [List.takeWhile_append_dropWhile]
    · have hhost : rest.takeWhile (· ≠ 47) = rest := by
        have happend := List.takeWhile_append_dropWhile (p := fun c : UInt8 => decide (c ≠ 47))
          (l := rest)
        rwa [dropWhile_eq_nil hslash, List.append_nil] at happend
      rw [hhost, List.append_assoc]

theorem makeGetHeader_of_line (hline : FirstLine input line) (hnul : 0 ∉ line) :
    makeGetHeader input client =
      match threeTokens line with
      | none => malformedError ⟨none, none, client.sent⟩
      | some (getMethod, url, version) =>
        if getMethod ≠ ascii "GET" then notImplementedError ⟨none, none, client.sent⟩
        else if ¬ ascii "HTTP/" <+: version then malformedError ⟨none, none, client.sent⟩
        else if ¬ ascii "http://" <+: url then malformedError ⟨none, none, client.sent⟩
        else (true, ⟨some (hostOf url), some (pathOf url), client.sent⟩) := by
  obtain ⟨rest, hread⟩ := firstLine_iff.mp hline
  rw [makeGetHeader, hread]
  dsimp only
  rw [cString_of_not_mem hnul]
  cases threeTokens line with
  | none => rfl
  | some p =>
    obtain ⟨getMethod, url, version⟩ := p
    dsimp only
    rw [strchr_getD]
    rfl

theorem call_of_accepted (hnul : ∀ line, FirstLine input line → 0 ∉ line)
    (h : Accepted input url version) : makeGetHeader input client =
      (true, ⟨some (hostOf url), some (pathOf url), client.sent⟩) := by
  obtain ⟨line, hline, htokens, hurl, hversion⟩ := h
  rw [makeGetHeader_of_line hline (hnul line hline), threeTokens_iff.mpr htokens]
  dsimp only
  rw [if_neg (not_not.mpr rfl), if_neg (not_not.mpr hversion), if_neg (not_not.mpr hurl)]

theorem call_of_otherMethod (hnul : ∀ line, FirstLine input line → 0 ∉ line)
    (h : OtherMethod input) : makeGetHeader input client =
      notImplementedError ⟨none, none, client.sent⟩ := by
  obtain ⟨line, getMethod, url, version, hline, htokens, hget⟩ := h
  rw [makeGetHeader_of_line hline (hnul line hline), threeTokens_iff.mpr htokens]
  dsimp only
  rw [if_pos hget]

theorem call_of_neither (hnul : ∀ line, FirstLine input line → 0 ∉ line)
    (h : ¬ ∃ url version, Accepted input url version) (h' : ¬ OtherMethod input) :
    makeGetHeader input client = malformedError ⟨none, none, client.sent⟩ := by
  cases hread : readFullLine input with
  | none =>
    rw [makeGetHeader, hread]
  | some p =>
    have hline : FirstLine input p.1 := firstLine_iff.mpr ⟨p.2, hread⟩
    rw [makeGetHeader_of_line hline (hnul p.1 hline)]
    cases htokens : threeTokens p.1 with
    | none => rfl
    | some q =>
      obtain ⟨getMethod, url, version⟩ := q
      have htokens' := threeTokens_iff.mp htokens
      have hget : getMethod = ascii "GET" := by
        by_contra hne
        exact h' ⟨p.1, getMethod, url, version, hline, htokens', hne⟩
      subst hget
      dsimp only
      rw [if_neg (not_not.mpr rfl)]
      split_ifs with hversion hurl
      · exact absurd ⟨url, version, p.1, hline, htokens', hurl, hversion⟩ h
      · rfl
      · rfl

/-- The call succeeds for the accepted requests only, with the two parts of the URL; for any other
one both pointers are null and one response is sent. -/
theorem make_get_header_spec (hnul : ∀ line, FirstLine input line → 0 ∉ line) :
    ((makeGetHeader input client).1 = true ↔ ∃ url version, Accepted input url version) ∧
    (∀ url version, Accepted input url version →
      (makeGetHeader input client).2 = ⟨some (hostOf url), some (pathOf url), client.sent⟩ ∧
      47 ∉ hostOf url ∧ (∃ rest, pathOf url = 47 :: rest) ∧
      ascii "http://" ++ hostOf url ++ pathOf url =
        if 47 ∈ url.drop 7 then url else url ++ [47]) ∧
    (OtherMethod input → (makeGetHeader input client).2 = ⟨none, none, client.sent ++
      [response (ascii "501 Not Implemented") (ascii "Invalid request sent to proxy.")]⟩) ∧
    ((¬ ∃ url version, Accepted input url version) → ¬ OtherMethod input →
      (makeGetHeader input client).2 = ⟨none, none, client.sent ++
        [response (ascii "400 Bad Request") (ascii "Invalid request sent to proxy.")]⟩) := by
  refine ⟨⟨fun htrue => ?_, ?_⟩, fun url version h => ?_, fun h => ?_, fun h h' => ?_⟩
  · by_contra h
    by_cases h' : OtherMethod input
    · rw [call_of_otherMethod hnul h'] at htrue
      cases htrue
    · rw [call_of_neither hnul h h'] at htrue
      cases htrue
  · rintro ⟨url, version, h⟩
    rw [call_of_accepted hnul h]
  · refine ⟨by rw [call_of_accepted hnul h], ?_⟩
    obtain ⟨-, -, -, hurl, -⟩ := h
    exact url_parts hurl
  · rw [call_of_otherMethod hnul h]
    rfl
  · rw [call_of_neither hnul h h']
    rfl

theorem make_get_header_spec_slash :
    (makeGetHeader (requestLine "http://h/a") ⟨none, none, []⟩).1 = true := by
  have hzero : (0 : UInt8) ∉ requestLine "http://h/a" := by decide
  have hnul : ∀ line, FirstLine (requestLine "http://h/a") line → 0 ∉ line :=
    fun line h hmem => hzero (h.start.subset hmem)
  have hline : FirstLine (requestLine "http://h/a") (requestLine "http://h/a") :=
    firstLine_iff.mpr ⟨[], by decide⟩
  refine (make_get_header_spec hnul).1.mpr ⟨ascii "http://h/a", ascii "HTTP/1.0\r\n", _, hline,
    ?_, ⟨ascii "h/a", by decide⟩, ⟨ascii "1.0\r\n", by decide⟩⟩
  exact threeTokens_iff.mp (by decide)

end CS24.Proxy.RequestLine
