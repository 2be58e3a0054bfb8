import Mathlib

/-!
# Requests and their cache keys

How `client_thread.c` takes the first line of a request apart, and the key that
`send_response` makes of the host and the path. By then `open_server_connection` has cut
the host string off at the colon, so the key does not have the port in it.
-/

namespace CS24.Proxy

abbrev Bytes := List UInt8

def ascii (s : String) : Bytes := s.toList.map fun c => UInt8.ofNat c.toNat

/-- `read_full_line`: a line up to its `\r\n`, and what is left to read. -/
def readFullLineFrom (lastC : UInt8) : Bytes → Option (Bytes × Bytes)
  | [] => none
  | c :: rest =>
    if lastC = 13 ∧ c = 10 then some ([c], rest)
    else (readFullLineFrom c rest).map fun (line, rest) => (c :: line, rest)

def readFullLine (input : Bytes) : Option (Bytes × Bytes) := readFullLineFrom 0 input

def cString (bytes : Bytes) : Bytes := bytes.takeWhile (· ≠ 0)

/-- `strtok_r(_, " ", _)`: the next token and what is left. -/
def strtok (s : Bytes) : Option (Bytes × Bytes) :=
  let s := s.dropWhile (· = 32)
  if s = [] then none else some (s.takeWhile (· ≠ 32), (s.dropWhile (· ≠ 32)).drop 1)

inductive Rejection where
  | malformed
  | notImplemented
  deriving DecidableEq

/-- The bytes before the first `c`, and those from it on if there is one. -/
def strchr (c : UInt8) (s : Bytes) : Bytes × Option Bytes :=
  (s.takeWhile (· ≠ c), match s.dropWhile (· ≠ c) with | [] => none | rest => some rest)

structure Header where
  fullHost : Bytes
  path : Bytes
  deriving DecidableEq

/-- What `make_get_header` makes of the tokens of the line. -/
def headerOfTokens (tokens : Option (Bytes × Bytes × Bytes)) : Except Rejection Header :=
  match tokens with
  | none => .error .malformed
  | some (getMethod, url, version) =>
    if getMethod ≠ ascii "GET" then .error .notImplemented
    else if ¬ ascii "HTTP/" <+: version then .error .malformed
    else if ¬ ascii "http://" <+: url then .error .malformed
    else
      let host := url.drop (ascii "http://").length
      .ok ⟨(strchr 47 host).1, (strchr 47 host).2.getD (ascii "/")⟩

def threeTokens (data : Bytes) : Option (Bytes × Bytes × Bytes) := do
  let (getMethod, rest) ← strtok data
  let (url, rest) ← strtok rest
  let (version, rest) ← strtok rest
  if (strtok rest).isSome then none else some (getMethod, url, version)

def makeGetHeader (input : Bytes) : Except Rejection Header :=
  match readFullLine input with
  | none => .error .malformed
  | some (line, _) => headerOfTokens (threeTokens (cString line))

def isSpace (c : UInt8) : Bool := c = 32 ∨ 9 ≤ c ∧ c ≤ 13

def isDigit (c : UInt8) : Bool := 48 ≤ c ∧ c ≤ 57

/-- `atoi`, which is `strtol` with its result cut to an `int`. -/
def atoi (s : Bytes) : Int :=
  let s := s.dropWhile isSpace
  let negative := s.head? = some 45
  let s := if s.head? = some 45 ∨ s.head? = some 43 then s.drop 1 else s
  let magnitude : Nat := (s.takeWhile isDigit).foldl (fun n c => 10 * n + (c.toNat - 48)) 0
  let long : Int := if negative then max (-magnitude) (-2 ^ 63) else min magnitude (2 ^ 63 - 1)
  long.bmod (2 ^ 32)

/-- The part of `open_server_connection` before it connects: the host string as it is left,
and the port. -/
def splitPort (fullHost : Bytes) : Option (Bytes × Int) :=
  match strchr 58 fullHost with
  | (_, none) => some (fullHost, 80)
  | (host, some rest) =>
    let port := atoi (rest.drop 1)
    if port ≤ 0 ∨ 65535 < port then none else some (host, port)

/-- The key of `send_response` -/
def makeKey (host path : Bytes) : Bytes := host ++ path

structure Target where
  hostName : Bytes
  port : Int
  path : Bytes
  deriving DecidableEq

/-- The target of a request that `make_get_header` accepts and whose port is valid. -/
def requestTarget (input : Bytes) : Option Target :=
  match makeGetHeader input with
  | .error _ => none
  | .ok header => (splitPort header.fullHost).map fun (host, port) => ⟨host, port, header.path⟩

/-- The key under which `handle_request` looks the response up and stores it. -/
def requestKey (input : Bytes) : Option Bytes :=
  match makeGetHeader input with
  | .error _ => none
  | .ok header => (splitPort header.fullHost).map fun (host, _) => makeKey host header.path

variable {input input' : Bytes} {t t' : Target} {header : Header}

theorem headerOfTokens_shape {tokens : Option (Bytes × Bytes × Bytes)}
    (h : headerOfTokens tokens = .ok header) :
    47 ∉ header.fullHost ∧ ∃ rest, header.path = 47 :: rest := by
  unfold headerOfTokens at h
  split at h
  · cases h
  · rename_i getMethod url version
    split_ifs at h
    obtain rfl := Except.ok.inj h
    refine ⟨fun hmem => ?_, ?_⟩
    · simpa using List.mem_takeWhile_imp hmem
    · cases hrest : (url.drop (ascii "http://").length).dropWhile (· ≠ 47) with
      | nil => exact ⟨[], by simp only [strchr, hrest]; rfl⟩
      | cons c rest =>
        have hne : (url.drop (ascii "http://").length).dropWhile (· ≠ 47) ≠ [] := by
          rw [hrest]
          simp
        have hhead := List.head_dropWhile_not _ hne
        simp only [hrest, List.head_cons] at hhead
        refine ⟨rest, ?_⟩
        simp only [strchr, hrest, Option.getD_some]
        simpa using hhead

theorem mem_splitPort {fullHost host : Bytes} {port : Int}
    (h : splitPort fullHost = some (host, port)) {c : UInt8} (hc : c ∈ host) : c ∈ fullHost := by
  unfold splitPort at h
  split at h
  · simp only [Option.some.injEq, Prod.mk.injEq] at h
    exact h.1 ▸ hc
  · rename_i before rest hsplit
    dsimp only at h
    split_ifs at h
    simp only [Option.some.injEq, Prod.mk.injEq] at h
    have hbefore : fullHost.takeWhile (· ≠ 58) = host := (congrArg Prod.fst hsplit).trans h.1
    exact (List.takeWhile_prefix _).subset (hbefore ▸ hc)

theorem requestKey_eq (h : requestTarget input = some t) :
    requestKey input = some (t.hostName ++ t.path) ∧ 47 ∉ t.hostName ∧
      ∃ rest, t.path = 47 :: rest := by
  unfold requestTarget at h
  unfold requestKey
  split at h
  · cases h
  · rename_i header hheader
    obtain ⟨⟨host, port⟩, hsplit, rfl⟩ := Option.map_eq_some_iff.mp h
    have hshape : 47 ∉ header.fullHost ∧ ∃ rest, header.path = 47 :: rest := by
      unfold makeGetHeader at hheader
      split at hheader
      · cases hheader
      · exact headerOfTokens_shape hheader
    exact ⟨by rw [hsplit]; rfl, fun hc => hshape.1 (mem_splitPort hsplit hc), hshape.2⟩

theorem append_slash_inj {xs ys xs' ys' : Bytes} (h : xs ++ 47 :: ys = xs' ++ 47 :: ys')
    (hxs : 47 ∉ xs) (hxs' : 47 ∉ xs') : xs = xs' ∧ ys = ys' := by
  induction xs generalizing xs' with
  | nil =>
    cases xs' with
    | nil => exact ⟨rfl, (List.cons.inj h).2⟩
    | cons c xs' => exact absurd (List.cons.inj h).1 fun hc => hxs' (by simp [← hc])
  | cons c xs ih =>
    cases xs' with
    | nil => exact absurd (List.cons.inj h).1 fun hc => hxs (by simp [hc])
    | cons c' xs' =>
      obtain ⟨rfl, hrest⟩ := List.cons.inj h
      simp only [List.mem_cons, not_or] at hxs hxs'
      obtain ⟨rfl, rfl⟩ := ih hrest hxs.2 hxs'.2
      exact ⟨rfl, rfl⟩

/-- Requests for different targets have different keys if and only if the host names or the
paths differ: a difference in the port alone is lost. -/
theorem requestKey_ne_iff (h : requestTarget input = some t)
    (h' : requestTarget input' = some t') :
    ∃ key key', requestKey input = some key ∧ requestKey input' = some key' ∧
      (t ≠ t' → (key ≠ key' ↔ t.hostName ≠ t'.hostName ∨ t.path ≠ t'.path)) := by
  obtain ⟨hkey, hhost, rest, hpath⟩ := requestKey_eq h
  obtain ⟨hkey', hhost', rest', hpath'⟩ := requestKey_eq h'
  refine ⟨_, _, hkey, hkey', fun _ => ?_⟩
  rw [ne_eq, ← not_and_or, not_iff_not]
  constructor
  · intro heq
    rw [hpath, hpath'] at heq ⊢
    obtain ⟨hhosts, rfl⟩ := append_slash_inj heq hhost hhost'
    exact ⟨hhosts, rfl⟩
  · rintro ⟨hhosts, hpaths⟩
    rw [hhosts, hpaths]

def requestLine (url : String) : Bytes := ascii ("GET " ++ url ++ " HTTP/1.0\r\n")

theorem requestKey_ne_iff_paths : ∃ key key', requestKey (requestLine "http://h/a") = some key ∧
    requestKey (requestLine "http://h/b") = some key' ∧ key ≠ key' := by
  obtain ⟨key, key', hkey, hkey', hiff⟩ := requestKey_ne_iff
    (show requestTarget (requestLine "http://h/a") = some ⟨ascii "h", 80, ascii "/a"⟩ by decide)
    (show requestTarget (requestLine "http://h/b") = some ⟨ascii "h", 80, ascii "/b"⟩ by decide)
  exact ⟨key, key', hkey, hkey', (hiff (by decide)).mpr (.inr (by decide))⟩

/-- Two ports of one host share their key. -/
theorem ports_share_key :
    requestTarget (requestLine "http://h:80/") = some ⟨ascii "h", 80, ascii "/"⟩ ∧
      requestTarget (requestLine "http://h:81/") = some ⟨ascii "h", 81, ascii "/"⟩ ∧
      requestKey (requestLine "http://h:80/") = requestKey (requestLine "http://h:81/") := by
  decide

end CS24.Proxy
