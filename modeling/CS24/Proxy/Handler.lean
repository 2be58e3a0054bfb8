import CS24.Machine.Resources
import CS24.Proxy.Headers
import CS24.Proxy.Response

/-!
# A request from its first byte to the last

`handle_request`, which a thread of its own runs for each connection, with the calls it makes.
The environment decides what the client sends, which calls of the operating system succeed, how
much `write` takes, and what the server answers. Every request has a cache of its own.
-/

namespace CS24.Proxy.Handler
open Machine

/-- The result of `getaddrinfo` -/
inductive Lookup where
  | found
  | eaiFail
  | eaiNoname
  | eaiAgain
  | eaiNodata
  | other
  deriving DecidableEq

structure Environment where
  /-- What the client sends, up to the end or an error. -/
  input : Bytes
  socket : Bool
  getaddrinfo : Bytes → Int → Lookup
  connect : Bytes → Int → Bool
  /-- How much of a status response is taken. -/
  takes : Bytes → Nat
  /-- Whether the server, which has received the first string, takes the second one. -/
  accepts : Bytes → Bytes → Bool
  strings : Nat → Bytes
  buffers : Nat → Buffer
  key : Nat
  buffer : Nat
  events : List Event
  shutdown : Bool

/-- What the thread has to give back. -/
inductive Resource where
  | cfd
  | client
  | server
  | address
  | path
  | host
  | cache
  | key
  deriving DecidableEq

structure Thread where
  usages : List (Usage Resource)
  lookups : List (Bytes × Int)
  toServer : Bytes
  toClient : List Bytes

abbrev HM := StateT Thread (Except Stop)

def touch (usage : Usage Resource) : HM Unit :=
  modify fun t => { t with usages := t.usages ++ [usage] }

variable (e : Environment)

def sendStatusCode (status msg : Bytes) : HM Unit := do
  touch (.use .client)
  modify fun t => { t with
    toClient := t.toClient ++
      [(RequestLine.response status msg).take (e.takes (RequestLine.response status msg))] }

inductive Opened where
  | failed
  | noAddress (err : Lookup)
  | connected
  deriving DecidableEq

def openClientFd (hostname : Bytes) (port : Int) : HM Opened := do
  if ¬ e.socket then pure .failed
  else
    touch (.acquire .server)
    modify fun t => { t with lookups := t.lookups ++ [(hostname, port)] }
    if e.getaddrinfo hostname port ≠ .found then pure (.noAddress (e.getaddrinfo hostname port))
    else
      touch (.acquire .address)
      touch (.use .server)
      touch (.release .address)
      pure (if e.connect hostname port then .connected else .failed)

/-- The message of `open_server_connection` for an error of `getaddrinfo` -/
def lookupMessage : Lookup → Option Bytes
  | .eaiFail => some (ascii "DNS could not resolve address.")
  | .eaiNoname => some (ascii "DNS could not resolve address.")
  | .eaiAgain => some (ascii "DNS temporarily could not resolve address.")
  | .eaiNodata => some (ascii "DNS could has no network addresses for host.")
  | .found => none
  | .other => none

/-- `open_server_connection`: the host string as it is left, if there is a connection -/
def openServerConnection (fullHost : Bytes) : HM (Option Bytes) :=
  match splitPort fullHost with
  | none => pure none
  | some (host, port) => do
    match ← openClientFd e host port with
    | .failed => pure none
    | .connected => pure (some host)
    | .noAddress err =>
      (match lookupMessage err with
      | some msg => sendStatusCode e (ascii "502 Bad Gateway") msg
      | none => pure ())
      pure none

/-- `make_get_header` -/
def getHeader : HM (Option Header) := do
  touch (.use .client)
  match makeGetHeader e.input with
  | .ok header =>
    touch (.acquire .path)
    touch (.acquire .host)
    pure (some header)
  | .error .malformed =>
    sendStatusCode e (ascii "400 Bad Request") (ascii "Invalid request sent to proxy.")
    pure none
  | .error .notImplemented =>
    sendStatusCode e (ascii "501 Not Implemented") (ascii "Invalid request sent to proxy.")
    pure none

/-- Calls of `write_string` to the server, where `send` gives what it has received after them. -/
def writeToServer (send : Bytes → Option (Bool × Bytes)) : HM Bool := do
  touch (.use .server)
  match send (← reads Thread.toServer) with
  | none => throw .outOfFuel
  | some (success, received) =>
    modify fun t => { t with toServer := received }
    pure success

def sendGetHeader (path : Bytes) : HM Bool :=
  writeToServer fun out =>
    some (Headers.writeAll e.accepts out [ascii "GET ", path, ascii " HTTP/1.0\r\n"])

def afterFirstLine (input : Bytes) : Bytes := ((readFullLine input).map Prod.snd).getD []

/-- `filter_rest_headers`, which reads no more lines than there are bytes -/
def filterRestHeaders (host : Bytes) : HM Bool := do
  touch (.use .client)
  writeToServer (Headers.filterFrom e.accepts host ((afterFirstLine e.input).length + 1) false false
    (afterFirstLine e.input))

/-- `send_response`; `n` is the number of nodes that a walk in the cache may visit -/
def respond (n : Nat) (host path : Bytes) : HM Bool := do
  touch (.acquire .key)
  touch (.use .server)
  touch (.use .client)
  match sendResponse n host path e.key e.buffer e.events (initCache e.strings e.buffers) with
  | .error stop => throw stop
  | .ok ((success, sent), _) =>
    modify fun t => { t with toClient := t.toClient ++ [sent] }
    pure success

/-- `free(host)` and `free(path)`, of null pointers if there is no header -/
def freeStrings : Option Header → HM Unit
  | none => pure ()
  | some _ => do
    touch (.release .host)
    touch (.release .path)

/-- The label `CLIENT_ERROR`, and the end of the function -/
def clientError (header : Option Header) : HM Unit := do
  touch (.release .client)
  freeStrings header

/-- The label `SERVER_ERROR` -/
def serverError (header : Option Header) : HM Unit := do
  touch (.release .server)
  clientError header

/-- The end of `handle_request` after the response; whether the last `read` fails only decides
on a message in the log. -/
def finish (header : Option Header) : HM Unit := do
  touch (.release .server)
  touch (.use .client)
  if ¬ e.shutdown then clientError header
  else
    touch (.use .client)
    clientError header

/-- The part of `handle_request` after `make_get_header` -/
def serve (n : Nat) (header : Header) : HM Unit := do
  match ← openServerConnection e header.fullHost with
  | none => clientError (some header)
  | some host =>
    if ¬ (← sendGetHeader e header.path) then serverError (some header)
    else if ¬ (← filterRestHeaders e host) then serverError (some header)
    else
      let _ ← respond e n host header.path
      finish e (some header)

def handleRequest (n : Nat) : HM Unit := do
  touch (.acquire .cache)
  touch (.release .cfd)
  match ← getHeader e with
  | none => clientError none
  | some header => serve e n header

/-- `accept` has given the thread its connection. -/
def start : Thread := ⟨[], [], [], []⟩

/-- What the thread holds at the start -/
def given : Finset Resource := {.cfd, .client}

abbrev Permitted (held : Finset Resource) (usage : Usage Resource) : Prop :=
  usage.Legal held ∧ ∀ r ∈ given, usage ≠ .acquire r

structure At (t : Thread) (held : Finset Resource) (lookups : List (Bytes × Int))
    (toServer : Bytes) (toClient : List Bytes) : Prop where
  disciplined : Disciplined given t.usages
  once : ∀ r ∈ given, .acquire r ∉ t.usages
  held : heldAfter given t.usages = held
  lookups : t.lookups = lookups
  toServer : t.toServer = toServer
  toClient : t.toClient = toClient

variable {e} {t : Thread} {held : Finset Resource} {lookups : List (Bytes × Int)}
  {server host path : Bytes} {client : List Bytes} {port : Int} {n : Nat} {E : Stop → Prop}
  {header : Option Header}

theorem at_start : At start given [] [] [] := ⟨trivial, by simp [start], rfl, rfl, rfl, rfl⟩

theorem At.touch (h : At t held lookups server client) (usage : Usage Resource)
    (hpermitted : Permitted held usage) :
    wp (touch usage) E (fun _ t' => At t' (usage.next held) lookups server client) t := by
  refine ⟨disciplined_append.mpr ⟨h.disciplined, ?_, trivial⟩, fun r hr => ?_, ?_, h.lookups,
    h.toServer, h.toClient⟩
  · rw [h.held]
    exact hpermitted.1
  · rw [List.mem_append, List.mem_singleton]
    exact not_or.mpr ⟨h.once r hr, Ne.symm (hpermitted.2 r hr)⟩
  · rw [heldAfter_append, h.held]
    rfl

/-- As much of a status response as is taken -/
def status (e : Environment) (code msg : String) : Bytes :=
  (RequestLine.response (ascii code) (ascii msg)).take
    (e.takes (RequestLine.response (ascii code) (ascii msg)))

theorem At.sendStatusCode (h : At t held lookups server client) (hheld : .client ∈ held)
    (code msg : Bytes) : wp (sendStatusCode e code msg) E (fun _ t' =>
      At t' held lookups server (client ++ [(RequestLine.response code msg).take
        (e.takes (RequestLine.response code msg))])) t := by
  refine (h.touch (.use .client) ⟨hheld, by simp⟩).bind fun _ t' ht => ?_
  exact ⟨ht.disciplined, ht.once, ht.held, ht.lookups, ht.toServer, by rw [← ht.toClient]⟩

/-- What becomes of the attempt to connect. -/
def opened (e : Environment) (hostname : Bytes) (port : Int) : Opened :=
  if ¬ e.socket then .failed
  else if e.getaddrinfo hostname port ≠ .found then .noAddress (e.getaddrinfo hostname port)
  else if e.connect hostname port then .connected else .failed

def serving : Finset Resource := {.client, .cache, .path, .host}

theorem At.openClientFd (h : At t serving lookups server client) :
    wp (openClientFd e host port) E (fun r t' => r = opened e host port ∧
      At t' (if e.socket then insert .server serving else serving)
        (lookups ++ if e.socket then [(host, port)] else []) server client) t := by
  rw [Handler.openClientFd, opened]
  by_cases hsocket : e.socket
  · rw [if_neg (not_not.mpr hsocket), if_neg (not_not.mpr hsocket), if_pos hsocket, if_pos hsocket]
    refine (h.touch (.acquire .server) (by decide)).bind fun _ t₁ h₁ => ?_
    rw [wp_bind, wp_modify]
    have h₂ : At { t₁ with lookups := t₁.lookups ++ [(host, port)] } (insert .server serving)
        (lookups ++ [(host, port)]) server client :=
      ⟨h₁.disciplined, h₁.once, h₁.held, by rw [← h₁.lookups], h₁.toServer, h₁.toClient⟩
    generalize { t₁ with lookups := t₁.lookups ++ [(host, port)] } = t₂ at h₂
    split_ifs with hfound
    · exact ⟨rfl, h₂⟩
    all_goals
      refine (h₂.touch (.acquire .address) (by decide)).bind fun _ t₃ h₃ => ?_
      refine (h₃.touch (.use .server) (by decide)).bind fun _ t₄ h₄ => ?_
      refine (h₄.touch (.release .address) (by decide)).bind fun _ t₅ h₅ => ?_
      exact ⟨rfl, h₅⟩
  · rw [if_pos hsocket, if_pos hsocket, if_neg hsocket, if_neg hsocket, List.append_nil]
    exact ⟨rfl, h⟩

theorem At.openServerConnection_badPort (h : At t serving lookups server client)
    {fullHost : Bytes} (hsplit : splitPort fullHost = none) :
    wp (openServerConnection e fullHost) E
      (fun r t' => r = none ∧ At t' serving lookups server client) t := by
  rw [Handler.openServerConnection, hsplit]
  exact ⟨rfl, h⟩

/-- The response for a host without an address -/
def refusal (e : Environment) : Opened → List Bytes
  | .noAddress err => (lookupMessage err).toList.map fun msg =>
      (RequestLine.response (ascii "502 Bad Gateway") msg).take
        (e.takes (RequestLine.response (ascii "502 Bad Gateway") msg))
  | .failed => []
  | .connected => []

theorem At.openServerConnection (h : At t serving lookups server client) {fullHost : Bytes}
    (hsplit : splitPort fullHost = some (host, port)) :
    wp (openServerConnection e fullHost) E (fun r t' =>
      r = (if opened e host port = .connected then some host else none) ∧
      At t' (if e.socket then insert .server serving else serving)
        (lookups ++ if e.socket then [(host, port)] else []) server
        (client ++ refusal e (opened e host port))) t := by
  rw [Handler.openServerConnection, hsplit]
  refine h.openClientFd.bind fun r t₁ hopen => ?_
  obtain ⟨hr, h₁⟩ := hopen
  rw [hr]
  cases hopened : opened e host port with
  | failed => exact ⟨rfl, by rwa [refusal, List.append_nil]⟩
  | connected => exact ⟨rfl, by rwa [refusal, List.append_nil]⟩
  | noAddress err =>
    have hclient : Resource.client ∈ if e.socket then insert .server serving else serving := by
      split_ifs <;> decide
    dsimp only
    cases hmessage : lookupMessage err with
    | none =>
      refine ⟨rfl, ?_⟩
      rw [refusal, hmessage]
      simpa using h₁
    | some msg =>
      dsimp only
      refine (h₁.sendStatusCode hclient (ascii "502 Bad Gateway") msg).bind fun _ t₂ h₂ => ?_
      refine ⟨rfl, ?_⟩
      rw [refusal, hmessage]
      exact h₂

theorem At.writeToServer (h : At t held lookups server client) (hheld : .server ∈ held)
    {send : Bytes → Option (Bool × Bytes)} {success : Bool} {received : Bytes}
    (hsend : send server = some (success, received)) :
    wp (writeToServer send) E
      (fun r t' => r = success ∧ At t' held lookups received client) t := by
  refine (h.touch (.use .server) ⟨hheld, by simp⟩).bind fun _ t₁ h₁ => ?_
  rw [wp_bind, wp_reads, h₁.toServer, hsend]
  exact ⟨rfl, h₁.disciplined, h₁.once, h₁.held, h₁.lookups, rfl, h₁.toClient⟩

/-- What is held between the requests to the server. -/
def connected : Finset Resource := insert .server serving

theorem At.clientError (h : At t serving lookups server client) {header : Header} :
    wp (clientError (some header)) E (fun _ t' => At t' {.cache} lookups server client) t := by
  refine (h.touch (.release .client) (by decide)).bind fun _ t₁ h₁ => ?_
  refine (h₁.touch (.release .host) (by decide)).bind fun _ t₂ h₂ => ?_
  refine (h₂.touch (.release .path) (by decide)).post fun _ t₃ h₃ => ?_
  have hheld : Usage.next (Usage.next (Usage.next serving (.release .client)) (.release .host))
      (.release .path) = {.cache} := by decide
  rwa [hheld] at h₃

theorem At.serverError (h : At t connected lookups server client) {header : Header} :
    wp (serverError (some header)) E (fun _ t' => At t' {.cache} lookups server client) t := by
  refine (h.touch (.release .server) (by decide)).bind fun _ t₁ h₁ => ?_
  have hheld : Usage.next connected (.release .server) = serving := by decide
  rw [hheld] at h₁
  exact h₁.clientError

theorem At.finish (h : At t (insert .key connected) lookups server client) {header : Header} :
    wp (finish e (some header)) E
      (fun _ t' => At t' {.cache, .key} lookups server client) t := by
  have hend : ∀ {t}, At t (insert .key serving) lookups server client →
      wp (Handler.clientError (some header)) E
        (fun _ t' => At t' {.cache, .key} lookups server client) t := by
    intro t h
    refine (h.touch (.release .client) (by decide)).bind fun _ t₁ h₁ => ?_
    refine (h₁.touch (.release .host) (by decide)).bind fun _ t₂ h₂ => ?_
    refine (h₂.touch (.release .path) (by decide)).post fun _ t₃ h₃ => ?_
    have hheld : Usage.next (Usage.next (Usage.next (insert .key serving) (.release .client))
        (.release .host)) (.release .path) = {.cache, .key} := by decide
    rwa [hheld] at h₃
  refine (h.touch (.release .server) (by decide)).bind fun _ t₁ h₁ => ?_
  have hheld : Usage.next (insert .key connected) (.release .server) = insert .key serving := by
    decide
  rw [hheld] at h₁
  refine (h₁.touch (.use .client) (by decide)).bind fun _ t₂ h₂ => ?_
  split_ifs
  · exact (h₂.touch (.use .client) (by decide)).bind fun _ t₃ h₃ => hend h₃
  · exact hend h₂

theorem At.respond (h : At t connected lookups server client) {sent : Bytes} {success : Bool}
    {s : State} (hrun : sendResponse n host path e.key e.buffer e.events
      (initCache e.strings e.buffers) = .ok ((success, sent), s)) :
    wp (respond e n host path) E
      (fun _ t' => At t' (insert .key connected) lookups server (client ++ [sent])) t := by
  refine (h.touch (.acquire .key) (by decide)).bind fun _ t₁ h₁ => ?_
  refine (h₁.touch (.use .server) (by decide)).bind fun _ t₂ h₂ => ?_
  refine (h₂.touch (.use .client) (by decide)).bind fun _ t₃ h₃ => ?_
  rw [hrun]
  exact ⟨h₃.disciplined, h₃.once, h₃.held, h₃.lookups, h₃.toServer, by rw [← h₃.toClient]⟩

/-- The status response of `make_get_header` -/
def rejectionStatus (e : Environment) : Rejection → Bytes
  | .malformed => status e "400 Bad Request" "Invalid request sent to proxy."
  | .notImplemented => status e "501 Not Implemented" "Invalid request sent to proxy."

theorem At.getHeader (h : At t {.client, .cache} [] [] []) : wp (getHeader e) E
    (fun r t' => match makeGetHeader e.input with
      | .ok header => r = some header ∧ At t' serving [] [] []
      | .error rejection => r = none ∧ At t' {.client, .cache} [] [] [rejectionStatus e rejection])
    t := by
  refine (h.touch (.use .client) (by decide)).bind fun _ t₁ h₁ => ?_
  cases makeGetHeader e.input with
  | ok header =>
    refine (h₁.touch (.acquire .path) (by decide)).bind fun _ t₂ h₂ => ?_
    refine (h₂.touch (.acquire .host) (by decide)).bind fun _ t₃ h₃ => ?_
    have hheld : Usage.next (Usage.next (Usage.next {.client, .cache} (.use .client))
        (.acquire .path)) (.acquire .host) = serving := by decide
    rw [hheld] at h₃
    exact ⟨rfl, h₃⟩
  | error rejection =>
    cases rejection with
    | malformed => exact (h₁.sendStatusCode (by decide) _ _).bind fun _ t₂ h₂ => ⟨rfl, h₂⟩
    | notImplemented => exact (h₁.sendStatusCode (by decide) _ _).bind fun _ t₂ h₂ => ⟨rfl, h₂⟩

theorem handleRequest_getHeader {Q : Unit → Thread → Prop}
    (hrest : ∀ t, At t {.client, .cache} [] [] [] → wp (getHeader e) E (fun r t' =>
      wp (match r with | none => clientError none | some header => serve e n header) E Q t') t) :
    wp (handleRequest e n) E Q start := by
  refine (at_start.touch (.acquire .cache) (by decide)).bind fun _ t₁ h₁ => ?_
  refine (h₁.touch (.release .cfd) (by decide)).bind fun _ t₂ h₂ => ?_
  have hheld : Usage.next (Usage.next given (.acquire .cache)) (.release .cfd) =
      {.client, .cache} := by decide
  rw [hheld] at h₂
  exact wp_bind.mpr (hrest t₂ h₂)

theorem handleRequest_rejected {rejection : Rejection}
    (hheader : makeGetHeader e.input = .error rejection) : wp (handleRequest e n) E
      (fun _ t' => At t' {.cache} [] [] [rejectionStatus e rejection]) start := by
  refine handleRequest_getHeader fun t h => h.getHeader.post fun r t₁ hr => ?_
  rw [hheader] at hr
  obtain ⟨rfl, h₁⟩ := hr
  refine (h₁.touch (.release .client) (by decide)).post fun _ t₂ h₂ => ?_
  have hheld : Usage.next {.client, .cache} (.release .client) = ({.cache} : Finset Resource) := by
    decide
  rwa [hheld] at h₂

theorem handleRequest_serve {header : Header} {Q : Unit → Thread → Prop}
    (hheader : makeGetHeader e.input = .ok header)
    (hrest : ∀ t, At t serving [] [] [] → wp (serve e n header) E Q t) :
    wp (handleRequest e n) E Q start := by
  refine handleRequest_getHeader fun t h => h.getHeader.post fun r t₁ hr => ?_
  rw [hheader] at hr
  obtain ⟨rfl, h₁⟩ := hr
  exact hrest t₁ h₁

theorem handleRequest_badPort {header : Header} (hheader : makeGetHeader e.input = .ok header)
    (hsplit : splitPort header.fullHost = none) :
    wp (handleRequest e n) E (fun _ t' => At t' {.cache} [] [] []) start := by
  refine handleRequest_serve hheader fun t h => ?_
  refine (h.openServerConnection_badPort hsplit).bind fun r t₁ hr => ?_
  obtain ⟨rfl, h₁⟩ := hr
  exact h₁.clientError

def leaked (e : Environment) : Finset Resource := if e.socket then {.cache, .server} else {.cache}

theorem handleRequest_unconnected {header : Header}
    (hheader : makeGetHeader e.input = .ok header)
    (hsplit : splitPort header.fullHost = some (host, port))
    (hopened : opened e host port ≠ .connected) :
    wp (handleRequest e n) E (fun _ t' => At t' (leaked e)
      (if e.socket then [(host, port)] else []) [] (refusal e (opened e host port))) start := by
  refine handleRequest_serve hheader fun t h => ?_
  refine (h.openServerConnection hsplit).bind fun r t₁ hr => ?_
  obtain ⟨rfl, h₁⟩ := hr
  rw [if_neg hopened]
  have hheld : ∀ b : Bool, Usage.next (Usage.next (Usage.next
      (if b then insert Resource.server serving else serving) (.release .client))
      (.release .host)) (.release .path) = if b then {.cache, .server} else {.cache} := by
    decide
  have hlegal : ∀ b : Bool, Resource.client ∈ (if b then insert Resource.server serving
      else serving) ∧ Resource.host ∈ Usage.next (if b then insert Resource.server serving
      else serving) (.release .client) ∧ Resource.path ∈ Usage.next (Usage.next
      (if b then insert Resource.server serving else serving) (.release .client))
      (.release .host) := by
    decide
  obtain ⟨hclient, hhost, hpath⟩ := hlegal e.socket
  refine (h₁.touch (.release .client) ⟨hclient, by simp⟩).bind fun _ t₂ h₂ => ?_
  refine (h₂.touch (.release .host) ⟨hhost, by simp⟩).bind fun _ t₃ h₃ => ?_
  refine (h₃.touch (.release .path) ⟨hpath, by simp⟩).post fun _ t₄ h₄ => ?_
  rwa [hheld e.socket] at h₄

/-- What the server is sent before it answers. -/
def request (e : Environment) (host path : Bytes) : Option (Bool × Bytes) :=
  let (success, out) := Headers.writeAll e.accepts [] [ascii "GET ", path, ascii " HTTP/1.0\r\n"]
  if ¬ success then some (false, out)
  else Headers.filterFrom e.accepts host ((afterFirstLine e.input).length + 1) false false
    (afterFirstLine e.input) out

theorem handleRequest_connected {header : Header} {success : Bool} {received : Bytes}
    (hheader : makeGetHeader e.input = .ok header)
    (hsplit : splitPort header.fullHost = some (host, port))
    (hopened : opened e host port = .connected)
    (hrequest : request e host header.path = some (success, received)) :
    wp (handleRequest e n) (fun stop => success = true ∧ sendResponse n host header.path e.key
        e.buffer e.events (initCache e.strings e.buffers) = .error stop)
      (fun _ t' =>
        (success = false ∧ At t' {.cache} [(host, port)] received []) ∨
        (success = true ∧ ∃ sent r s, sendResponse n host header.path e.key e.buffer e.events
          (initCache e.strings e.buffers) = .ok ((r, sent), s) ∧
          At t' {.cache, .key} [(host, port)] received [sent])) start := by
  have hsocket : e.socket = true := by
    by_contra hsocket
    rw [opened, if_pos hsocket] at hopened
    cases hopened
  refine handleRequest_serve hheader fun t h => ?_
  refine (h.openServerConnection hsplit).bind fun r t₁ hr => ?_
  obtain ⟨rfl, h₁⟩ := hr
  rw [if_pos hsocket, if_pos hsocket, hopened, refusal, List.append_nil] at h₁
  rw [if_pos hopened]
  dsimp only
  rw [request] at hrequest
  cases hget : Headers.writeAll e.accepts [] [ascii "GET ", header.path, ascii " HTTP/1.0\r\n"] with
  | mk sentGet out =>
  rw [hget] at hrequest
  refine (h₁.writeToServer (by decide) (congrArg some hget)).bind fun r t₂ hr => ?_
  obtain ⟨rfl, h₂⟩ := hr
  cases r with
  | false =>
    obtain ⟨rfl, rfl⟩ := Prod.mk.inj (Option.some.inj hrequest)
    exact (h₂.serverError).post fun _ t₃ h₃ => .inl ⟨rfl, h₃⟩
  | true =>
    rw [if_neg (by simp)]
    refine wp_bind.mpr ?_
    rw [filterRestHeaders]
    refine (h₂.touch (.use .client) (by decide)).bind fun _ t₃ h₃ => ?_
    refine (h₃.writeToServer (by decide) hrequest).post fun r t₄ hr => ?_
    obtain ⟨rfl, h₄⟩ := hr
    cases r with
    | false =>
      exact (h₄.serverError).post fun _ t₅ h₅ => .inl ⟨rfl, h₅⟩
    | true =>
      rw [if_neg (by simp), wp_bind]
      cases hrun : sendResponse n host header.path e.key e.buffer e.events
          (initCache e.strings e.buffers) with
      | ok p =>
        obtain ⟨⟨r, sent⟩, s⟩ := p
        refine (h₄.respond hrun).post fun _ t₅ h₅ => ?_
        exact (h₅.finish).post fun _ t₆ h₆ => .inr ⟨rfl, sent, r, s, rfl, h₆⟩
      | error stop =>
        rw [respond, wp_bind]
        refine (h₄.touch (.acquire .key) (by decide)).post fun _ t₅ h₅ => ?_
        rw [wp_bind]
        refine (h₅.touch (.use .server) (by decide)).post fun _ t₆ h₆ => ?_
        rw [wp_bind]
        refine (h₆.touch (.use .client) (by decide)).post fun _ t₇ h₇ => ?_
        rw [hrun]
        exact ⟨rfl, rfl⟩

theorem requestTarget_of_ok {header : Header} (hheader : makeGetHeader e.input = .ok header)
    (hsplit : splitPort header.fullHost = some (host, port)) :
    requestTarget e.input = some ⟨host, port, header.path⟩ := by
  rw [requestTarget, hheader]
  dsimp only
  rw [hsplit]
  rfl

theorem At.balanced (h : At t held lookups server client) {r : Resource} (hgiven : r ∉ given)
    (hheld : r ∉ held) : t.usages.count (.acquire r) = t.usages.count (.release r) := by
  have hcounts := h.disciplined.counts r
  rw [h.held, if_neg hgiven, if_neg hheld] at hcounts
  omega

theorem At.released (h : At t held lookups server client) {r : Resource} (hgiven : r ∈ given)
    (hheld : r ∉ held) : t.usages.count (.release r) = 1 := by
  have hcounts := h.disciplined.counts r
  rw [h.held, if_pos hgiven, if_neg hheld, List.count_eq_zero.mpr (h.once r hgiven)] at hcounts
  omega

def plainRequest (found : Bool) : Environment where
  input := requestLine "http://h/a" ++ ascii "A: b\r\n\r\n"
  socket := true
  getaddrinfo _ _ := if found then .found else .eaiFail
  connect _ _ := true
  takes := List.length
  accepts := Headers.always
  strings _ := []
  buffers _ := .create 1
  key := 1
  buffer := 2
  events := twoPieces
  shutdown := true

theorem plainRequest_returns : ∃ t, handleRequest (plainRequest true) 9 start = .ok ((), t) := by
  have hok : (handleRequest (plainRequest true) 9 start).isOk = true := by decide +kernel
  cases hrun : handleRequest (plainRequest true) 9 start with
  | ok r => exact ⟨r.2, rfl⟩
  | error stop =>
    rw [hrun] at hok
    cases hok

theorem header_of_accepted (hnul : ∀ line, RequestLine.FirstLine e.input line → 0 ∉ line)
    {url version : Bytes} (h : RequestLine.Accepted e.input url version) :
    makeGetHeader e.input = .ok ⟨RequestLine.hostOf url, RequestLine.pathOf url⟩ := by
  have hcall : RequestLine.makeGetHeader e.input ⟨none, none, []⟩ =
      (true, ⟨some (RequestLine.hostOf url), some (RequestLine.pathOf url), []⟩) :=
    RequestLine.call_of_accepted hnul h
  rw [RequestLine.makeGetHeader_eq] at hcall
  cases hheader : makeGetHeader e.input with
  | ok header =>
    rw [hheader] at hcall
    obtain ⟨fullHost, path⟩ := header
    injection hcall with _ hcall
    injection hcall with hhost hpath
    have hhost' : fullHost = RequestLine.hostOf url := Option.some.inj hhost
    have hpath' : path = RequestLine.pathOf url := Option.some.inj hpath
    rw [hhost', hpath']
  | error rejection =>
    rw [hheader] at hcall
    cases rejection <;> cases hcall

theorem header_of_otherMethod (hnul : ∀ line, RequestLine.FirstLine e.input line → 0 ∉ line)
    (h : RequestLine.OtherMethod e.input) : makeGetHeader e.input = .error .notImplemented := by
  have hcall : RequestLine.makeGetHeader e.input ⟨none, none, []⟩ =
      RequestLine.notImplementedError ⟨none, none, []⟩ := RequestLine.call_of_otherMethod hnul h
  rw [RequestLine.makeGetHeader_eq] at hcall
  cases hheader : makeGetHeader e.input with
  | ok header =>
    rw [hheader] at hcall
    cases hcall
  | error rejection =>
    cases rejection with
    | malformed =>
      rw [hheader] at hcall
      exact absurd (congrArg (fun r => r.2.sent) hcall) (by decide)
    | notImplemented => rfl

theorem header_of_neither (hnul : ∀ line, RequestLine.FirstLine e.input line → 0 ∉ line)
    (h : ¬ ∃ url version, RequestLine.Accepted e.input url version)
    (h' : ¬ RequestLine.OtherMethod e.input) : makeGetHeader e.input = .error .malformed := by
  have hcall : RequestLine.makeGetHeader e.input ⟨none, none, []⟩ =
      RequestLine.malformedError ⟨none, none, []⟩ := RequestLine.call_of_neither hnul h h'
  rw [RequestLine.makeGetHeader_eq] at hcall
  cases hheader : makeGetHeader e.input with
  | ok header =>
    rw [hheader] at hcall
    cases hcall
  | error rejection =>
    cases rejection with
    | malformed => rfl
    | notImplemented =>
      rw [hheader] at hcall
      exact absurd (congrArg (fun r => r.2.sent) hcall) (by decide)

theorem run_of_wp {P : Thread → Prop}
    (h : wp (handleRequest e n) (fun _ => False) (fun _ t => P t) start) :
    ∃ t, handleRequest e n start = .ok ((), t) ∧ P t := by
  obtain ⟨_, t, hrun, ht⟩ := h.returns
  exact ⟨t, hrun, ht⟩

/-- A request that does not lead to a connection: the handler returns, nothing goes to a server,
and the client gets the one response that says what is wrong, or none if the port is out of
range, the server does not answer, or the lookup fails in another way. Only for an accepted
request with a valid port is a host looked up. -/
theorem handle_request_turns_away
    (hnul : ∀ line, RequestLine.FirstLine e.input line → 0 ∉ line)
    (hno : ∀ target, requestTarget e.input = some target →
      opened e target.hostName target.port ≠ .connected) (n : Nat) :
    ∃ t, handleRequest e n start = .ok ((), t) ∧ t.toServer = [] ∧
      (RequestLine.OtherMethod e.input → t.lookups = [] ∧
        t.toClient = [status e "501 Not Implemented" "Invalid request sent to proxy."]) ∧
      ((¬ ∃ url version, RequestLine.Accepted e.input url version) →
        ¬ RequestLine.OtherMethod e.input → t.lookups = [] ∧
          t.toClient = [status e "400 Bad Request" "Invalid request sent to proxy."]) ∧
      ∀ url version, RequestLine.Accepted e.input url version →
        (splitPort (RequestLine.hostOf url) = none → t.lookups = [] ∧ t.toClient = []) ∧
        ∀ host port, splitPort (RequestLine.hostOf url) = some (host, port) →
          t.lookups = (if e.socket then [(host, port)] else []) ∧
          t.toClient = refusal e (opened e host port) := by
  by_cases haccepted : ∃ url version, RequestLine.Accepted e.input url version
  · obtain ⟨url, version, h⟩ := haccepted
    have hheader := header_of_accepted hnul h
    have hother : ¬ RequestLine.OtherMethod e.input := fun h' => by
      rw [header_of_otherMethod hnul h'] at hheader
      cases hheader
    have hsame : ∀ url' version', RequestLine.Accepted e.input url' version' →
        RequestLine.hostOf url' = RequestLine.hostOf url := fun url' version' h' => by
      rw [header_of_accepted hnul h'] at hheader
      injection hheader with hheader
      injection hheader
    cases hsplit : splitPort (RequestLine.hostOf url) with
    | none =>
      obtain ⟨t, hrun, ht⟩ := run_of_wp (handleRequest_badPort (n := n) hheader hsplit)
      refine ⟨t, hrun, ht.toServer, fun h' => absurd h' hother,
        fun h' => absurd ⟨url, version, h⟩ h', fun url' version' h' => ⟨fun _ =>
          ⟨ht.lookups, ht.toClient⟩, fun host port hsplit' => ?_⟩⟩
      rw [hsame url' version' h', hsplit] at hsplit'
      cases hsplit'
    | some p =>
      obtain ⟨host, port⟩ := p
      obtain ⟨t, hrun, ht⟩ := run_of_wp (handleRequest_unconnected (n := n) hheader hsplit
        (hno _ (requestTarget_of_ok hheader hsplit)))
      refine ⟨t, hrun, ht.toServer, fun h' => absurd h' hother,
        fun h' => absurd ⟨url, version, h⟩ h', fun url' version' h' => ⟨fun hsplit' => ?_,
          fun host' port' hsplit' => ?_⟩⟩
      · rw [hsame url' version' h', hsplit] at hsplit'
        cases hsplit'
      · rw [hsame url' version' h', hsplit] at hsplit'
        obtain ⟨rfl, rfl⟩ := Prod.mk.inj (Option.some.inj hsplit')
        exact ⟨ht.lookups, ht.toClient⟩
  · by_cases hother : RequestLine.OtherMethod e.input
    · obtain ⟨t, hrun, ht⟩ := run_of_wp (handleRequest_rejected (n := n)
        (header_of_otherMethod hnul hother))
      exact ⟨t, hrun, ht.toServer, fun _ => ⟨ht.lookups, ht.toClient⟩,
        fun _ h' => absurd hother h', fun url version h => absurd ⟨url, version, h⟩ haccepted⟩
    · obtain ⟨t, hrun, ht⟩ := run_of_wp (handleRequest_rejected (n := n)
        (header_of_neither hnul haccepted hother))
      exact ⟨t, hrun, ht.toServer, fun h' => absurd h' hother,
        fun _ _ => ⟨ht.lookups, ht.toClient⟩,
        fun url version h => absurd ⟨url, version, h⟩ haccepted⟩

theorem plainRequest_nul (found : Bool) :
    ∀ line, RequestLine.FirstLine (plainRequest found).input line → 0 ∉ line := by
  have hzero : (0 : UInt8) ∉ requestLine "http://h/a" ++ ascii "A: b\r\n\r\n" := by decide
  exact fun line hline hmem => hzero (hline.start.subset hmem)

theorem handle_request_turns_away_unresolved : ∃ t, handleRequest (plainRequest false) 9 start =
    .ok ((), t) ∧ t.toServer = [] := by
  have htarget : requestTarget (plainRequest false).input = some ⟨ascii "h", 80, ascii "/a"⟩ := by
    decide
  have hno : ∀ target, requestTarget (plainRequest false).input = some target →
      opened (plainRequest false) target.hostName target.port ≠ .connected := by
    intro target h
    rw [htarget] at h
    obtain rfl := Option.some.inj h
    decide
  obtain ⟨t, hrun, hserver, -⟩ := handle_request_turns_away (plainRequest_nul false) hno 9
  exact ⟨t, hrun, hserver⟩

/-- What the server sends, up to its end or an error. -/
def sentBytes : List Event → Bytes
  | .piece bytes _ _ :: events => bytes ++ sentBytes events
  | _ => []

/-- Every call of `write` takes all it is offered. -/
def WritesAll : List Event → Prop
  | .piece bytes written _ :: events => written = some bytes.length ∧ WritesAll events
  | _ => True

theorem length_clientBytes_le (events : List Event) :
    (clientBytes events).length ≤ (sentBytes events).length := by
  induction events with
  | nil => exact le_rfl
  | cons event events ih =>
    cases event with
    | readError => exact le_rfl
    | eof => exact le_rfl
    | piece bytes written node =>
      cases written with
      | none => exact Nat.zero_le _
      | some written =>
        have hclient : clientBytes (.piece bytes (some written) node :: events) =
            bytes.take written ++ clientBytes events := List.flatMap_cons ..
        rw [hclient, sentBytes, List.length_append, List.length_append, List.length_take]
        omega

theorem clientBytes_eq_iff {events : List Event} (hvalid : ∀ event ∈ events, event.Valid) :
    clientBytes events = sentBytes events ↔ WritesAll events := by
  induction events with
  | nil => exact iff_of_true rfl trivial
  | cons event events ih =>
    obtain ⟨hevent, hrest⟩ := List.forall_mem_cons.mp hvalid
    cases event with
    | readError => exact iff_of_true rfl trivial
    | eof => exact iff_of_true rfl trivial
    | piece bytes written node =>
      obtain ⟨hpos, -, hwritten⟩ := hevent
      cases written with
      | none =>
        refine iff_of_false (fun heq => ?_) fun h => by cases h.1
        have hlength := congrArg List.length heq
        rw [sentBytes, List.length_append] at hlength
        have hnil : (clientBytes (.piece bytes none node :: events)).length = 0 := rfl
        omega
      | some written =>
        have hclient : clientBytes (.piece bytes (some written) node :: events) =
            bytes.take written ++ clientBytes events := List.flatMap_cons ..
        have hle := hwritten written rfl
        rw [hclient, sentBytes, WritesAll, Option.some.injEq, ← ih hrest]
        constructor
        · intro heq
          have hlength := congrArg List.length heq
          have hshort := length_clientBytes_le events
          rw [List.length_append, List.length_append, List.length_take] at hlength
          have hfull : written = bytes.length := by omega
          rw [hfull, List.take_length] at heq
          exact ⟨hfull, List.append_cancel_left heq⟩
        · rintro ⟨rfl, heq⟩
          rw [List.take_length, heq]

theorem contains_fresh {s s' : State} {k r : Nat} (harr : s.arr = fun _ => 0)
    (hrun : contains n k s = .ok (r, s')) : r = 0 := by
  have hfrom : contains n k s = containsFrom k n (s.arr (hash (s.strings k))) s := rfl
  rw [hfrom, harr] at hrun
  cases n with
  | zero => cases hrun
  | succ n =>
    have hzero : containsFrom k (n + 1) 0 s = .ok (0, s) := rfl
    rw [hzero] at hrun
    exact (Prod.mk.inj (Except.ok.inj hrun)).1.symm

/-- The lookup of `send_response` finds no node. -/
def Misses (n key : Nat) (host path : Bytes) (s : State) : Prop :=
  ∃ s', contains n key { s with strings := Function.update s.strings key (makeKey host path) } =
    .ok (0, s')

theorem sendResponse_fresh {key buffer : Nat} {events : List Event} {sent : Bytes} {r : Bool}
    {s s' : State} (harr : s.arr = fun _ => 0)
    (hrun : sendResponse n host path key buffer events s = .ok ((r, sent), s')) :
    Misses n key host path s ∧ sent = clientBytes events := by
  rw [sendResponse] at hrun
  obtain ⟨_, s₁, hkey, hrun₁⟩ := bind_eq_ok.mp hrun
  obtain ⟨node, s₂, hcontains, hrun₂⟩ := bind_eq_ok.mp hrun₁
  obtain rfl := (Prod.mk.inj (Except.ok.inj hkey)).2
  dsimp only at hcontains
  have hfresh : ∀ strings, State.arr { s with strings := strings } = fun _ => 0 := fun _ => harr
  obtain rfl : node = 0 := contains_fresh (hfresh _) hcontains
  rw [if_neg (fun h => h rfl)] at hrun₂
  obtain ⟨_, s₃, _, hloop⟩ := bind_eq_ok.mp hrun₂
  exact ⟨⟨s₂, hcontains⟩, (sendLoop_sent []).ok hloop⟩

theorem length_le_flatten {lines : List Bytes} (h : ∀ line ∈ lines, line ≠ []) :
    lines.length ≤ lines.flatten.length := by
  induction lines with
  | nil => exact le_rfl
  | cons line lines ih =>
    obtain ⟨hline, hlines⟩ := List.forall_mem_cons.mp h
    have hpos := List.length_pos_iff.mpr hline
    have hrest := ih hlines
    rw [List.length_cons, List.flatten_cons, List.length_append]
    omega

theorem request_eq (host path : Bytes) {line rest : Bytes} {lines : List Bytes}
    (hline : RequestLine.FirstLine line line)
    (hinput : e.input = line ++ (lines.flatten ++ (ascii "\r\n" ++ rest)))
    (hlines : ∀ l ∈ lines, Headers.HeaderLine l) (haccepts : e.accepts = Headers.always) :
    request e host path = some (true, ascii "GET " ++ path ++ ascii " HTTP/1.0\r\n" ++
      (lines.flatMap Headers.passed ++ Headers.trailer host
        (decide (∃ l ∈ lines, Headers.Written .host l))
        (decide (∃ l ∈ lines, Headers.Written .connection l)))) := by
  have hafter : afterFirstLine e.input = lines.flatten ++ (ascii "\r\n" ++ rest) := by
    rw [afterFirstLine, hinput, Headers.readFullLine_append hline]
    rfl
  have hget : Headers.writeAll Headers.always [] [ascii "GET ", path, ascii " HTTP/1.0\r\n"] =
      (true, ascii "GET " ++ path ++ ascii " HTTP/1.0\r\n") := by
    simp [Headers.writeAll, Headers.writeString, Headers.always]
  have hfuel : lines.length < (lines.flatten ++ (ascii "\r\n" ++ rest)).length + 1 := by
    have hle := length_le_flatten fun l hl => RequestLine.ne_nil_of_ends (hlines l hl).whole.ends
    rw [List.length_append]
    omega
  rw [request, haccepts, hget, hafter]
  dsimp only
  rw [if_neg (by simp), Headers.filterFrom_lines hlines hfuel, Bool.false_or, Bool.false_or,
    List.append_assoc]

/-- A request that leads to a connection, to a server that takes what it is sent: the server is
asked for the path of the URL with the headers of a request that is not persistent, as long as the
client writes them with the usual capitals, and the client gets what the server sends, and nothing
else, exactly if each `write` takes all it is offered. The answer never comes from the cache: the
lookup finds nothing, and all that the client gets are bytes that were read from the server. -/
theorem handle_request_transparent {line rest url version : Bytes} {lines : List Bytes}
    (hline : RequestLine.FirstLine line line) (hnul : 0 ∉ line)
    (hinput : e.input = line ++ (lines.flatten ++ (ascii "\r\n" ++ rest)))
    (haccepted : RequestLine.Accepted line url version)
    (hsplit : splitPort (RequestLine.hostOf url) = some (host, port))
    (hopened : opened e host port = .connected)
    (hlines : ∀ l ∈ lines, Headers.HeaderLine l) (haccepts : e.accepts = Headers.always)
    (hvalid : ∀ event ∈ e.events, event.Valid)
    (hrun : handleRequest e n start = .ok ((), t)) :
    t.lookups = [(host, port)] ∧
    (t.toServer = ascii "GET " ++ RequestLine.pathOf url ++ ascii " HTTP/1.0\r\n" ++
      Headers.nonPersistent host lines ↔ Headers.Capitalised lines) ∧
    (t.toClient.flatten = sentBytes e.events ↔ WritesAll e.events) ∧
    Misses n e.key host (RequestLine.pathOf url) (initCache e.strings e.buffers) ∧
    t.toClient = [clientBytes e.events] := by
  have hfirst : RequestLine.FirstLine e.input line := by
    rw [hinput]
    exact Headers.firstLine_append hline _
  have hnul' : ∀ l, RequestLine.FirstLine e.input l → 0 ∉ l := fun l hl => by
    rwa [hl.unique hfirst]
  have haccepted' : RequestLine.Accepted e.input url version := by
    obtain ⟨l, hl, htokens, hurl, hversion⟩ := haccepted
    rw [hl.unique hline] at htokens
    exact ⟨line, hfirst, htokens, hurl, hversion⟩
  have hheader := header_of_accepted hnul' haccepted'
  have hrequest := request_eq host (RequestLine.pathOf url) hline hinput hlines haccepts
  rcases (handleRequest_connected hheader hsplit hopened hrequest).ok hrun with
    ⟨hfalse, -⟩ | ⟨-, sent, r, s, hsend, hend⟩
  · cases hfalse
  obtain ⟨hmisses, hsent⟩ := sendResponse_fresh rfl hsend
  refine ⟨hend.lookups, ?_, ?_, hmisses, hsent ▸ hend.toClient⟩
  · rw [hend.toServer, List.append_cancel_left_eq]
    exact Headers.sent_eq_iff hlines
  · rw [hend.toClient, hsent, List.flatten_singleton]
    exact clientBytes_eq_iff hvalid

theorem handle_request_transparent_plain : ∃ t, handleRequest (plainRequest true) 9 start =
    .ok ((), t) ∧ t.toClient.flatten = sentBytes twoPieces ∧
      Misses 9 1 (ascii "h") (ascii "/a") (initCache (fun _ => []) fun _ => .create 1) := by
  obtain ⟨t, hrun⟩ := plainRequest_returns
  have hline : RequestLine.FirstLine (requestLine "http://h/a") (requestLine "http://h/a") :=
    RequestLine.firstLine_iff.mpr ⟨[], by decide⟩
  have haccepted : RequestLine.Accepted (requestLine "http://h/a") (ascii "http://h/a")
      (ascii "HTTP/1.0\r\n") :=
    ⟨_, hline, RequestLine.threeTokens_iff.mp (by decide), ⟨ascii "h/a", by decide⟩,
      ⟨ascii "1.0\r\n", by decide⟩⟩
  have hlines : ∀ l ∈ Headers.oneHeader "A: b", Headers.HeaderLine l :=
    Headers.oneHeader_headerLine (by decide) (by decide) (by decide)
  have hvalid : ∀ event ∈ (plainRequest true).events, event.Valid := by
    simp [plainRequest, twoPieces, Event.Valid, bufferSize]
  have hsplit : splitPort (RequestLine.hostOf (ascii "http://h/a")) = some (ascii "h", 80) := by
    decide
  have hinput : (plainRequest true).input = requestLine "http://h/a" ++
      ((Headers.oneHeader "A: b").flatten ++ (ascii "\r\n" ++ [])) := by decide
  obtain ⟨-, -, hall, hmisses, -⟩ := handle_request_transparent hline (by decide) hinput haccepted
    hsplit (by decide) hlines rfl hvalid hrun
  refine ⟨t, hrun, hall.mpr ⟨rfl, rfl, trivial⟩, ?_⟩
  have hpath : RequestLine.pathOf (ascii "http://h/a") = ascii "/a" := by decide
  rw [hpath] at hmisses
  exact hmisses

end CS24.Proxy.Handler
