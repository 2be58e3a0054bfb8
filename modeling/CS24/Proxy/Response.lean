import CS24.Proxy.Eviction
import CS24.Proxy.Request
import CS24.Proxy.Lookup

/-!
# Passing a response on

`send_response` against everything its environment may do: how `read` splits what the server
sends and how it ends, how much `write` takes of each piece, and which addresses `malloc`
hands out. Only what `write` took is kept in the buffer, and every piece is inserted anew.
-/

namespace CS24.Proxy
open Machine Linked

inductive Event where
  | readError
  | eof
  /-- `read` gives these bytes, of which `write` takes the first `written`, or fails; a node
  for the cache would be at `node`. -/
  | piece (bytes : Bytes) (written : Option Nat) (node : Nat)

def bufferSize : Nat := 8192

/-- `read` gives at least one byte and `write` takes no more than it is offered. -/
def Event.Valid : Event → Prop
  | .piece bytes written _ => 0 < bytes.length ∧ bytes.length ≤ bufferSize ∧
      ∀ n ∈ written, n ≤ bytes.length
  | _ => True

def peek : M Nat := do
  return (← deref (← reads State.front)).value

/-- The loop of `send_response`: its result and the bytes that the client took. -/
def sendLoop (n key buffer : Nat) : List Event → Bytes → M (Bool × Bytes)
  | [], _ => throw .outOfFuel
  | .readError :: _, sent => pure (false, sent)
  | .eof :: _, sent => pure (true, sent)
  | .piece _ none _ :: _, sent => pure (false, sent)
  | .piece bytes (some written) node :: events, sent => do
    modify fun s => { s with
      buffers := Function.update s.buffers buffer ((s.buffers buffer).append (bytes.take written)) }
    let node ← cacheInsert n node key buffer
    (if node ≠ 0 then do
      queueUpdate node
      let _ ← peek
    else pure ())
    sendLoop n key buffer events (sent ++ bytes.take written)

/-- `send_response`, where `malloc` puts the key at `key` and `buffer_create` the buffer at
`buffer` -/
def sendResponse (n : Nat) (host path : Bytes) (key buffer : Nat) (events : List Event) :
    M (Bool × Bytes) := do
  modify fun s => { s with strings := Function.update s.strings key (makeKey host path) }
  let node ← contains n key
  if node ≠ 0 then
    queueUpdate node
    let _ ← peek
    pure (true, [])
  else
    modify fun s => { s with buffers := Function.update s.buffers buffer (.create bufferSize) }
    sendLoop n key buffer events []

/-- The pieces that `write` took something of, with how much that was. -/
def pieces : List Event → List (Bytes × Nat)
  | .piece bytes (some written) _ :: events => (bytes, written) :: pieces events
  | _ => []

/-- What the server sent, when the loop ends at the end of it. -/
def serverBytes (events : List Event) : Bytes := (pieces events).flatMap Prod.fst

/-- What `write` took. -/
def clientBytes (events : List Event) : Bytes :=
  (pieces events).flatMap fun piece => piece.1.take piece.2

variable {s s' : State} {n p k v key buffer : Nat} {events : List Event} {host path : Bytes}
  {chains : Nat → List Nat} {E : Stop → Prop}

theorem sendLoop_sent (sent : Bytes) : wp (sendLoop n key buffer events sent) (fun _ => True)
    (fun r _ => r.2 = sent ++ clientBytes events) s := by
  induction events generalizing sent s with
  | nil => trivial
  | cons event events ih =>
    cases event with
    | readError => exact (List.append_nil sent).symm
    | eof => exact (List.append_nil sent).symm
    | piece bytes written node =>
      cases written with
      | none => exact (List.append_nil sent).symm
      | some written =>
        have hclient : clientBytes (.piece bytes (some written) node :: events) =
            bytes.take written ++ clientBytes events := List.flatMap_cons ..
        rw [sendLoop, wp_bind, wp_modify, wp_bind, hclient, ← List.append_assoc]
        refine wp_of_forall (fun a s₁ => ?_) fun _ => trivial
        rw [wp_bind]
        exact wp_of_forall (fun _ s₂ => ih _) fun _ => trivial

theorem length_taken_le (ps : List (Bytes × Nat)) :
    (ps.flatMap fun piece => piece.1.take piece.2).length ≤ (ps.flatMap Prod.fst).length := by
  induction ps with
  | nil => exact le_rfl
  | cons piece ps ih =>
    rw [List.flatMap_cons, List.flatMap_cons, List.length_append, List.length_append,
      List.length_take]
    omega

theorem taken_eq_iff {ps : List (Bytes × Nat)} (h : ∀ piece ∈ ps, piece.2 ≤ piece.1.length) :
    (ps.flatMap fun piece => piece.1.take piece.2) = ps.flatMap Prod.fst ↔
      ∀ piece ∈ ps, piece.2 = piece.1.length := by
  induction ps with
  | nil => simp
  | cons piece ps ih =>
    have hle := h piece (by simp)
    have ih := ih fun q hq => h q (by simp [hq])
    rw [List.flatMap_cons, List.flatMap_cons, List.forall_mem_cons, ← ih]
    constructor
    · intro heq
      have hlen := congrArg List.length heq
      have hrest := length_taken_le ps
      rw [List.length_append, List.length_append, List.length_take] at hlen
      have hfull : piece.2 = piece.1.length := by omega
      rw [hfull, List.take_length] at heq
      exact ⟨hfull, List.append_cancel_left heq⟩
    · rintro ⟨hfull, heq⟩
      rw [hfull, List.take_length, heq]

theorem pieces_le (hvalid : ∀ event ∈ events, event.Valid) :
    ∀ piece ∈ pieces events, 0 < piece.1.length ∧ piece.1.length ≤ bufferSize ∧
      piece.2 ≤ piece.1.length := by
  induction events with
  | nil => simp [pieces]
  | cons event events ih =>
    cases event with
    | readError => simp [pieces]
    | eof => simp [pieces]
    | piece bytes written node =>
      cases written with
      | none => simp [pieces]
      | some written =>
        obtain ⟨hpos, hle, hwritten⟩ := hvalid _ (List.mem_cons_self ..)
        exact List.forall_mem_cons.mpr ⟨⟨hpos, hle, hwritten written rfl⟩,
          ih fun event he => hvalid event (by simp [he])⟩

/-- On a miss, the bytes the client took are those the server sent if and only if every call
of `write` took all it was offered. -/
theorem sendResponse_transparent (hvalid : ∀ event ∈ events, event.Valid)
    (hmiss : contains n key { s with
      strings := Function.update s.strings key (makeKey host path) } = .ok (0, s'))
    {sent : Bytes} {s'' : State}
    (hrun : sendResponse n host path key buffer events s = .ok ((true, sent), s'')) :
    sent = serverBytes events ↔ ∀ piece ∈ pieces events, piece.2 = piece.1.length := by
  have hsent : wp (sendResponse n host path key buffer events) (fun _ => True)
      (fun r _ => r.2 = clientBytes events) s := by
    rw [sendResponse, wp_bind, wp_modify, wp_bind_of_ok hmiss, if_neg (fun h => h rfl), wp_bind,
      wp_modify]
    exact sendLoop_sent []
  have hclient : sent = clientBytes events := hsent.ok hrun
  rw [hclient]
  exact taken_eq_iff fun piece hpiece => (pieces_le hvalid piece hpiece).2.2

def emptyCache : State := initCache (fun _ => []) fun _ => .create 1

def twoPieces : List Event := [.piece [72, 84] (some 2) 16, .piece [84, 80] (some 2) 32, .eof]

theorem sendResponse_transparent_two : ∃ s',
    sendResponse 9 (ascii "h") (ascii "/") 1 2 twoPieces emptyCache =
        .ok ((true, [72, 84, 84, 80]), s') ∧ [72, 84, 84, 80] = serverBytes twoPieces := by
  obtain ⟨s', hrun⟩ : ∃ s', sendResponse 9 (ascii "h") (ascii "/") 1 2 twoPieces emptyCache =
      .ok ((true, [72, 84, 84, 80]), s') := ⟨_, rfl⟩
  have hvalid : ∀ event ∈ twoPieces, event.Valid := by
    simp [twoPieces, Event.Valid, bufferSize]
  refine ⟨s', hrun, (sendResponse_transparent hvalid rfl hrun).mpr ?_⟩
  simp [twoPieces, pieces]

/-- `write` takes one of two bytes, and the other one is lost. -/
theorem short_write_loses_bytes : ∃ s',
    sendResponse 9 (ascii "h") (ascii "/") 1 2 [.piece [72, 84] (some 1) 16, .eof] emptyCache =
      .ok ((true, [72]), s') ∧
    serverBytes [.piece [72, 84] (some 1) 16, .eof] = [72, 84] :=
  ⟨_, rfl, rfl⟩

end CS24.Proxy
