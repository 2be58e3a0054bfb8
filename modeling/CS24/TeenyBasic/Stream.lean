import CS24.Machine.Fuel
import CS24.TeenyBasic.Parser

/-!
# Positions in a file

A position is given by what is left of the file. Looking for the next token skips blanks; at
the end of the file there is none, and going back by one then leads to the last byte.
-/

namespace CS24.TeenyBasic
open Machine

variable {text ws rest result : List Char} {c last : Char} {n : Nat} {s s' : Stream}
  {r : Option Node × Stream}

/-- The position in the file at which `rest` is left. -/
def pos (text rest : List Char) : Stream :=
  ⟨(text.take (text.length - rest.length)).reverse, rest, false⟩

def ended (text : List Char) : Stream := ⟨text.reverse, [], true⟩

theorem pos_append (before rest : List Char) :
    pos (before ++ rest) rest = ⟨before.reverse, rest, false⟩ := by
  rw [pos, List.length_append, Nat.add_sub_cancel, List.take_left]

theorem fopen_eq_pos (text : List Char) : fopen text = pos text text := (pos_append [] text).symm

theorem fgetc_pos (h : c :: rest <:+ text) :
    fgetc (pos text (c :: rest)) = .ok (some c, pos text rest) := by
  obtain ⟨before, rfl⟩ := h
  have hrest := pos_append (before ++ [c]) rest
  rw [List.append_assoc, List.singleton_append, List.reverse_append] at hrest
  rw [pos_append, hrest]
  rfl

theorem fgetc_end : fgetc (pos text []) = .ok (none, ended text) := by
  have h := pos_append text []
  rw [List.append_nil] at h
  rw [h]
  rfl

theorem rewindOne_pos (h : c :: rest <:+ text) :
    rewindOne (pos text rest) = .ok ((), pos text (c :: rest)) := by
  obtain ⟨before, rfl⟩ := h
  have hrest := pos_append (before ++ [c]) rest
  rw [List.append_assoc, List.singleton_append, List.reverse_append] at hrest
  rw [pos_append, hrest]
  rfl

theorem rewindOne_ended (h : text.getLast? = some last) :
    rewindOne (ended text) = .ok ((), pos text [last]) := by
  obtain ⟨before, rfl⟩ := List.getLast?_eq_some_iff.mp h
  have hlast := pos_append before [last]
  rw [hlast, ended, List.reverse_append]
  rfl

theorem suffix_of_cons (h : c :: rest <:+ text) : rest <:+ text :=
  (List.suffix_cons c rest).trans h

theorem suffix_of_append (h : ws ++ rest <:+ text) : rest <:+ text :=
  (List.suffix_append ws rest).trans h

theorem advanceLoop_pos (hws : ws.all isspace) (hc : isspace c = false)
    (h : ws ++ c :: rest <:+ text) (hn : ws.length < n) :
    advanceLoop n (pos text (ws ++ c :: rest)) = .ok (c, pos text rest) := by
  induction ws generalizing n with
  | nil =>
    obtain ⟨n, rfl⟩ := Nat.exists_eq_succ_of_ne_zero hn.ne'
    rw [advanceLoop, List.nil_append, bind_of_ok (fgetc_pos h)]
    simp only [hc]
    rfl
  | cons b ws ih =>
    obtain ⟨n, rfl⟩ := Nat.exists_eq_succ_of_ne_zero (Nat.ne_of_gt (Nat.zero_lt_of_lt hn))
    rw [List.all_cons, Bool.and_eq_true] at hws
    have h' : b :: (ws ++ c :: rest) <:+ text := h
    rw [advanceLoop, List.cons_append, bind_of_ok (fgetc_pos h')]
    simp only [hws.1]
    exact ih hws.2 (suffix_of_cons h') (Nat.lt_of_succ_lt_succ hn)

theorem advanceLoop_end (hws : ws.all isspace) (h : ws <:+ text) (hn : ws.length < n) :
    advanceLoop n (pos text ws) = .ok ('\x00', ended text) := by
  induction ws generalizing n with
  | nil =>
    obtain ⟨n, rfl⟩ := Nat.exists_eq_succ_of_ne_zero hn.ne'
    rw [advanceLoop, bind_of_ok fgetc_end]
    rfl
  | cons b ws ih =>
    obtain ⟨n, rfl⟩ := Nat.exists_eq_succ_of_ne_zero (Nat.ne_of_gt (Nat.zero_lt_of_lt hn))
    rw [List.all_cons, Bool.and_eq_true] at hws
    rw [advanceLoop, bind_of_ok (fgetc_pos h)]
    simp only [hws.1]
    exact ih hws.2 (suffix_of_cons h) (Nat.lt_of_succ_lt_succ hn)

theorem advance_pos (hws : ws.all isspace) (hc : isspace c = false)
    (h : ws ++ c :: rest <:+ text) :
    advance (pos text (ws ++ c :: rest)) = .ok (c, pos text rest) := by
  rw [advance, bind_of_ok (show reads Stream.after _ = .ok (_, _) from rfl)]
  refine advanceLoop_pos hws hc h ?_
  rw [pos, List.length_append]
  omega

theorem advance_end (hws : ws.all isspace) (h : ws <:+ text) :
    advance (pos text ws) = .ok ('\x00', ended text) := by
  rw [advance, bind_of_ok (show reads Stream.after _ = .ok (_, _) from rfl)]
  exact advanceLoop_end hws h (by simp [pos])

theorem advance_ended : advance (ended text) = .ok ('\x00', ended text) := rfl

theorem peek_pos (hws : ws.all isspace) (hc : isspace c = false) (h : ws ++ c :: rest <:+ text) :
    peek (pos text (ws ++ c :: rest)) = .ok (c, pos text (c :: rest)) := by
  rw [peek, bind_of_ok (advance_pos hws hc h), bind_of_ok (rewindOne_pos (suffix_of_append h))]
  rfl

theorem peek_end (hws : ws.all isspace) (h : ws <:+ text) (hlast : text.getLast? = some last) :
    peek (pos text ws) = .ok ('\x00', pos text [last]) := by
  rw [peek, bind_of_ok (advance_end hws h), bind_of_ok (rewindOne_ended hlast)]
  rfl

theorem advanceUntilSeparatorLoop_step (hspace : isspace c = false)
    (hop : isOperator c = false ∨ result = []) (hlen : result.length ≤ maxKeywordLength)
    (h : c :: rest <:+ text) : advanceUntilSeparatorLoop (n + 1) result (pos text (c :: rest)) =
      advanceUntilSeparatorLoop n (result ++ [c]) (pos text rest) := by
  have hnot : ¬ (isOperator c = true ∧ 0 < result.length) := by
    rintro ⟨hc, hpos⟩
    rcases hop with hop | rfl
    · rw [hop] at hc
      cases hc
    · exact absurd hpos (Nat.lt_irrefl 0)
  rw [advanceUntilSeparatorLoop, bind_of_ok (fgetc_pos h)]
  simp only [hspace, if_neg hnot, if_pos hlen]
  rfl

theorem advanceUntilSeparatorLoop_space (hspace : isspace c) (h : c :: rest <:+ text) :
    advanceUntilSeparatorLoop (n + 1) result (pos text (c :: rest)) =
      terminate result (pos text rest) := by
  have hop : isOperator c = false := by
    simp only [isspace, List.mem_cons, List.not_mem_nil, or_false, decide_eq_true_eq] at hspace
    rcases hspace with rfl | rfl | rfl | rfl | rfl | rfl <;> rfl
  rw [advanceUntilSeparatorLoop, bind_of_ok (fgetc_pos h)]
  simp only [hspace, hop]
  rfl

theorem advanceUntilSeparatorLoop_operator (hop : isOperator c) (hne : result ≠ [])
    (h : c :: rest <:+ text) : advanceUntilSeparatorLoop (n + 1) result (pos text (c :: rest)) =
      terminate result (pos text (c :: rest)) := by
  rw [advanceUntilSeparatorLoop, bind_of_ok (fgetc_pos h)]
  simp only [hop, List.length_pos_iff.mpr hne, and_self, if_true]
  rw [bind_of_ok (rewindOne_pos h)]

theorem advanceUntilSeparatorLoop_end :
    advanceUntilSeparatorLoop (n + 1) result (pos text []) = .ok (none, ended text) := by
  rw [advanceUntilSeparatorLoop, bind_of_ok fgetc_end]
  rfl

theorem advanceUntilSeparator_ended :
    advanceUntilSeparator (ended text) = .ok (none, ended text) := rfl

theorem advanceUntilSeparator_pos : advanceUntilSeparator (pos text rest) =
    advanceUntilSeparatorLoop (rest.length + 1) [] (pos text rest) := rfl

end CS24.TeenyBasic
