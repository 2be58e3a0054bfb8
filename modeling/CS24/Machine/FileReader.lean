import Mathlib

/-!
# Reading a binary file

A reader looks at the bytes of a file from a position, which it moves; `fseek` may move it
anywhere. A reader decodes bytes to a value when, wherever these bytes stand in a file, it
returns the value from their start and stops at their end. This composes along sequences
and loops, and a part that says how long it is may be left early.
-/

namespace CS24.Machine

abbrev FileReader (ε : Type) := ReaderT (List UInt8) (StateT Nat (Except ε))

variable {ε α β σ : Type} {c c' : FileReader ε α} {f : α → FileReader ε β}
  {bytes bytes' rest : List UInt8} {a : α} {b : β} {m n : Nat}

/-- The byte at the position, or `EOF`. -/
def fgetc : FileReader ε (Option UInt8) := fun file position =>
  match file[position]? with
  | some b => .ok (some b, position + 1)
  | none => .ok (none, position)

/-- At most `n` bytes, fewer at the end of the file. -/
def fread (n : Nat) : FileReader ε (List UInt8) := fun file position =>
  let bytes := (file.drop position).take n
  .ok (bytes, position + bytes.length)

def ftell : FileReader ε Nat := fun _ position => .ok (position, position)

/-- `SEEK_SET` -/
def fseek (position : Nat) : FileReader ε Unit := fun _ _ => .ok ((), position)

/-- `n` turns of a loop with the body `c`. -/
def loop (c : σ → FileReader ε σ) : Nat → σ → FileReader ε σ
  | 0, s => pure s
  | n + 1, s => c s >>= loop c n

/-- The values that `n` turns of a loop store one after the other. -/
def times (c : FileReader ε α) : Nat → FileReader ε (List α)
  | 0 => pure []
  | n + 1 => do
    let x ← c
    let xs ← times c n
    return x :: xs

def Decodes (c : FileReader ε α) (bytes : List UInt8) (a : α) : Prop :=
  ∀ before after, c (before ++ bytes ++ after) before.length =
    .ok (a, before.length + bytes.length)

theorem reader_bind (c : FileReader ε α) (f : α → FileReader ε β) (file : List UInt8)
    (position : Nat) : (c >>= f) file position = match c file position with
      | .ok (a, position) => f a file position
      | .error e => .error e := by
  change Except.bind (c file position) _ = _
  cases c file position with
  | ok p => rfl
  | error e => rfl

namespace Decodes

theorem pure (a : α) : Decodes (Pure.pure a : FileReader ε α) [] a := by
  intro before after
  rfl

theorem bind (h : Decodes c bytes a) (hf : Decodes (f a) bytes' b) :
    Decodes (c >>= f) (bytes ++ bytes') b := by
  intro before after
  have hc := h before (bytes' ++ after)
  have hrest := hf (before ++ bytes) after
  rw [reader_bind]
  simp only [List.append_assoc, List.length_append] at hc hrest ⊢
  rw [hc]
  simp only [hrest, Nat.add_assoc]

theorem nil_bind (h : Decodes c [] a) (hf : Decodes (f a) bytes b) :
    Decodes (c >>= f) bytes b := h.bind hf

theorem bind_nil (h : Decodes c bytes a) (hf : Decodes (f a) [] b) :
    Decodes (c >>= f) bytes b := by
  have hbind := h.bind hf
  rwa [List.append_nil] at hbind

theorem bind_pure {g : α → β} (h : Decodes c bytes a) :
    Decodes (c >>= fun a => Pure.pure (g a)) bytes (g a) := h.bind_nil (pure (g a))

theorem start (h : Decodes c bytes a) (after : List UInt8) :
    c (bytes ++ after) 0 = .ok (a, bytes.length) := by
  have hc := h [] after
  rwa [List.nil_append, List.length_nil, Nat.zero_add] at hc

theorem fgetc (b : UInt8) : Decodes (fgetc : FileReader ε (Option UInt8)) [b] (some b) := by
  intro before after
  have hget : (before ++ [b] ++ after)[before.length]? = some b := by simp
  rw [Machine.fgetc, hget]
  rfl

theorem fread (bytes : List UInt8) :
    Decodes (fread bytes.length : FileReader ε (List UInt8)) bytes bytes := by
  intro before after
  have htake : ((before ++ bytes ++ after).drop before.length).take bytes.length = bytes := by
    simp
  simp only [Machine.fread, htake]

theorem skip (h : Decodes c bytes a) (hn : n = (bytes ++ rest).length) :
    Decodes (do
      let start ← ftell
      let a ← c
      fseek (start + n)
      return a) (bytes ++ rest) a := by
  intro before after
  have hc := h before (rest ++ after)
  simp only [List.append_assoc] at hc ⊢
  rw [reader_bind, ftell]
  dsimp only
  rw [reader_bind, hc]
  dsimp only
  rw [reader_bind, fseek]
  dsimp only
  rw [hn]
  rfl

theorem skip_all (h : Decodes c [] a) :
    Decodes (do
      let start ← ftell
      let a ← c
      fseek (start + bytes.length)
      return a) bytes a := skip h rfl

section
variable {body : σ → FileReader ε σ} {s s' s'' : σ} {ι : Type} {encode : ι → List UInt8}

theorem loop_nil (s : σ) : Decodes (loop body 0 s) [] s := pure s

theorem loop_cons (h : Decodes (body s) bytes s') (hrest : Decodes (loop body n s') bytes' s'') :
    Decodes (loop body (n + 1) s) (bytes ++ bytes') s'' := h.bind hrest

theorem loop_append (h : Decodes (loop body m s) bytes s')
    (hrest : Decodes (loop body n s') bytes' s'') :
    Decodes (loop body (m + n) s) (bytes ++ bytes') s'' := by
  have hsplit : ∀ s, loop body (m + n) s = loop body m s >>= loop body n := by
    clear h
    induction m with
    | zero =>
      intro s
      rw [Nat.zero_add, loop, pure_bind]
    | succ m ih =>
      intro s
      rw [Nat.succ_add, loop, loop, bind_assoc]
      exact congrArg _ (funext ih)
  rw [hsplit]
  exact h.bind hrest

theorem loop_skip (xs : List ι) (h : ∀ x ∈ xs, Decodes (body s) (encode x) s) :
    Decodes (loop body xs.length s) (xs.flatMap encode) s := by
  induction xs with
  | nil => exact loop_nil s
  | cons x xs ih =>
    apply loop_cons (h x List.mem_cons_self)
    exact ih fun y hy => h y (List.mem_cons_of_mem x hy)

theorem times (xs : List ι) (g : ι → α) (h : ∀ x ∈ xs, Decodes c (encode x) (g x)) :
    Decodes (times c xs.length) (xs.flatMap encode) (xs.map g) := by
  induction xs with
  | nil => exact pure []
  | cons x xs ih =>
    apply (h x List.mem_cons_self).bind
    apply bind_pure (g := (g x :: ·))
    exact ih fun y hy => h y (List.mem_cons_of_mem x hy)

end

end Decodes

end CS24.Machine
