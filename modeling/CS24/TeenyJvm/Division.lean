import CS24.TeenyJvm.Execute

/-!
# Division

`idiv` and `irem` divide with the operators of C, which trap where the quotient is out of
range. The JVM reduces it to 32 bits instead. The quotient is out of range for one pair.
-/

namespace CS24.TeenyJvm

variable {cls : ClassFile} {f : Frame Int32} {a b v : Int32} {stack output : List Int32}
  {callers : List (Frame Int32)}

/-- The quotient truncated toward zero and reduced to 32 bits. -/
def quotient (a b : Int32) : Int32 := Int32.ofInt (a.toInt.tdiv b.toInt)

/-- What the quotient times `b` leaves of `a`, in 32 bits. -/
def remainder (a b : Int32) : Int32 := a - quotient a b * b

theorem quotient_eq (a b : Int32) : quotient a b = a / b := by
  apply Int32.toInt.inj
  rw [quotient, Int32.toInt_ofInt, Int32.toInt_div]

theorem remainder_eq (a b : Int32) : remainder a b = a % b := by
  have hmod : a.toInt - a.toInt.tdiv b.toInt * b.toInt = (a % b).toInt := by
    rw [Int32.toInt_mod, Int.tmod_def, Int.mul_comm]
  apply Int32.toInt.inj
  rw [remainder, quotient_eq, Int32.toInt_sub, Int32.toInt_mul, Int32.toInt_div,
    Int.bmod_mul_bmod, Int.sub_bmod_bmod, hmod]
  exact Int32.toInt_bmod _

/-- The pair whose quotient is out of range. -/
def OutOfRange (a b : Int32) : Prop := a = Int32.minValue ∧ b = -1

instance (a b : Int32) : Decidable (OutOfRange a b) := inferInstanceAs (Decidable (_ ∧ _))

theorem divide_eq_some_iff (hb : b ≠ 0) : divide a b = some (quotient a b) ↔ ¬OutOfRange a b := by
  unfold divide
  split_ifs with h
  · have hrange : OutOfRange a b := h.resolve_left hb
    simp [hrange]
  · have hrange : ¬OutOfRange a b := fun hab => h (.inr hab)
    rw [quotient_eq]
    simp [hrange]

theorem remain_eq_some_iff (hb : b ≠ 0) : remain a b = some (remainder a b) ↔ ¬OutOfRange a b := by
  unfold remain
  split_ifs with h
  · have hrange : OutOfRange a b := h.resolve_left hb
    simp [hrange]
  · have hrange : ¬OutOfRange a b := fun hab => h (.inr hab)
    rw [remainder_eq]
    simp [hrange]

/-- The frame behind a division, whose result is on the stack. -/
def Frame.divided (f : Frame Int32) (stack : List Int32) (v : Int32) : Frame Int32 :=
  { f.skip 1 with stack := v :: stack }

theorem Frame.divided_injective : Function.Injective (f.divided stack) := fun v w h => by
  have hstack : v :: stack = w :: stack := congrArg Frame.stack h
  exact (List.cons.inj hstack).1

theorem switch_arith {op : JvmInstruction} {g : Int32 → Int32 → Option Int32}
    (hop : op = .idiv ∧ g = divide ∨ op = .irem ∧ g = remain)
    (hstack : f.stack = b :: a :: stack) :
    switch cls f op.opcode = (g a b).map fun v => .next { f with stack := v :: stack } := by
  obtain ⟨method, pc, _, locals⟩ := f
  obtain rfl : _ = _ := hstack
  rcases hop with ⟨rfl, rfl⟩ | ⟨rfl, rfl⟩
  · change (divide a b).bind _ = _
    cases divide a b <;> rfl
  · change (remain a b).bind _ = _
    cases remain a b <;> rfl

theorem execute_arith {op : JvmInstruction} {g : Int32 → Int32 → Option Int32}
    (hop : op = .idiv ∧ g = divide ∨ op = .irem ∧ g = remain)
    (hbyte : f.byte 0 = some op.opcode) (hstack : f.stack = b :: a :: stack) :
    execute cls (.running f callers output) =
      (g a b).map fun v => .running (f.divided stack v) callers output := by
  have hexecute : execute cls (.running f callers output) =
      (switch cls f op.opcode).bind (Outcome.finish callers output) := by
    change (f.byte 0).bind _ = _
    rw [hbyte]
    rcases hop with ⟨rfl, -⟩ | ⟨rfl, -⟩
    · rfl
    · rfl
  rw [hexecute, switch_arith hop hstack]
  cases g a b <;> rfl

theorem execute_arith_iff {op : JvmInstruction} {g : Int32 → Int32 → Option Int32}
    (hop : op = .idiv ∧ g = divide ∨ op = .irem ∧ g = remain)
    (hbyte : f.byte 0 = some op.opcode) (hstack : f.stack = b :: a :: stack) :
    execute cls (.running f callers output) = some (.running (f.divided stack v) callers output) ↔
      g a b = some v := by
  rw [execute_arith hop hbyte hstack, Option.map_eq_some_iff]
  constructor
  · rintro ⟨w, hw, hstate⟩
    have hframe : f.divided stack w = f.divided stack v := (State.running.inj hstate).1
    rw [hw, Frame.divided_injective hframe]
  · intro hv
    exact ⟨v, hv, rfl⟩

/-- A division completes with the result of the JVM unless the quotient is out of range. -/
theorem division_follows_jvm (cls : ClassFile) (callers : List (Frame Int32))
    (output : List Int32) (hstack : f.stack = b :: a :: stack) (hb : b ≠ 0) :
    (f.byte 0 = some JvmInstruction.idiv.opcode →
      (execute cls (.running f callers output) =
        some (.running (f.divided stack (quotient a b)) callers output) ↔ ¬OutOfRange a b)) ∧
    (f.byte 0 = some JvmInstruction.irem.opcode →
      (execute cls (.running f callers output) =
        some (.running (f.divided stack (remainder a b)) callers output) ↔ ¬OutOfRange a b)) := by
  constructor
  · intro hbyte
    rw [execute_arith_iff (.inl ⟨rfl, rfl⟩) hbyte hstack]
    exact divide_eq_some_iff hb
  · intro hbyte
    rw [execute_arith_iff (.inr ⟨rfl, rfl⟩) hbyte hstack]
    exact remain_eq_some_iff hb

def divisionFrame (op : JvmInstruction) (a b : Int32) : Frame Int32 where
  method := { name := "f", descriptor := "()I", maxStack := 2, maxLocals := 0, code := [op.opcode] }
  pc := 0
  stack := [b, a]
  locals := []

theorem division_follows_jvm_negative :
    (∀ cls, execute cls (.running (divisionFrame .idiv (-7) 2) [] []) =
      some (.running ((divisionFrame .idiv (-7) 2).divided [] (-3)) [] [])) ∧
    ∀ cls, execute cls (.running (divisionFrame .irem (-7) 2) [] []) =
      some (.running ((divisionFrame .irem (-7) 2).divided [] (-1)) [] []) := by
  constructor
  · intro cls
    exact ((division_follows_jvm (f := divisionFrame .idiv (-7) 2) cls [] [] rfl
      (by decide)).1 rfl).mpr (by decide)
  · intro cls
    exact ((division_follows_jvm (f := divisionFrame .irem (-7) 2) cls [] [] rfl
      (by decide)).2 rfl).mpr (by decide)

/-- The least int divided by -1 traps. -/
theorem division_traps : ¬ ∀ (f : Frame Int32) (a b : Int32) (stack : List Int32),
    f.stack = b :: a :: stack → b ≠ 0 → f.byte 0 = some JvmInstruction.idiv.opcode →
      execute ⟨[], []⟩ (.running f [] []) =
        some (.running (f.divided stack (quotient a b)) [] []) := by
  intro h
  have hrun := h (divisionFrame .idiv Int32.minValue (-1)) Int32.minValue (-1) [] rfl
    (by decide) rfl
  rw [execute_arith (.inl ⟨rfl, rfl⟩) rfl rfl] at hrun
  cases hrun

end CS24.TeenyJvm
