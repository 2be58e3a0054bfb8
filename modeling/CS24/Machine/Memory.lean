import Mathlib

/-!
# Byte-addressed memory with little-endian words

A memory is a total map from addresses to bytes. Words are read and written
byte by byte in little-endian order; a word of `n` bytes is a natural number,
and a store keeps its value modulo `256 ^ n`. Block copies and fills are the
pointwise functions. Every framing fact is phrased with plain inequalities
between addresses, so that callers discharge it by linear arithmetic.
-/

namespace CS24.Machine

abbrev Mem := Nat → UInt8

namespace Mem

def load (m : Mem) (a : Nat) : Nat → Nat
  | 0 => 0
  | n + 1 => (m a).toNat + 256 * load m (a + 1) n

def store (m : Mem) (a : Nat) : Nat → Nat → Mem
  | 0, _ => m
  | n + 1, v => store (Function.update m a (UInt8.ofNat v)) (a + 1) n (v / 256)

def copy (m : Mem) (dst src n : Nat) : Mem :=
  fun x => if dst ≤ x ∧ x < dst + n then m (src + (x - dst)) else m x

def fill (m : Mem) (dst : Nat) (byte : UInt8) (n : Nat) : Mem :=
  fun x => if dst ≤ x ∧ x < dst + n then byte else m x

def write (m : Mem) (dst : Nat) (bytes : List UInt8) : Mem :=
  fun x => if dst ≤ x ∧ x < dst + bytes.length then bytes.getD (x - dst) 0 else m x

/-- The two memories hold the same bytes at the addresses of `[lo, hi)`. -/
def Agree (m m' : Mem) (lo hi : Nat) : Prop := ∀ x, lo ≤ x → x < hi → m' x = m x

variable {m m' m'' : Mem} {a b n k v x lo hi : Nat}

theorem Agree.refl : Agree m m lo hi := fun _ _ _ => rfl

theorem Agree.symm (h : Agree m m' lo hi) : Agree m' m lo hi :=
  fun x h₁ h₂ => (h x h₁ h₂).symm

theorem Agree.trans (h : Agree m m' lo hi) (h' : Agree m' m'' lo hi) : Agree m m'' lo hi :=
  fun x h₁ h₂ => (h' x h₁ h₂).trans (h x h₁ h₂)

theorem Agree.mono (h : Agree m m' lo hi) (h₁ : lo ≤ a) (h₂ : b ≤ hi) : Agree m m' a b :=
  fun x hx hx' => h x (h₁.trans hx) (hx'.trans_le h₂)

theorem load_congr (h : Agree m m' a (a + n)) : load m' a n = load m a n := by
  induction n generalizing a with
  | zero => rfl
  | succ n ih =>
    have h0 := h a le_rfl (by omega)
    have ht := ih (a := a + 1) (h.mono (by omega) (by omega))
    simp only [load, h0, ht]

theorem load_shift (h : ∀ x < n, m' (b + x) = m (a + x)) : load m' b n = load m a n := by
  induction n generalizing a b with
  | zero => rfl
  | succ n ih =>
    have h0 := h 0 (by omega)
    have ht := ih (a := a + 1) (b := b + 1) fun x hx => by
      have hx' := h (x + 1) (by omega)
      rwa [Nat.add_comm x 1, ← Nat.add_assoc, ← Nat.add_assoc] at hx'
    simp only [Nat.add_zero] at h0
    simp only [load, h0, ht]

theorem load_lt (m : Mem) (a n : Nat) : load m a n < 256 ^ n := by
  induction n generalizing a with
  | zero => simp [load]
  | succ n ih =>
    have h0 := (m a).toNat_lt
    have ht := ih (a + 1)
    rw [load, pow_succ]
    omega

theorem store_outside (h : x < a ∨ a + n ≤ x) : store m a n v x = m x := by
  induction n generalizing m a v with
  | zero => rfl
  | succ n ih =>
    rw [store, ih (by omega), Function.update_of_ne (by omega)]

theorem agree_store (h : hi ≤ a ∨ a + n ≤ lo) : Agree m (store m a n v) lo hi :=
  fun x h₁ h₂ => store_outside (by omega)

theorem agree_copy (h : hi ≤ a ∨ a + n ≤ lo) : Agree m (copy m a b n) lo hi := by
  intro x h₁ h₂
  rw [copy, if_neg (by omega)]

theorem agree_fill {byte : UInt8} (h : hi ≤ a ∨ a + n ≤ lo) : Agree m (fill m a byte n) lo hi := by
  intro x h₁ h₂
  rw [fill, if_neg (by omega)]

/-- Only the `n` bytes at `a` may differ between the two memories. -/
def ChangesOnly (m m' : Mem) (a n : Nat) : Prop := ∀ x, x < a ∨ a + n ≤ x → m' x = m x

theorem ChangesOnly.agree (h : ChangesOnly m m' a n) (hd : hi ≤ a ∨ a + n ≤ lo) :
    Agree m m' lo hi :=
  fun x h₁ h₂ => h x (by omega)

theorem ChangesOnly.trans (h : ChangesOnly m m' a n) (h' : ChangesOnly m' m'' a n) :
    ChangesOnly m m'' a n :=
  fun x hx => (h' x hx).trans (h x hx)

theorem ChangesOnly.mono (h : ChangesOnly m m' a n) (h₁ : b ≤ a) (h₂ : a + n ≤ b + k) :
    ChangesOnly m m' b k :=
  fun x hx => h x (by omega)

theorem changesOnly_store (m : Mem) (a n v : Nat) : ChangesOnly m (store m a n v) a n :=
  fun _ h => store_outside h

theorem changesOnly_copy (m : Mem) (a b n : Nat) : ChangesOnly m (copy m a b n) a n :=
  fun x h => by rw [copy, if_neg (by omega)]

theorem changesOnly_fill (m : Mem) (a : Nat) (byte : UInt8) (n : Nat) :
    ChangesOnly m (fill m a byte n) a n :=
  fun x h => by rw [fill, if_neg (by omega)]

theorem changesOnly_write (m : Mem) (a : Nat) (bytes : List UInt8) :
    ChangesOnly m (write m a bytes) a bytes.length :=
  fun x h => by rw [write, if_neg (by omega)]

theorem copy_inside (h : x < n) : copy m a b n (a + x) = m (b + x) := by
  rw [copy, if_pos (by omega), Nat.add_sub_cancel_left]

theorem load_store_same (m : Mem) (a n v : Nat) : load (store m a n v) a n = v % 256 ^ n := by
  induction n generalizing m a v with
  | zero => simp [load, Nat.mod_one]
  | succ n ih =>
    have hfirst : store m a (n + 1) v a = UInt8.ofNat v := by
      rw [store, store_outside (by omega), Function.update_self]
    have hbyte : (UInt8.ofNat v).toNat = v % 256 := UInt8.toNat_ofNat'
    rw [load, hfirst, store, ih, hbyte, pow_succ' 256 n, Nat.mod_mul]

theorem load_store_of_lt (h : v < 256 ^ n) : load (store m a n v) a n = v := by
  rw [load_store_same, Nat.mod_eq_of_lt h]

theorem load_store_disjoint (h : a + n ≤ b ∨ b + k ≤ a) :
    load (store m b k v) a n = load m a n :=
  load_congr (agree_store h)

theorem store_congr_at (h : m' x = m x ∨ a ≤ x ∧ x < a + n) :
    store m' a n v x = store m a n v x := by
  induction n generalizing m m' a v with
  | zero => exact h.resolve_right (by omega)
  | succ n ih =>
    rw [store, store]
    apply ih
    by_cases hx : x = a
    · left
      rw [hx, Function.update_self, Function.update_self]
    · rw [Function.update_of_ne hx, Function.update_of_ne hx]
      exact h.imp_right fun hr => by omega

theorem fill_congr_at {byte : UInt8} (h : m' x = m x ∨ a ≤ x ∧ x < a + n) :
    fill m' a byte n x = fill m a byte n x := by
  unfold fill
  split_ifs with hx
  · rfl
  · exact h.resolve_right hx

theorem write_congr_at {bytes : List UInt8} (h : m' x = m x ∨ a ≤ x ∧ x < a + bytes.length) :
    write m' a bytes x = write m a bytes x := by
  unfold write
  split_ifs with hx
  · rfl
  · exact h.resolve_right hx

theorem copy_congr_at (hin : a ≤ x → x < a + n → m' (b + (x - a)) = m (b + (x - a)))
    (hout : ¬ (a ≤ x ∧ x < a + n) → m' x = m x) : copy m' a b n x = copy m a b n x := by
  unfold copy
  split_ifs with hx
  · exact hin hx.1 hx.2
  · exact hout hx

def load64 (m : Mem) (a : Nat) : Nat := load m a 8
def store64 (m : Mem) (a v : Nat) : Mem := store m a 8 v
def load32 (m : Mem) (a : Nat) : Nat := load m a 4
def store32 (m : Mem) (a v : Nat) : Mem := store m a 4 v

theorem load64_congr (h : Agree m m' a (a + 8)) : load64 m' a = load64 m a := load_congr h

theorem load32_congr (h : Agree m m' a (a + 4)) : load32 m' a = load32 m a := load_congr h

theorem load64_lt (m : Mem) (a : Nat) : load64 m a < 2 ^ 64 := load_lt m a 8

theorem load64_store64_same (h : v < 2 ^ 64) : load64 (store64 m a v) a = v :=
  load_store_of_lt h

theorem load32_store32_same (h : v < 2 ^ 32) : load32 (store32 m a v) a = v :=
  load_store_of_lt h

theorem agree_store64 (h : hi ≤ a ∨ a + 8 ≤ lo) : Agree m (store64 m a v) lo hi := agree_store h

theorem changesOnly_store64 (m : Mem) (a v : Nat) : ChangesOnly m (store64 m a v) a 8 :=
  changesOnly_store m a 8 v

theorem changesOnly_store32 (m : Mem) (a v : Nat) : ChangesOnly m (store32 m a v) a 4 :=
  changesOnly_store m a 4 v

theorem load64_store64_ne (h : a + 8 ≤ b ∨ b + 8 ≤ a) :
    load64 (store64 m b v) a = load64 m a :=
  load_store_disjoint h

theorem store64_congr_at (h : m' x = m x ∨ a ≤ x ∧ x < a + 8) :
    store64 m' a v x = store64 m a v x := store_congr_at h

-- unifying two loads must compare their addresses, not run the byte loop
attribute [irreducible] load store load64 store64 load32 store32

end Mem
end CS24.Machine
