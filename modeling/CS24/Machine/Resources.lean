import Mathlib

/-!
# Resources of a run

A run acquires, uses and releases resources. It is disciplined if it uses and releases only
what it holds and acquires nothing a second time. Such a run releases a resource as often as
it acquires it, except for what it held at the start or holds in the end.
-/

namespace CS24.Machine

universe u

inductive Usage (ρ : Type u) where
  | acquire (r : ρ)
  | use (r : ρ)
  | release (r : ρ)
  deriving DecidableEq

variable {ρ : Type u} [DecidableEq ρ] {held : Finset ρ} {a : Usage ρ} {r : ρ}

/-- What is held after one usage. -/
def Usage.next (held : Finset ρ) : Usage ρ → Finset ρ
  | .acquire r => insert r held
  | .use _ => held
  | .release r => held.erase r

def Usage.Legal (held : Finset ρ) : Usage ρ → Prop
  | .acquire r => r ∉ held
  | .use r => r ∈ held
  | .release r => r ∈ held

instance decidableLegal (held : Finset ρ) (a : Usage ρ) : Decidable (a.Legal held) :=
  match a with
  | .acquire r => inferInstanceAs (Decidable (r ∉ held))
  | .use r => inferInstanceAs (Decidable (r ∈ held))
  | .release r => inferInstanceAs (Decidable (r ∈ held))

def heldAfter (held : Finset ρ) (usages : List (Usage ρ)) : Finset ρ :=
  usages.foldl Usage.next held

def Disciplined (held : Finset ρ) : List (Usage ρ) → Prop
  | [] => True
  | a :: usages => a.Legal held ∧ Disciplined (a.next held) usages

theorem heldAfter_append (held : Finset ρ) (as bs : List (Usage ρ)) :
    heldAfter held (as ++ bs) = heldAfter (heldAfter held as) bs := List.foldl_append ..

theorem disciplined_append {as bs : List (Usage ρ)} :
    Disciplined held (as ++ bs) ↔ Disciplined held as ∧ Disciplined (heldAfter held as) bs := by
  induction as generalizing held with
  | nil => simp [Disciplined, heldAfter]
  | cons a as ih =>
    rw [List.cons_append, Disciplined, Disciplined, ih, and_assoc]
    rfl

theorem Usage.Legal.counts (h : a.Legal held) (r : ρ) :
    (if r ∈ held then 1 else 0) + List.count (.acquire r) [a] =
      (if r ∈ a.next held then 1 else 0) + List.count (.release r) [a] := by
  cases a with
  | acquire q =>
    by_cases hq : q = r
    · subst hq
      simp [Usage.next, show q ∉ held from h]
    · have hmem : r ∈ insert q held ↔ r ∈ held := by
        rw [Finset.mem_insert, or_iff_right (Ne.symm hq)]
      simp [Usage.next, hq, hmem]
  | use q => rfl
  | release q =>
    by_cases hq : q = r
    · subst hq
      simp [Usage.next, show q ∈ held from h]
    · have hmem : r ∈ held.erase q ↔ r ∈ held := by
        rw [Finset.mem_erase, and_iff_right (Ne.symm hq)]
      simp [Usage.next, hq, hmem]

theorem Disciplined.counts {usages : List (Usage ρ)} (h : Disciplined held usages) (r : ρ) :
    (if r ∈ held then 1 else 0) + usages.count (.acquire r) =
      (if r ∈ heldAfter held usages then 1 else 0) + usages.count (.release r) := by
  induction usages generalizing held with
  | nil => rfl
  | cons a usages ih =>
    obtain ⟨hlegal, hrest⟩ := h
    have hone := hlegal.counts r
    have hmany := ih hrest
    have hsplit : a :: usages = [a] ++ usages := rfl
    have hheld : heldAfter held (a :: usages) = heldAfter (a.next held) usages := rfl
    rw [hheld, hsplit, List.count_append, List.count_append]
    omega

end CS24.Machine
