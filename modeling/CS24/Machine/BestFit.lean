import Mathlib

/-!
# Best fit

The first among the smallest elements of a list that are at least as large as a request.
A scan from the front keeps its candidate when the next element is not smaller.
-/

namespace CS24.Machine

variable {α β : Type*} [LinearOrder β] {size : α → β} {request : β} {before after l : List α}
  {b c : α}

def NoFit (size : α → β) (request : β) (l : List α) : Prop := ∀ c ∈ l, size c < request

/-- Of the elements `before`, `b` and `after`, in this order, `b` is the best fit. -/
structure BestFit (size : α → β) (request : β) (before : List α) (b : α) (after : List α) :
    Prop where
  fits : request ≤ size b
  first : ∀ c ∈ before, request ≤ size c → size b < size c
  least : ∀ c ∈ after, request ≤ size c → size b ≤ size c

theorem NoFit.snoc (h : NoFit size request l) (hc : size c < request) :
    NoFit size request (l ++ [c]) := by
  intro d hd
  rcases List.mem_append.mp hd with hd | hd
  · exact h d hd
  · rw [List.mem_singleton.mp hd]
    exact hc

theorem NoFit.first (h : NoFit size request l) (hc : request ≤ size c) :
    BestFit size request l c [] where
  fits := hc
  first d hd hle := absurd (h d hd) (not_lt.mpr hle)
  least := by simp

namespace BestFit

theorem keep (h : BestFit size request before b after) (hc : request ≤ size c → size b ≤ size c) :
    BestFit size request before b (after ++ [c]) where
  fits := h.fits
  first := h.first
  least d hd hle := by
    rcases List.mem_append.mp hd with hd | hd
    · exact h.least d hd hle
    · rw [List.mem_singleton.mp hd] at hle ⊢
      exact hc hle

theorem replace (h : BestFit size request before b after) (hc : request ≤ size c)
    (hlt : size c < size b) : BestFit size request (before ++ b :: after) c [] where
  fits := hc
  first d hd hle := by
    rcases List.mem_append.mp hd with hd | hd
    · exact hlt.trans (h.first d hd hle)
    · rcases List.mem_cons.mp hd with rfl | hd
      · exact hlt
      · exact hlt.trans_le (h.least d hd hle)
  least := by simp

end BestFit

end CS24.Machine
