import Mathlib

/-!
# Filtering the votes of noisy trials

`guess_accessed_page` of `meltdown.c`. A trial is the predicate that tells at which pages the
ratio of the two timings is below `MIN_RATIO`. A hit is counted at once and taken back at the
second hit of the same trial, so only trials with one hit are votes.
-/

namespace CS24.Meltdown
open Finset

def maxChoice : Nat := 256
def TRIALS : Nat := 100

structure Votes where
  allFreq : Nat → Int
  previousHitIndex : Nat
  k : Int

def initVotes : Votes := ⟨fun _ => 0, 256, 0⟩

/-- The loop over the pages of one trial, with the variable `toggle`. -/
def readPages (hit : Nat → Bool) : List Nat → Bool → Votes → Votes
  | [], _, s => s
  | i :: pages, toggle, s =>
    if hit i then
      if !toggle then
        readPages hit pages true
          ⟨Function.update s.allFreq i (s.allFreq i + 1), i, s.k + 1⟩
      else
        { s with
          allFreq := Function.update s.allFreq s.previousHitIndex
            (s.allFreq s.previousHitIndex - 1)
          k := s.k - 1 }
    else readPages hit pages toggle s

def pages : List Nat := List.range' 1 (maxChoice - 1)

def trial (hit : Nat → Bool) (s : Votes) : Votes := readPages hit pages false s

/-- `(uint64_t)k < TRIALS` -/
def goesOn (s : Votes) : Bool := (s.k % 2 ^ 64).toNat < TRIALS

/-- The loop over the trials, from trial `t` on. -/
def voteLoop (trials : Nat → Nat → Bool) : Nat → Nat → Votes → Option Votes
  | 0, _, _ => none
  | fuel + 1, t, s =>
    if goesOn s then voteLoop trials fuel (t + 1) (trial (trials t) s) else some s

def popularFrom (allFreq : Nat → Int) (n : Nat) : Int × Int :=
  (List.range n).foldl
    (fun (maxFreq, maxIdx) i =>
      if allFreq i > maxFreq then (allFreq i, (i : Int)) else (maxFreq, maxIdx)) (0, -1)

/-- `guess_accessed_page`, for the given number of trials at most -/
def guessAccessedPage (trials : Nat → Nat → Bool) (fuel : Nat) : Option Int :=
  (voteLoop trials fuel 0 initVotes).map fun s => (popularFrom s.allFreq maxChoice).2

variable {hit : Nat → Bool} {trials : Nat → Nat → Bool} {s s' : Votes} {l : List Nat} {i n t : Nat}

/-- What a trial that counts at page `i` does. -/
def Votes.vote (s : Votes) (i : Nat) : Nat → Int := Function.update s.allFreq i (s.allFreq i + 1)

theorem readPages_toggled (hs : s.allFreq s.previousHitIndex = s'.allFreq s.previousHitIndex + 1)
    (hother : ∀ j ≠ s.previousHitIndex, s.allFreq j = s'.allFreq j) (hk : s.k = s'.k + 1) :
    if l.filter hit = [] then readPages hit l true s = s
    else (readPages hit l true s).allFreq = s'.allFreq ∧ (readPages hit l true s).k = s'.k := by
  induction l with
  | nil => rfl
  | cons i l ih =>
    rw [readPages]
    by_cases hi : hit i
    · rw [if_pos hi, List.filter_cons_of_pos hi, if_neg (List.cons_ne_nil _ _),
        if_neg (show ¬ (!true) = true by simp)]
      dsimp only
      refine ⟨funext fun j => ?_, ?_⟩
      · by_cases hj : j = s.previousHitIndex
        · rw [hj, Function.update_self, hs]
          ring
        · rw [Function.update_of_ne hj, hother j hj]
      · rw [hk]
        ring
    · rw [if_neg hi, List.filter_cons_of_neg (by simpa using hi)]
      exact ih

theorem readPages_spec (l : List Nat) :
    (∀ i, l.filter hit = [i] → (readPages hit l false s).allFreq = s.vote i ∧
      (readPages hit l false s).k = s.k + 1) ∧
    ((l.filter hit).length ≠ 1 → (readPages hit l false s).allFreq = s.allFreq ∧
      (readPages hit l false s).k = s.k) := by
  induction l with
  | nil => exact ⟨fun i hi => by simp at hi, fun _ => ⟨rfl, rfl⟩⟩
  | cons i l ih =>
    rw [readPages]
    by_cases hi : hit i
    · rw [if_pos hi, if_pos (by simp), List.filter_cons_of_pos hi]
      have hrest := @readPages_toggled hit ⟨s.vote i, i, s.k + 1⟩ s l (Function.update_self ..)
        (fun j hj => Function.update_of_ne hj ..) rfl
      split_ifs at hrest with hnil
      · rw [hnil]
        refine ⟨fun j hj => ?_, fun hne => absurd rfl hne⟩
        obtain rfl : i = j := by simpa using hj
        exact ⟨congrArg Votes.allFreq hrest, congrArg Votes.k hrest⟩
      · refine ⟨fun j hj => ?_, fun _ => hrest⟩
        exact absurd (by simpa using (List.cons.inj hj).2) hnil
    · rw [if_neg hi, List.filter_cons_of_neg (by simpa using hi)]
      exact ih

def hits (hit : Nat → Bool) : List Nat := pages.filter hit

/-- Of the first `n` trials, how many hit page `i` only. -/
def votesFor (trials : Nat → Nat → Bool) (n i : Nat) : Nat :=
  (List.range n).countP fun t => hits (trials t) = [i]

/-- Of the first `n` trials, how many have exactly one hit. -/
def singleHits (trials : Nat → Nat → Bool) (n : Nat) : Nat :=
  (List.range n).countP fun t => (hits (trials t)).length = 1

/-- The state at the start of trial `n`, if the loop comes that far. -/
def startOf (trials : Nat → Nat → Bool) : Nat → Option Votes
  | 0 => some initVotes
  | n + 1 => (startOf trials n).bind fun s =>
    if goesOn s then some (trial (trials n) s) else none

theorem votesFor_succ : votesFor trials (n + 1) i =
    votesFor trials n i + if hits (trials n) = [i] then 1 else 0 := by
  rw [votesFor, List.range_succ, List.countP_append, List.countP_singleton]
  simp [votesFor]

theorem singleHits_succ : singleHits trials (n + 1) =
    singleHits trials n + if (hits (trials n)).length = 1 then 1 else 0 := by
  rw [singleHits, List.range_succ, List.countP_append, List.countP_singleton]
  simp [singleHits]

/-- The counters are those of the trials before. -/
structure Counted (trials : Nat → Nat → Bool) (n : Nat) (s : Votes) : Prop where
  allFreq : ∀ i, s.allFreq i = votesFor trials n i
  k : s.k = singleHits trials n
  sum : s.k = ∑ i ∈ range maxChoice, s.allFreq i
  le : s.k ≤ TRIALS

theorem Counted.goesOn_iff (h : Counted trials n s) : goesOn s ↔ s.k < TRIALS := by
  have h0 : 0 ≤ s.k := by
    rw [h.k]
    exact Int.natCast_nonneg _
  have hle : s.k ≤ 100 := h.le
  rw [goesOn, decide_eq_true_eq, TRIALS]
  omega

theorem mem_hits (hi : hits hit = [i]) : i ∈ range maxChoice := by
  have hmem : i ∈ hits hit := hi ▸ List.mem_singleton_self i
  have hpage := (List.mem_filter.mp hmem).1
  rw [pages, List.mem_range'_1] at hpage
  exact mem_range.mpr (by simpa [maxChoice] using hpage.2)

theorem Counted.trial (h : Counted trials n s) (hs : goesOn s) :
    Counted trials (n + 1) (trial (trials n) s) := by
  have hlt : s.k < TRIALS := h.goesOn_iff.mp hs
  obtain ⟨hone, hnone⟩ := @readPages_spec (trials n) s pages
  by_cases hlength : (hits (trials n)).length = 1
  · obtain ⟨i, hi⟩ := List.length_eq_one_iff.mp hlength
    obtain ⟨hfreq, hk⟩ := hone i hi
    refine ⟨fun j => ?_, ?_, ?_, ?_⟩
    · rw [Meltdown.trial, hfreq, votesFor_succ, hi, Votes.vote]
      by_cases hj : j = i
      · rw [hj, Function.update_self, h.allFreq, if_pos rfl]
        push_cast
        rfl
      · have hij : ¬ [i] = [j] := fun hij => hj (List.singleton_inj.mp hij).symm
        rw [Function.update_of_ne hj, h.allFreq, if_neg hij, Nat.add_zero]
    · rw [Meltdown.trial, hk, h.k, singleHits_succ, if_pos hlength]
      push_cast
      rfl
    · rw [Meltdown.trial, hk, hfreq, Votes.vote, sum_update_of_mem (mem_hits hi), h.sum,
        sum_eq_add_sum_sdiff_singleton i s.allFreq fun hnot => absurd (mem_hits hi) hnot]
      ring
    · rw [Meltdown.trial, hk]
      omega
  · obtain ⟨hfreq, hk⟩ := hnone hlength
    refine ⟨fun j => ?_, ?_, ?_, ?_⟩
    · have hij : hits (trials n) ≠ [j] := fun hij => hlength (hij ▸ rfl)
      rw [Meltdown.trial, hfreq, h.allFreq, votesFor_succ, if_neg hij, Nat.add_zero]
    · rw [Meltdown.trial, hk, h.k, singleHits_succ, if_neg hlength, Nat.add_zero]
    · rw [Meltdown.trial, hk, hfreq, h.sum]
    · rw [Meltdown.trial, hk]
      exact h.le

theorem initVotes_counted : Counted trials 0 initVotes :=
  ⟨fun _ => rfl, rfl, by simp [initVotes], by simp [initVotes, TRIALS]⟩

theorem counted_of_start (h : startOf trials n = some s) : Counted trials n s := by
  induction n generalizing s with
  | zero =>
    obtain rfl : initVotes = s := Option.some.inj h
    exact initVotes_counted
  | succ n ih =>
    obtain ⟨s₀, hs₀, h⟩ := Option.bind_eq_some_iff.mp h
    split_ifs at h with hgo
    obtain rfl : trial (trials n) s₀ = s := Option.some.inj h
    exact (ih hs₀).trial hgo

/-- `i` is the smallest of the first `n` indices with the greatest count. -/
structure MostPopular (allFreq : Nat → Int) (n i : Nat) : Prop where
  lt : i < n
  greatest : ∀ j < n, allFreq j ≤ allFreq i
  smallest : ∀ j < i, allFreq j < allFreq i

theorem MostPopular.last {allFreq : Nat → Int} (h : ∀ j < n, allFreq j < allFreq n) :
    MostPopular allFreq (n + 1) n :=
  ⟨Nat.lt_succ_self n, Nat.forall_lt_succ_right.mpr ⟨fun j hj => (h j hj).le, le_rfl⟩, h⟩

theorem MostPopular.keep {allFreq : Nat → Int} (h : MostPopular allFreq n i)
    (hn : allFreq n ≤ allFreq i) : MostPopular allFreq (n + 1) i :=
  ⟨Nat.lt_succ_of_lt h.lt, Nat.forall_lt_succ_right.mpr ⟨h.greatest, hn⟩, h.smallest⟩

theorem popularFrom_spec (allFreq : Nat → Int) (n : Nat) :
    (popularFrom allFreq n = (0, -1) ∧ ∀ j < n, allFreq j ≤ 0) ∨
    ∃ i, popularFrom allFreq n = (allFreq i, (i : Int)) ∧ 0 < allFreq i ∧
      MostPopular allFreq n i := by
  induction n with
  | zero => exact .inl ⟨rfl, by simp⟩
  | succ n ih =>
    have hstep : popularFrom allFreq (n + 1) =
        if allFreq n > (popularFrom allFreq n).1 then (allFreq n, (n : Int))
        else popularFrom allFreq n := by
      rw [popularFrom, List.range_succ, List.foldl_append]
      rfl
    rw [hstep]
    rcases ih with ⟨hnone, hle⟩ | ⟨i, hsome, hpos, hi⟩
    · rw [hnone]
      split_ifs with hn
      · exact .inr ⟨n, rfl, hn, .last fun j hj => (hle j hj).trans_lt hn⟩
      · exact .inl ⟨rfl, Nat.forall_lt_succ_right.mpr ⟨hle, not_lt.mp hn⟩⟩
    · rw [hsome]
      split_ifs with hn
      · have hlast : ∀ j < n, allFreq j < allFreq n := fun j hj => (hi.greatest j hj).trans_lt hn
        exact .inr ⟨n, rfl, hpos.trans hn, .last hlast⟩
      · exact .inr ⟨i, rfl, hpos, hi.keep (not_lt.mp hn)⟩

theorem start_of_voteLoop {fuel : Nat} (h : startOf trials t = some s)
    (hloop : voteLoop trials fuel t s = some s') :
    ∃ n, startOf trials n = some s' ∧ goesOn s' = false := by
  induction fuel generalizing t s with
  | zero => cases hloop
  | succ fuel ih =>
    rw [voteLoop] at hloop
    split_ifs at hloop with hgo
    · refine ih (t := t + 1) ?_ hloop
      rw [startOf, h, Option.bind_some, if_pos hgo]
    · obtain rfl : s = s' := Option.some.inj hloop
      exact ⟨t, h, by simpa using hgo⟩

theorem start_or_ended (trials : Nat → Nat → Bool) (n : Nat) :
    (∃ s, startOf trials n = some s) ∨ ∃ fuel s, voteLoop trials fuel 0 initVotes = some s := by
  by_contra hnot
  obtain ⟨hstart, hended⟩ := not_or.mp hnot
  have hgoes : ∀ m fuel, ∃ s, startOf trials m = some s ∧
      voteLoop trials (m + fuel) 0 initVotes = voteLoop trials fuel m s := by
    intro m
    induction m with
    | zero => exact fun fuel => ⟨initVotes, rfl, by rw [Nat.zero_add]⟩
    | succ m ih =>
      intro fuel
      obtain ⟨s, hs, hloop⟩ := ih (fuel + 1)
      rw [voteLoop] at hloop
      split_ifs at hloop with hgo
      · refine ⟨trial (trials m) s, ?_, ?_⟩
        · rw [startOf, hs, Option.bind_some, if_pos hgo]
        · rw [Nat.add_right_comm, Nat.add_assoc]
          exact hloop
      · exact absurd ⟨_, s, hloop⟩ hended
  obtain ⟨s, hs, -⟩ := hgoes n 0
  exact hstart ⟨s, hs⟩

theorem Counted.ended (h : Counted trials n s) (hend : goesOn s = false) :
    singleHits trials n = TRIALS ∧ ∃ i : Nat, (popularFrom s.allFreq maxChoice).2 = i ∧
      MostPopular s.allFreq maxChoice i := by
  have hk : s.k = TRIALS := by
    refine le_antisymm h.le (not_lt.mp fun hlt => ?_)
    rw [h.goesOn_iff.mpr hlt] at hend
    cases hend
  refine ⟨by exact_mod_cast h.k.symm.trans hk, ?_⟩
  rcases popularFrom_spec s.allFreq maxChoice with ⟨-, hle⟩ | ⟨i, hi, -, hpopular⟩
  · have hsum : ∑ i ∈ range maxChoice, s.allFreq i ≤ 0 :=
      sum_nonpos fun i hi => hle i (mem_range.mp hi)
    rw [← h.sum, hk] at hsum
    exact absurd hsum (by decide)
  · exact ⟨i, by rw [hi], hpopular⟩

/-- At the start of every trial the counters are those of the trials with one hit before it;
the answer is the smallest page with the most of a hundred such trials, and it comes as soon
as there are that many. -/
theorem guess_by_single_hits (trials : Nat → Nat → Bool) :
    (∀ n s, startOf trials n = some s →
      (∀ i, s.allFreq i = votesFor trials n i) ∧ s.k = ∑ i ∈ range maxChoice, s.allFreq i ∧
      0 ≤ s.k ∧ s.k ≤ TRIALS) ∧
    (∀ fuel r, guessAccessedPage trials fuel = some r →
      ∃ n s, startOf trials n = some s ∧ singleHits trials n = TRIALS ∧
        ∃ i : Nat, r = i ∧ MostPopular s.allFreq maxChoice i) ∧
    ∀ n, singleHits trials n = TRIALS → ∃ fuel r, guessAccessedPage trials fuel = some r := by
  refine ⟨fun n s hs => ?_, fun fuel r hr => ?_, fun n hn => ?_⟩
  · have h := counted_of_start hs
    refine ⟨h.allFreq, h.sum, ?_, h.le⟩
    rw [h.k]
    exact Int.natCast_nonneg _
  · obtain ⟨s, hloop, rfl⟩ := Option.map_eq_some_iff.mp hr
    obtain ⟨n, hs, hend⟩ := start_of_voteLoop (t := 0) rfl hloop
    obtain ⟨hn, i, hi⟩ := (counted_of_start hs).ended hend
    exact ⟨n, s, hs, hn, i, hi⟩
  · have hended : ∃ fuel s, voteLoop trials fuel 0 initVotes = some s := by
      rcases start_or_ended trials (n + 1) with ⟨s', hs'⟩ | hended
      · obtain ⟨s, hs, h⟩ := Option.bind_eq_some_iff.mp hs'
        split_ifs at h with hgo
        have hlt := (counted_of_start hs).goesOn_iff.mp hgo
        rw [(counted_of_start hs).k, hn] at hlt
        exact absurd hlt (lt_irrefl _)
      · exact hended
    obtain ⟨fuel, s, hloop⟩ := hended
    exact ⟨fuel, _, Option.map_eq_some_iff.mpr ⟨s, hloop, rfl⟩⟩

theorem guess_by_single_hits_seven :
    ∃ fuel r, guessAccessedPage (fun _ i => i == 7) fuel = some r :=
  (guess_by_single_hits _).2.2 100 (by decide +kernel)

end CS24.Meltdown
