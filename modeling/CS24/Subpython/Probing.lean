import CS24.Subpython.Comparing

/-!
# The slots that a lookup inspects

The loop of `keys_find` with a record of the slots it reads. It reads them as the program
does, without a check that the array has them.
-/

namespace CS24.Subpython
open Machine Mem

variable {s s' : State} {keys hash c : Nat} {subscr r : Int} {skip : Bool}
  {eq : Int → Int → M Bool} {ends : Nat → M Bool} {l l₁ l₂ log : List Nat}

/-- `current` in turn `idx` of the loop -/
def probe (capacity bucket idx : Nat) : Nat :=
  let current := bucket + idx
  if capacity < current then current - capacity else current

/-- The search ends at this slot. -/
def slotEnds (eq : Int → Int → M Bool) (keys : Nat) (subscr : Int) (skipTombstones : Bool)
    (current : Nat) : M Bool := do
  let key ← reads fun s => slot s.mem keys current
  if skipTombstones ∧ key = tombstoneRef then pure false
  else if key = nullRef ∨ key = tombstoneRef then pure true
  else eq subscr key

def inspect (ends : Nat → M Bool) : List Nat → M (Int × List Nat)
  | [] => pure (-1, [])
  | current :: rest => do
    if ← ends current then pure (current, [current])
    else
      let (r, log) ← inspect ends rest
      pure (r, current :: log)

/-- `keys_find`, and the slots that it inspects -/
def keysInspected (eq : Int → Int → M Bool) (keys hash : Nat) (subscr : Int)
    (skipTombstones : Bool) : M (Int × List Nat) := do
  let m ← reads State.mem
  let capacity := capacity m keys
  if capacity = 0 then throw .divisionTrap
  else
    inspect (slotEnds eq keys subscr skipTombstones)
      ((List.range capacity).map (probe capacity (hash % capacity)))

theorem readSlot_effect {i : Nat} : wp (readSlot keys i) (fun _ => True)
    (fun key s' => key = slot s.mem keys i ∧ s' = s) s := by
  rw [readSlot, wp_bind, checkPointer, wp_bind, wp_reads, wp_ite]
  refine ⟨fun _ => ?_, fun _ => trivial⟩
  rw [wp_pure, wp_bind, wp_reads, wp_ite]
  exact ⟨fun _ => ⟨rfl, rfl⟩, fun _ => trivial⟩

attribute [local irreducible] wp in
theorem readSlot_eq_ok {i : Nat} {key : Int} (h : readSlot keys i s = .ok (key, s')) :
    key = slot s.mem keys i ∧ s' = s := by
  have hwp := @readSlot_effect s keys i
  exact hwp.ok h

theorem inspect_end {current : Nat} (h : ends current s = .ok (true, s')) :
    inspect ends (current :: l) s = .ok ((current, [current]), s') := by
  rw [inspect, bind_of_ok h]
  rfl

theorem inspect_go {current : Nat} {s₁ : State} (h : ends current s = .ok (false, s₁))
    (hrest : inspect ends l s₁ = .ok ((r, log), s')) :
    inspect ends (current :: l) s = .ok ((r, current :: log), s') := by
  rw [inspect, bind_of_ok h]
  change (inspect ends l >>= _) s₁ = _
  rw [bind_of_ok hrest]
  rfl

theorem turn_of_ok {current : Nat} {rest : M Int} (h : (do
      let key ← readSlot keys current
      if skip ∧ key = tombstoneRef then rest
      else if key = nullRef ∨ key = tombstoneRef then pure (current : Int)
      else if ← eq subscr key then pure (current : Int)
      else rest : M Int) s = .ok (r, s')) :
    (slotEnds eq keys subscr skip current s = .ok (true, s') ∧ r = current) ∨
    ∃ s₁, slotEnds eq keys subscr skip current s = .ok (false, s₁) ∧ rest s₁ = .ok (r, s') := by
  obtain ⟨key, s₁, hkey, h⟩ := bind_eq_ok.mp h
  have hslot := readSlot_eq_ok hkey
  rw [hslot.2, hslot.1] at h
  have hends : slotEnds eq keys subscr skip current s =
      (if skip ∧ slot s.mem keys current = tombstoneRef then pure false
      else if slot s.mem keys current = nullRef ∨ slot s.mem keys current = tombstoneRef then
        pure true
      else eq subscr (slot s.mem keys current) : M Bool) s := rfl
  rw [hends]
  by_cases hskip : skip ∧ slot s.mem keys current = tombstoneRef
  · rw [if_pos hskip] at h ⊢
    exact .inr ⟨s, rfl, h⟩
  rw [if_neg hskip] at h ⊢
  by_cases hfree : slot s.mem keys current = nullRef ∨ slot s.mem keys current = tombstoneRef
  · rw [if_pos hfree] at h ⊢
    obtain ⟨rfl, rfl⟩ := pure_eq_ok h
    exact .inl ⟨rfl, rfl⟩
  rw [if_neg hfree] at h ⊢
  obtain ⟨b, s₂, hb, h⟩ := bind_eq_ok.mp h
  cases b with
  | true =>
    obtain ⟨rfl, rfl⟩ := pure_eq_ok h
    exact .inl ⟨hb, rfl⟩
  | false => exact .inr ⟨s₂, hb, h⟩

theorem keysFindFrom_inspected {bucket k : Nat} (hk : k ≤ c)
    (h : keysFindFrom eq keys bucket subscr skip c k s = .ok (r, s')) :
    ∃ log, inspect (slotEnds eq keys subscr skip)
      ((List.range' (c - k) k).map (probe c bucket)) s = .ok ((r, log), s') := by
  induction k generalizing s with
  | zero =>
    rw [keysFindFrom] at h
    obtain ⟨rfl, rfl⟩ := pure_eq_ok h
    exact ⟨[], rfl⟩
  | succ k ih =>
    have hnext : c - (k + 1) + 1 = c - k := by omega
    rw [List.range'_succ, hnext, List.map_cons]
    have hturn := @turn_of_ok s s' keys subscr r skip eq (probe c bucket (c - (k + 1)))
      (keysFindFrom eq keys bucket subscr skip c k) h
    rcases hturn with ⟨hends, rfl⟩ | ⟨s₁, hends, hrest⟩
    · exact ⟨_, inspect_end hends⟩
    · obtain ⟨log, hlog⟩ := ih (by omega) hrest
      exact ⟨_, inspect_go hends hlog⟩

theorem keysFind_inspected (h : keysFind eq keys hash subscr skip s = .ok (r, s')) :
    ∃ log, keysInspected eq keys hash subscr skip s = .ok ((r, log), s') := by
  change (ite _ _ _ : M Int) s = _ at h
  change ∃ log, (ite _ _ _ : M (Int × List Nat)) s = _
  by_cases hc : capacity s.mem keys = 0
  · rw [if_pos hc] at h
    cases h
  · rw [if_neg hc] at h ⊢
    obtain ⟨log, hlog⟩ := keysFindFrom_inspected le_rfl h
    rw [Nat.sub_self, ← List.range_eq_range'] at hlog
    exact ⟨log, hlog⟩

theorem inspect_append (h : inspect ends (l₁ ++ l₂) s = .ok ((r, log), s')) :
    (∃ s₁, l₁.anyM ends s = .ok (true, s₁) ∧ log <+: l₁ ∧ log ≠ [] ∧ 0 ≤ r) ∨
    ∃ s₁ log₂, l₁.anyM ends s = .ok (false, s₁) ∧ log = l₁ ++ log₂ ∧
      inspect ends l₂ s₁ = .ok ((r, log₂), s') := by
  induction l₁ generalizing s log with
  | nil => exact .inr ⟨s, log, rfl, rfl, h⟩
  | cons i l₁ ih =>
    rw [List.cons_append, inspect] at h
    obtain ⟨b, s₁, hi, h⟩ := bind_eq_ok.mp h
    cases b with
    | true =>
      obtain ⟨hpair, rfl⟩ := pure_eq_ok (a := ((i : Int), [i])) h
      obtain ⟨rfl, rfl⟩ := Prod.mk.inj hpair
      refine .inl ⟨s₁, ?_, ⟨l₁, rfl⟩, by simp, Int.natCast_nonneg i⟩
      rw [List.anyM, bind_of_ok hi]
      rfl
    | false =>
      obtain ⟨⟨r', log'⟩, s₂, hrest, h⟩ := bind_eq_ok.mp h
      obtain ⟨hpair, rfl⟩ := pure_eq_ok h
      obtain ⟨rfl, rfl⟩ := Prod.mk.inj hpair
      have hany : ∀ t, l₁.anyM ends s₁ = .ok t → (i :: l₁).anyM ends s = .ok t := by
        intro t ht
        rw [List.anyM, bind_of_ok hi]
        exact ht
      rcases ih hrest with ⟨s₃, ht, hlog, -, hr⟩ | ⟨s₃, log₂, hf, rfl, h₂⟩
      · exact .inl ⟨s₃, hany _ ht, List.cons_prefix_cons.mpr ⟨rfl, hlog⟩, by simp, hr⟩
      · exact .inr ⟨s₃, log₂, hany _ hf, rfl, h₂⟩

/-- The slots of a search go round the array once from the first one on, and all of them were
inspected if none ended it. -/
structure CyclicSearch (capacity first : Nat) (result : Int) (inspected : List Nat) : Prop where
  lt : ∀ i ∈ inspected, i < capacity
  head : inspected.head? = some first
  next : inspected.IsChain fun i j => j = (i + 1) % capacity
  all : result = -1 → inspected.Perm (List.range capacity)

theorem isChain_next {b n : Nat} (h : b + n ≤ c) :
    (List.range' b n).IsChain fun i j => j = (i + 1) % c := by
  induction n generalizing b with
  | zero => exact .nil
  | succ n ih =>
    cases n with
    | zero => exact .singleton b
    | succ n =>
      rw [List.range'_succ, List.range'_succ]
      refine .cons_cons (Nat.mod_eq_of_lt (by omega)).symm ?_
      rw [← List.range'_succ]
      exact ih (by omega)

theorem map_probe {b : Nat} (hb : b < c) : ∃ l, (List.range c).map (probe c b) =
    List.range' b (c - b) ++ if b = 0 then [] else c :: l := by
  refine ⟨(List.range' (c - b + 1) (b - 1)).map (probe c b), ?_⟩
  have hsplit : List.range c = List.range' 0 (c - b) ++ List.range' (c - b) b := by
    have happend := List.range'_append_1 (s := 0) (m := c - b) (n := b)
    rw [Nat.zero_add, Nat.sub_add_cancel hb.le] at happend
    rw [happend, List.range_eq_range']
  rw [hsplit, List.map_append]
  congr 1
  · rw [← Nat.add_zero b, List.range'_eq_map_range, List.range'_eq_map_range, List.map_map]
    refine List.map_congr_left fun i hi => ?_
    have hlt := List.mem_range.mp hi
    simp only [Function.comp_apply, probe]
    rw [if_neg (by omega)]
    omega
  · split_ifs with h0
    · rw [h0]
      rfl
    · obtain ⟨n, rfl⟩ := Nat.exists_eq_succ_of_ne_zero h0
      rw [List.range'_succ, List.map_cons]
      have hend : probe c n.succ (c - n.succ) = c := by
        rw [probe, if_neg (by omega)]
        omega
      rw [hend]
      rfl

theorem head_inspected {i : Nat} (h : inspect ends (i :: l) s = .ok ((r, log), s')) : i ∈ log := by
  rw [inspect] at h
  obtain ⟨b, s₁, -, h⟩ := bind_eq_ok.mp h
  cases b with
  | true =>
    obtain ⟨hpair, -⟩ := pure_eq_ok (a := ((i : Int), [i])) h
    obtain ⟨-, rfl⟩ := Prod.mk.inj hpair
    exact List.mem_singleton_self i
  | false =>
    obtain ⟨⟨r', log'⟩, s₂, -, h⟩ := bind_eq_ok.mp h
    obtain ⟨hpair, -⟩ := pure_eq_ok h
    obtain ⟨-, rfl⟩ := Prod.mk.inj hpair
    exact List.mem_cons_self

/-- A search that starts at slot 0, or ends before the end of the array, goes round the array;
any other one reads the slot after the end in place of slot 0. -/
theorem keysInspected_cyclic_iff (hc : capacity s.mem keys = c) (hpos : 0 < c)
    (h : keysInspected eq keys hash subscr skip s = .ok ((r, log), s')) :
    CyclicSearch c (hash % c) r log ↔ hash % c = 0 ∨ ∃ s₁,
      (List.range' (hash % c) (c - hash % c)).anyM (slotEnds eq keys subscr skip) s =
        .ok (true, s₁) := by
  have hb : hash % c < c := Nat.mod_lt hash hpos
  obtain ⟨l, hl⟩ := map_probe hb
  change (if capacity s.mem keys = 0 then _ else _ : M (Int × List Nat)) s = _ at h
  rw [hc, if_neg (by omega), hl] at h
  generalize hash % c = b at *
  have hmem : ∀ i ∈ List.range' b (c - b), i < c := fun i hi => by
    have hlt := (List.mem_range'_1.mp hi).2
    omega
  have hhead : (List.range' b (c - b)).head? = some b := by
    obtain ⟨n, hn⟩ := Nat.exists_eq_succ_of_ne_zero (show c - b ≠ 0 by omega)
    rw [hn, List.range'_succ, List.head?_cons]
  rcases inspect_append h with ⟨s₁, hany, hstart, hne, hr⟩ | ⟨s₁, log₂, hany, rfl, hrest⟩
  · refine iff_of_true ⟨fun i hi => hmem i (hstart.subset hi), ?_, ?_, fun hr' => ?_⟩
      (.inr ⟨s₁, hany⟩)
    · obtain ⟨rest, hrest⟩ := hstart
      cases log with
      | nil => exact absurd rfl hne
      | cons a log =>
        rw [← hrest] at hhead
        exact hhead
    · have hchain : (List.range' b (c - b)).IsChain fun i j => j = (i + 1) % c :=
        isChain_next (by omega)
      obtain ⟨rest, hrest⟩ := hstart
      rw [← hrest] at hchain
      exact hchain.left_of_append
    · omega
  · split_ifs at hrest with h0
    · obtain ⟨⟨rfl, rfl⟩, -⟩ : ((-1 : Int) = r ∧ [] = log₂) ∧ s₁ = s' := by
        simpa [inspect, pure, StateT.pure, Except.pure] using hrest
      rw [List.append_nil]
      refine iff_of_true ⟨hmem, hhead, isChain_next (by omega), fun _ => ?_⟩ (.inl h0)
      rw [h0, Nat.sub_zero, List.range_eq_range']
    · have hafter : c ∈ log₂ := head_inspected hrest
      refine iff_of_false (fun hcyclic => ?_) ?_
      · exact absurd (hcyclic.lt c (List.mem_append_right _ hafter)) (lt_irrefl c)
      · rintro (hzero | ⟨s₂, htrue⟩)
        · exact h0 hzero
        · rw [hany] at htrue
          cases htrue

def twoKeys (wanted : Int64) : State where
  mem := withInteger (withArray (withInteger (withInteger singletonsOnly.mem 1048 7) 1080 8) 1112
    [3, 2]) 1152 wanted
  memorySize := 184
  memoryPool := 1000
  freeList := 0
  pool := 1000
  f := false
  halfwayPoint := 1092
  actualSize := 184
  refTable := [1000, 1024, 1048, 1080, 1112, 1152]
  exception := none
  globals := []
  noneRef := nullRef
  trueRef := 0
  falseRef := 1
  output := []
  held := []
  leaked := []

theorem twoKeys_ten : wp (keysInspected (refEq 9) 1112 10 5 true) (fun _ => False)
    (fun found _ => found = (-1, [0, 1])) (twoKeys 10) := by
  decide +kernel

theorem keysInspected_cyclic_zero : CyclicSearch 2 (10 % 2) (-1) [0, 1] := by
  have hcapacity : capacity (twoKeys 10).mem 1112 = 2 := by decide +kernel
  obtain ⟨_, s', hrun, rfl⟩ := twoKeys_ten.returns
  exact (keysInspected_cyclic_iff hcapacity (by decide) hrun).mpr (.inl rfl)

theorem twoKeys_nine : wp (keysInspected (refEq 9) 1112 9 5 true) (fun _ => False)
    (fun found _ => found = (-1, [1, 2])) (twoKeys 9) := by
  decide +kernel

/-- From slot 1 on, the search through two slots reads the third one. -/
theorem keysInspected_past_end : ∃ r log s', keysInspected (refEq 9) 1112 9 5 true (twoKeys 9) =
    .ok ((r, log), s') ∧ capacity (twoKeys 9).mem 1112 = 2 ∧ ¬ CyclicSearch 2 (9 % 2) r log := by
  have hcapacity : capacity (twoKeys 9).mem 1112 = 2 := by decide +kernel
  obtain ⟨_, s', hrun, rfl⟩ := twoKeys_nine.returns
  refine ⟨_, _, s', hrun, hcapacity, fun hcyclic => ?_⟩
  exact absurd (hcyclic.lt 2 (by decide)) (by decide)

end CS24.Subpython
