import CS24.Malloc.Survival
import CS24.Malloc.Walk
import CS24.Machine.Program

/-!
# The driver that checks the allocator

`eval_mm_valid` of `mdriver.c` runs a trace of requests. It remembers the extent of each payload,
looks at where a new one lies, and fills the blocks with data that it checks before it frees or
moves them. The numbers of `random` are given, and the driver's own calls of `malloc` succeed.
-/

namespace CS24.Malloc.Driver
open Machine Mem

inductive DebugMode where
  | none
  | cheap
  | expensive
  deriving DecidableEq

/-- `traceop_t`; a request to free the index -1 has no index. -/
inductive Request where
  | alloc (index size : Nat)
  | realloc (index size : Nat)
  | free (index : Option Nat)

/-- `range_t` -/
structure Range where
  lo : Nat
  hi : Nat
  index : Nat

/-- The messages of `malloc_error` -/
inductive Report where
  | initFailed
  | mallocFailed
  | reallocFailed
  | reallocNonNull
  | unaligned
  | outside
  | overlaps
  | garbled (index ngarbled firstgarbled : Nat)
  deriving DecidableEq

def randomDataLen : Nat := 2 ^ 16

structure Setup where
  region : Region
  debugMode : DebugMode
  ignoreRanges : Bool
  randomData : Nat → UInt8
  /-- The number that `random` gives for the operation. -/
  random : Nat → Nat

/-- The heap, the range list, the arrays of the trace, and what has been reported. -/
structure Run where
  state : State
  ranges : List Range
  blocks : Nat → Nat
  blockSizes : Nat → Nat
  blockRandBase : Nat → Nat
  reports : List Report

inductive Stop where
  /-- `eval_mm_valid` returns 0 after these reports. -/
  | invalid (reports : List Report)
  /-- An assertion of the driver fails. -/
  | aborts
  /-- The allocator does not return. -/
  | stuck

abbrev DM := StateT Run (Except Stop)

def fail {α : Type} (r : Report) : DM α := do throw (.invalid ((← reads Run.reports) ++ [r]))

variable (u : Setup)

/-- `(int) size` -/
def castInt (size : Nat) : Int := (size : Int).bmod (2 ^ 32)

/-- The test of `add_range` for one range -/
def hits (lo hi : Nat) (p : Range) : Bool := p.lo ≤ lo ∧ lo ≤ p.hi ∨ p.lo ≤ hi ∧ hi ≤ p.hi

def addRange (lo size index : Nat) : DM Unit := do
  let s ← reads Run.state
  let hi := lo + (castInt size).toNat - 1
  if castInt size ≤ 0 then throw .aborts
  else if lo % alignment ≠ 0 then fail .unaligned
  else if lo < memHeapLo u.region ∨ memHeapHi s < lo ∨ hi < memHeapLo u.region ∨ memHeapHi s < hi
  then fail .outside
  else if u.ignoreRanges ∨ u.debugMode = .none then pure ()
  else if (← reads Run.ranges).any (hits lo hi) then fail .overlaps
  else modify fun d => { d with ranges := ⟨lo, hi, index⟩ :: d.ranges }

def removeRange (lo : Nat) : DM Unit :=
  modify fun d => { d with ranges := d.ranges.eraseP fun p => p.lo == lo }

def pattern (base i : Nat) : UInt8 := u.randomData ((base + i) % randomDataLen)

/-- `randomize_block`, in operation `opnum` -/
def randomizeBlock (opnum index : Nat) : DM Unit :=
  if u.debugMode = .none then pure ()
  else modify fun d => { d with
    blockRandBase := Function.update d.blockRandBase index (u.random opnum)
    state := { d.state with
      mem := write d.state.mem (d.blocks index)
        ((List.range (d.blockSizes index)).map (pattern u (u.random opnum))) } }

def garbled (d : Run) (index : Nat) : List Nat :=
  (List.range (d.blockSizes index)).filter fun i =>
    d.state.mem (d.blocks index + i) ≠ pattern u (d.blockRandBase index) i

def checkIndex (index : Nat) : DM Unit := do
  if u.debugMode = .none then pure ()
  else
    match ← reads fun d => garbled u d index with
    | [] => pure ()
    | first :: rest =>
      modify fun d => { d with reports := d.reports ++ [.garbled index (rest.length + 1) first] }

/-- A call of the allocator -/
def call (c : State → Option (State × Nat)) : DM Nat := do
  match c (← reads Run.state) with
  | none => throw .stuck
  | some (s, p) =>
    modify fun d => { d with state := s }
    pure p

/-- One operation of the trace -/
def perform (opnum : Nat) : Request → DM Unit
  | .alloc index size => do
    let p ← call fun s => malloc u.region s size
    if p = 0 then fail .mallocFailed
    else
      addRange u p size index
      modify fun d => { d with
        blocks := Function.update d.blocks index p
        blockSizes := Function.update d.blockSizes index size }
      randomizeBlock u opnum index
  | .realloc index size => do
    checkIndex u index
    let oldp ← reads fun d => d.blocks index
    let newp ← call fun s => realloc u.region s oldp size
    if newp = 0 ∧ size ≠ 0 then fail .reallocFailed
    else if newp ≠ 0 ∧ size = 0 then fail .reallocNonNull
    else
      removeRange oldp
      (if 0 < size then addRange u newp size index else pure ())
      modify fun d => { d with
        blocks := Function.update d.blocks index newp
        blockSizes := Function.update d.blockSizes index (min size (d.blockSizes index)) }
      checkIndex u index
      modify fun d => { d with blockSizes := Function.update d.blockSizes index size }
      randomizeBlock u opnum index
  | .free none => do
    let _ ← call fun s => (free u.region s 0).map (·, 0)
    pure ()
  | .free (some index) => do
    checkIndex u index
    let p ← reads fun d => d.blocks index
    removeRange p
    let _ ← call fun s => (free u.region s p).map (·, 0)
    pure ()

/-- What is checked before each operation with `DBG_EXPENSIVE` -/
def checkAll : List Range → DM Unit
  | [] => pure ()
  | r :: ranges => do
    checkIndex u r.index
    checkAll ranges

/-- The loop of `eval_mm_valid` -/
def evalFrom (opnum : Nat) : List Request → DM Unit
  | [] => pure ()
  | op :: ops => do
    (if u.debugMode = .expensive then do
      let _ ← call fun s => (mmCheckheap u.region s).map fun _ => (s, 0)
      checkAll u (← reads Run.ranges)
    else pure ())
    perform u opnum op
    evalFrom (opnum + 1) ops

/-- `mem_reset_brk`, `clear_ranges` and `reinit_trace` -/
def reset (d : Run) : Run :=
  { d with
    state := memResetBrk u.region d.state, ranges := [], blocks := fun _ => 0,
    blockSizes := fun _ => 0 }

def evalMmValid (ops : List Request) : DM Unit := do
  modify (reset u)
  let init := mmInit u.region (← reads Run.state)
  modify fun d => { d with state := init.1 }
  if init.2 < 0 then fail .initFailed
  else evalFrom u 0 ops

/-- The indices that have a block after the operation -/
def Request.next (live : List Nat) : Request → List Nat
  | .alloc index _ => index :: live
  | .realloc index size => if size = 0 then live.erase index else index :: live.erase index
  | .free none => live
  | .free (some index) => live.erase index

/-- Positive sizes that fit an `int`, for an index that has no block or has one -/
def Request.Valid (live : List Nat) : Request → Prop
  | .alloc index size => 1 ≤ size ∧ size < 2 ^ 31 ∧ index ∉ live
  | .realloc index size => size < 2 ^ 31 ∧ index ∈ live
  | .free none => True
  | .free (some index) => index ∈ live

instance decidableValid (live : List Nat) (op : Request) : Decidable (op.Valid live) :=
  match op with
  | .alloc _ _ => inferInstanceAs (Decidable (_ ∧ _))
  | .realloc _ _ => inferInstanceAs (Decidable (_ ∧ _))
  | .free none => inferInstanceAs (Decidable True)
  | .free (some _) => inferInstanceAs (Decidable (_ ∈ _))

def WellFormed (live : List Nat) : List Request → Prop
  | [] => True
  | op :: ops => op.Valid live ∧ WellFormed (op.next live) ops

/-- The call that an operation makes -/
def Request.call (d : Run) : Request → Call
  | .alloc _ size => .malloc size
  | .realloc index size => .realloc (d.blocks index) size
  | .free none => .free 0
  | .free (some index) => .free (d.blocks index)

def entries (d : Run) (live : List Nat) : List (Nat × Nat) :=
  live.map fun i => (d.blocks i, d.blockSizes i)

def client (d : Run) (live : List Nat) : Client := ⟨d.state, entries d live⟩

/-- No call writes a link into a live block. -/
def SafeFrom (opnum : Nat) (live : List Nat) : List Request → Run → Prop
  | [], _ => True
  | op :: ops, d => (op.call d).Safe u.region (client d live) ∧
      ∀ d', perform u opnum op d = .ok ((), d') → SafeFrom (opnum + 1) (op.next live) ops d'

structure Driven (d : Run) (live : List Nat) (bs : List Nat) : Prop where
  owned : Owned u.region (client d live) bs
  range : ∀ r ∈ d.ranges, ∃ i ∈ live, r.index = i ∧ r.lo = d.blocks i ∧
    r.hi + 1 = d.blocks i + d.blockSizes i
  lows : (d.ranges.map Range.lo).Nodup

def HasData (d : Run) (index : Nat) : Prop :=
  ∀ j, j < d.blockSizes index →
    d.state.mem (d.blocks index + j) = pattern u (d.blockRandBase index) j

structure Intact (d : Run) (live : List Nat) : Prop where
  data : u.debugMode ≠ .none → ∀ i ∈ live, HasData u d i
  reports : d.reports = []

variable {u} {d d' : Run} {live bs bs' : List Nat} {index size opnum lo p : Nat} {s : State}
  {E : Stop → Prop} {ranges : List Range}

theorem mem_entries {q k : Nat} :
    (q, k) ∈ entries d live ↔ ∃ i ∈ live, d.blocks i = q ∧ d.blockSizes i = k := by
  simp [entries]

theorem entries_mem (h : index ∈ live) : (d.blocks index, d.blockSizes index) ∈ entries d live :=
  mem_entries.mpr ⟨index, h, rfl, rfl⟩

theorem Driven.inj (h : Driven u d live bs) {i j : Nat} (hi : i ∈ live) (hj : j ∈ live)
    (heq : d.blocks i = d.blocks j) : i = j := by
  have hnodup : (live.map d.blocks).Nodup := by
    have hmap := h.owned.nodup
    rwa [client, entries, List.map_map] at hmap
  exact List.inj_on_of_nodup_map hnodup hi hj heq

theorem Driven.nodup (h : Driven u d live bs) : live.Nodup := by
  have hmap := h.owned.nodup
  rw [client, entries, List.map_map] at hmap
  exact List.Nodup.of_map _ hmap

theorem dropPtr_entries (hnodup : (live.map d.blocks).Nodup) (hindex : index ∈ live) :
    dropPtr (entries d live) (d.blocks index) = entries d (live.erase index) := by
  induction live with
  | nil => cases hindex
  | cons i live ih =>
    obtain ⟨hi, hlive⟩ := List.nodup_cons.mp hnodup
    by_cases heq : i = index
    · subst heq
      rw [List.erase_cons_head, entries, List.map_cons, dropPtr, List.filter_cons_of_neg (by simp)]
      refine List.filter_eq_self.mpr fun e he => ?_
      obtain ⟨j, hj, rfl⟩ := List.mem_map.mp he
      have hne : d.blocks j ≠ d.blocks i := fun hji => hi (hji ▸ List.mem_map_of_mem hj)
      simpa using hne
    · have hmem : index ∈ live := (List.mem_cons.mp hindex).resolve_left (Ne.symm heq)
      have hne : d.blocks i ≠ d.blocks index := fun hij => hi (hij ▸ List.mem_map_of_mem hmem)
      have hrest := ih hlive hmem
      rw [List.erase_cons_tail (by simpa using heq), entries, List.map_cons, dropPtr_cons_of_ne hne,
        entries, List.map_cons]
      exact congrArg _ hrest

theorem Driven.drop_eq (h : Driven u d live bs) (hindex : index ∈ live) :
    dropPtr (entries d live) (d.blocks index) = entries d (live.erase index) := by
  refine dropPtr_entries ?_ hindex
  have hmap := h.owned.nodup
  rwa [client, entries, List.map_map] at hmap

theorem mem_removeRange {r : Range} (h : (ranges.map Range.lo).Nodup) :
    r ∈ ranges.eraseP (fun p => p.lo == lo) ↔ r ∈ ranges ∧ r.lo ≠ lo := by
  induction ranges with
  | nil => simp
  | cons q ranges ih =>
    obtain ⟨hq, hranges⟩ := List.nodup_cons.mp h
    by_cases heq : q.lo = lo
    · rw [List.eraseP_cons_of_pos (by simpa using heq), List.mem_cons]
      constructor
      · intro hr
        refine ⟨.inr hr, fun hlo => hq ?_⟩
        rw [heq, ← hlo]
        exact List.mem_map_of_mem hr
      · rintro ⟨rfl | hr, hlo⟩
        · exact absurd heq hlo
        · exact hr
    · rw [List.eraseP_cons_of_neg (by simpa using heq), List.mem_cons, List.mem_cons, ih hranges]
      constructor
      · rintro (rfl | ⟨hr, hlo⟩)
        · exact ⟨.inl rfl, heq⟩
        · exact ⟨.inr hr, hlo⟩
      · rintro ⟨rfl | hr, hlo⟩
        · exact .inl rfl
        · exact .inr ⟨hr, hlo⟩

theorem castInt_eq (h : size < 2 ^ 31) : castInt size = size :=
  Int.bmod_eq_of_le_mul_two (by omega) (by omega)

theorem payload_passes {rest : List (Nat × Nat)}
    (howned : Owned u.region ⟨s, (p, size) :: rest⟩ bs) (h1 : 1 ≤ size)
    (hranges : ∀ r ∈ ranges, ∃ q k, (q, k) ∈ rest ∧ r.lo = q ∧ r.hi + 1 = q + k) :
    p % alignment = 0 ∧ ¬ (p < memHeapLo u.region ∨ memHeapHi s < p ∨
      p + size - 1 < memHeapLo u.region ∨ memHeapHi s < p + size - 1) ∧
    ranges.any (hits p (p + size - 1)) = false := by
  obtain ⟨b, hb, hp, -, hroom, -⟩ := howned.block p size (List.mem_cons_self ..)
  have hroom' : size + 16 ≤ getSize s.mem b := hroom
  have hbounds := howned.heap.seg.tiles.bounds hb
  rw [firstBlock_eq] at hbounds
  have hbrk : b + getSize s.mem b ≤ s.memBrk := hbounds.2
  refine ⟨?_, ?_, ?_⟩
  · rw [hp]
    exact Nat.mod_eq_zero_of_dvd (howned.aligned hb)
  · unfold memHeapLo memHeapHi
    omega
  · rw [List.any_eq_false]
    intro r hr
    obtain ⟨q, k, hq, hlo, hhi⟩ := hranges r hr
    have hne : p ≠ q := howned.new_ne hq
    have hdisjoint := howned.disjoint (List.mem_cons_self ..) (List.mem_cons_of_mem _ hq) hne
    have hk := (howned.size (List.mem_cons_of_mem _ hq)).1
    rw [hits, decide_eq_true_eq]
    omega

attribute [local irreducible] wp in
theorem addRange_spec {rest : List (Nat × Nat)}
    (howned : Owned u.region ⟨d.state, (p, size) :: rest⟩ bs) (h1 : 1 ≤ size)
    (hlt : size < 2 ^ 31)
    (hranges : ∀ r ∈ d.ranges, ∃ q k, (q, k) ∈ rest ∧ r.lo = q ∧ r.hi + 1 = q + k) :
    wp (addRange u p size index) E (fun _ d' => d' = d ∨
      d' = { d with ranges := ⟨p, p + size - 1, index⟩ :: d.ranges }) d := by
  obtain ⟨haligned, hinside, hany⟩ := payload_passes howned h1 hranges
  have hcast : castInt size = size := castInt_eq hlt
  rw [addRange, wp_bind, wp_reads, hcast, Int.toNat_natCast]
  dsimp only
  rw [if_neg (by omega), if_neg (not_not.mpr haligned), if_neg hinside]
  split_ifs
  · rw [wp_pure]
    exact .inl rfl
  · rw [wp_bind, wp_reads, hany, if_neg (by simp), wp_modify]
    exact .inr rfl

theorem checkIndex_spec (u : Setup) (d : Run) (index : Nat) :
    wp (checkIndex u index) E (fun _ d' => ∃ rs, d' = { d with reports := d.reports ++ rs } ∧
      ((u.debugMode ≠ .none → HasData u d index) → rs = [])) d := by
  rw [checkIndex]
  split_ifs with hmode
  · exact ⟨[], by rw [List.append_nil], fun _ => rfl⟩
  · rw [wp_bind, wp_reads]
    cases hgarbled : garbled u d index with
    | nil => exact ⟨[], by rw [List.append_nil], fun _ => rfl⟩
    | cons first rest =>
      refine ⟨[_], rfl, fun hdata => ?_⟩
      have hnil : garbled u d index = [] := by
        refine List.filter_eq_nil_iff.mpr fun j hj => ?_
        have hj' := hdata hmode j (List.mem_range.mp hj)
        simpa using hj'
      rw [hgarbled] at hnil
      cases hnil

def Run.place (d : Run) (index p size : Nat) : Run :=
  { d with
    blocks := Function.update d.blocks index p
    blockSizes := Function.update d.blockSizes index size }

theorem entries_congr (hblocks : ∀ i ∈ live, d'.blocks i = d.blocks i)
    (hsizes : ∀ i ∈ live, d'.blockSizes i = d.blockSizes i) : entries d' live = entries d live :=
  List.map_congr_left fun i hi => by rw [hblocks i hi, hsizes i hi]

theorem entries_place (hindex : index ∉ live) :
    entries (d.place index p size) (index :: live) = (p, size) :: entries d live := by
  have hne : ∀ i ∈ live, i ≠ index := fun i hi heq => hindex (heq ▸ hi)
  have hrest : entries (d.place index p size) live = entries d live :=
    entries_congr (fun i hi => Function.update_of_ne (hne i hi) ..)
      fun i hi => Function.update_of_ne (hne i hi) ..
  have hself : (d.place index p size).blocks index = p ∧
      (d.place index p size).blockSizes index = size :=
    ⟨Function.update_self .., Function.update_self ..⟩
  rw [entries, List.map_cons, hself.1, hself.2]
  exact congrArg _ hrest

/-- The state after `randomize_block` -/
def Run.randomized (d : Run) (u : Setup) (opnum index : Nat) : Run :=
  { d with
    blockRandBase := Function.update d.blockRandBase index (u.random opnum)
    state := { d.state with
      mem := write d.state.mem (d.blocks index)
        ((List.range (d.blockSizes index)).map (pattern u (u.random opnum))) } }

theorem length_pattern (base n : Nat) : ((List.range n).map (pattern u base)).length = n := by
  rw [List.length_map, List.length_range]

theorem Driven.randomized (h : Driven u d live bs) (hindex : index ∈ live) :
    Driven u (d.randomized u opnum index) live bs := by
  have hpayload := h.owned.payload (entries_mem hindex)
    (changesOnly_write d.state.mem (d.blocks index)
      ((List.range (d.blockSizes index)).map (pattern u (u.random opnum)))) le_rfl
    (by rw [length_pattern])
  exact ⟨hpayload, h.range, h.lows⟩

theorem Driven.randomized_data (h : Driven u d live bs) (hindex : index ∈ live)
    (hdata : ∀ i ∈ live, i ≠ index → HasData u d i) :
    ∀ i ∈ live, HasData u (d.randomized u opnum index) i := by
  intro i hi j hj
  have hj' : j < d.blockSizes i := hj
  by_cases heq : i = index
  · subst heq
    change write d.state.mem (d.blocks i) _ (d.blocks i + j) =
      pattern u (Function.update d.blockRandBase i (u.random opnum) i) j
    rw [Function.update_self, write, length_pattern, if_pos (by omega), Nat.add_sub_cancel_left,
      List.getD_eq_getElem?_getD, List.getElem?_map, List.getElem?_range hj']
    rfl
  · change write d.state.mem (d.blocks index) _ (d.blocks i + j) =
      pattern u (Function.update d.blockRandBase index (u.random opnum) i) j
    have hne : d.blocks index ≠ d.blocks i := fun hij => heq (h.inj hindex hi hij).symm
    have hdisjoint := h.owned.disjoint (entries_mem hindex) (entries_mem hi) hne
    rw [Function.update_of_ne heq, write, length_pattern, if_neg (by omega)]
    exact hdata i hi heq j hj'

theorem randomizeBlock_eq : randomizeBlock u opnum index d =
    .ok ((), if u.debugMode = .none then d else d.randomized u opnum index) := by
  rw [randomizeBlock]
  split_ifs <;> rfl

def Refused (intact : Prop) (stop : Stop) : Prop :=
  ∃ rs r, stop = .invalid (rs ++ [r]) ∧ (r = .mallocFailed ∨ r = .reallocFailed) ∧
    (intact → rs = [])

theorem call_eq {c : State → Option (State × Nat)} (h : c d.state = some (s, p)) :
    call c d = .ok (p, { d with state := s }) := by
  have hread : (reads Run.state : DM State) d = .ok (d.state, d) := rfl
  rw [call, bind_of_ok hread, h]
  rfl

theorem wp_fail {α : Type} {Q : α → Run → Prop} {r : Report} :
    wp (fail r) E Q d ↔ E (.invalid (d.reports ++ [r])) := Iff.rfl

/-- What is known of the arrays and the ranges while the block of an index is new. -/
structure Fresh (u : Setup) (d : Run) (live : List Nat) (index p size : Nat) (bs : List Nat) :
    Prop where
  owned : Owned u.region ⟨d.state, (p, size) :: entries d live⟩ bs
  range : ∀ r ∈ d.ranges, ∃ i ∈ live, r.index = i ∧ r.lo = d.blocks i ∧
    r.hi + 1 = d.blocks i + d.blockSizes i
  lows : (d.ranges.map Range.lo).Nodup
  index : index ∉ live

theorem Fresh.among (h : Fresh u d live index p size bs) :
    ∀ r ∈ d.ranges, ∃ q k, (q, k) ∈ entries d live ∧ r.lo = q ∧ r.hi + 1 = q + k := by
  intro r hr
  obtain ⟨i, hi, -, hlo, hhi⟩ := h.range r hr
  exact ⟨d.blocks i, d.blockSizes i, entries_mem hi, hlo, hhi⟩

theorem Fresh.place (h : Fresh u d live index p size bs) (h1 : 1 ≤ size)
    (hd : d' = d ∨ d' = { d with ranges := ⟨p, p + size - 1, index⟩ :: d.ranges }) :
    Driven u (d'.place index p size) (index :: live) bs := by
  have hold : ∀ r ∈ d.ranges, ∃ i ∈ index :: live, r.index = i ∧
      r.lo = Function.update d.blocks index p i ∧
      r.hi + 1 = Function.update d.blocks index p i +
        Function.update d.blockSizes index size i := by
    intro r hr
    obtain ⟨i, hi, hindex, hlo, hhi⟩ := h.range r hr
    have hne : i ≠ index := fun heq => h.index (heq ▸ hi)
    exact ⟨i, List.mem_cons_of_mem _ hi, hindex, by rwa [Function.update_of_ne hne],
      by rwa [Function.update_of_ne hne, Function.update_of_ne hne]⟩
  rcases hd with rfl | rfl
  · refine ⟨?_, hold, h.lows⟩
    rw [client, entries_place h.index]
    exact h.owned
  · refine ⟨?_, ?_, ?_⟩
    · rw [client, entries_place h.index]
      exact h.owned
    · intro r hr
      rcases List.mem_cons.mp hr with rfl | hr
      · have hp : Function.update d.blocks index p index = p := Function.update_self ..
        have hsize : Function.update d.blockSizes index size index = size :=
          Function.update_self ..
        refine ⟨index, List.mem_cons_self .., rfl, hp.symm, ?_⟩
        change p + size - 1 + 1 = Function.update d.blocks index p index +
          Function.update d.blockSizes index size index
        rw [hp, hsize]
        omega
      · exact hold r hr
    · refine List.nodup_cons.mpr ⟨fun hmem => ?_, h.lows⟩
      obtain ⟨r, hr, hlo⟩ := List.mem_map.mp hmem
      obtain ⟨q, k, hq, hrq, -⟩ := h.among r hr
      exact h.owned.new_ne hq (hlo.symm.trans hrq)

theorem HasData.place {i : Nat} (h : HasData u d i) (hne : i ≠ index) :
    HasData u (d.place index p size) i := by
  intro j hj
  change d.state.mem (Function.update d.blocks index p i + j) = pattern u (d.blockRandBase i) j
  rw [Function.update_of_ne hne]
  refine h j ?_
  change j < Function.update d.blockSizes index size i at hj
  rwa [Function.update_of_ne hne] at hj

theorem Driven.fill (h : Driven u d (index :: live) bs) :
    wp (randomizeBlock u opnum index) E (fun _ d' => Driven u d' (index :: live) bs ∧
      ((u.debugMode ≠ .none → ∀ i ∈ live, HasData u d i) → d.reports = [] →
        Intact u d' (index :: live))) d := by
  refine wp_of_ok randomizeBlock_eq ?_
  have hindex : index ∈ index :: live := List.mem_cons_self ..
  split_ifs with hmode
  · exact ⟨h, fun _ hreports => ⟨fun hne => absurd hmode hne, hreports⟩⟩
  · refine ⟨h.randomized hindex, fun hdata hreports => ⟨fun _ => ?_, hreports⟩⟩
    refine h.randomized_data hindex fun i hi hne => ?_
    exact hdata hmode i ((List.mem_cons.mp hi).resolve_left hne)

attribute [local irreducible] wp in
theorem perform_alloc (h : Driven u d live bs) (h1 : 1 ≤ size) (hlt : size < 2 ^ 31)
    (hindex : index ∉ live) : wp (perform u opnum (.alloc index size)) (Refused (Intact u d live))
      (fun _ d' => (∃ bs', Driven u d' (index :: live) bs') ∧
        (Intact u d live → Intact u d' (index :: live))) d := by
  rw [perform]
  rcases malloc_owned h.owned h1 (by omega) with hnull | ⟨s', bs', b, hcall, hown, hmallocs, -⟩
  · rw [wp_bind_of_ok (call_eq hnull), if_pos rfl]
    exact wp_fail.mpr ⟨d.reports, .mallocFailed, rfl, .inl rfl, fun hintact => hintact.reports⟩
  · rw [wp_bind_of_ok (call_eq hcall), if_neg (by omega)]
    have hfresh : Fresh u { d with state := s' } live index (b + 8) size bs' :=
      ⟨hown, h.range, h.lows, hindex⟩
    refine (addRange_spec hfresh.owned h1 hlt hfresh.among).bind fun _ d₂ h₂ => ?_
    have hplace := hfresh.place h1 h₂
    rw [wp_bind, wp_modify]
    refine hplace.fill.post fun _ d₃ h₃ =>
      ⟨⟨bs', h₃.1⟩, fun hintact => h₃.2 (fun hmode i hi => ?_) ?_⟩
    · have hne : i ≠ index := fun heq => hindex (heq ▸ hi)
      refine HasData.place ?_ hne
      have hagree := hmallocs.survives h.owned (entries_mem hi)
      have hkept : HasData u { d with state := s' } i := fun j hj =>
        (hagree _ (Nat.le_add_right _ _) (Nat.add_lt_add_left hj _)).trans
          (hintact.data hmode i hi j hj)
      rcases h₂ with rfl | rfl
      · exact hkept
      · exact hkept
    · rcases h₂ with rfl | rfl
      · exact hintact.reports
      · exact hintact.reports

theorem Driven.removed (h : Driven u d live bs) :
    ∀ r ∈ d.ranges.eraseP (fun p => p.lo == d.blocks index), ∃ i ∈ live.erase index,
      r.index = i ∧ r.lo = d.blocks i ∧ r.hi + 1 = d.blocks i + d.blockSizes i := by
  intro r hr
  obtain ⟨hr, hlo⟩ := (mem_removeRange h.lows).mp hr
  obtain ⟨i, hi, hrest⟩ := h.range r hr
  have hne : i ≠ index := fun heq => hlo (heq ▸ hrest.2.1)
  exact ⟨i, (List.mem_erase_of_ne hne).mpr hi, hrest⟩

theorem Driven.removed_lows (h : Driven u d live bs) :
    ((d.ranges.eraseP fun p => p.lo == d.blocks index).map Range.lo).Nodup :=
  h.lows.sublist (List.eraseP_sublist.map _)

theorem perform_free (h : Driven u d live bs) (hindex : index ∈ live) :
    wp (perform u opnum (.free (some index))) E (fun _ d' =>
      (∃ bs', Driven u d' (live.erase index) bs') ∧
      (Intact u d live → (Call.free (d.blocks index)).Safe u.region (client d live) →
        Intact u d' (live.erase index))) d := by
  obtain ⟨s', bs', b, -, -, hcall, hown, -⟩ := free_owned h.owned (entries_mem hindex)
  rw [h.drop_eq hindex] at hown
  have hfree : (free u.region d.state (d.blocks index)).map (fun s => (s, 0)) = some (s', 0) := by
    rw [show free u.region d.state (d.blocks index) = some s' from hcall]
    rfl
  rw [perform]
  refine (checkIndex_spec u d index).bind fun _ d₁ h₁ => ?_
  obtain ⟨rs, hd₁, hrs⟩ := h₁
  rw [hd₁, wp_bind, wp_reads, removeRange, wp_bind, wp_modify, wp_bind_of_ok (call_eq hfree),
    wp_pure]
  refine ⟨⟨bs', hown, h.removed, h.removed_lows⟩, fun hintact hsafe => ⟨fun hmode i hi => ?_, ?_⟩⟩
  · have hne : index ≠ i := fun heq => h.nodup.not_mem_erase (heq ▸ hi)
    have hi' := List.mem_of_mem_erase hi
    have hptr : d.blocks index ≠ d.blocks i := fun heq => hne (h.inj hindex hi' heq)
    have hclient : (client d live).call u.region (.free (d.blocks index)) =
        some (⟨s', dropPtr (entries d live) (d.blocks index)⟩, 0) := by
      simp only [Client.call, hcall, client]
      rfl
    have hsurvives := survives_free h.owned (.inr ⟨_, entries_mem hindex⟩) hsafe hclient
      (entries_mem hi') hptr
    exact fun j hj => (hsurvives.2 _ (Nat.le_add_right _ _) (Nat.add_lt_add_left hj _)).trans
      (hintact.data hmode i hi' j hj)
  · change d.reports ++ rs = []
    rw [hintact.reports, hrs fun hmode => hintact.data hmode index hindex]
    rfl

theorem perform_free_none : wp (perform u opnum (.free none)) E
    (fun _ d' => d' = d) d := by
  have hfree : (free u.region d.state 0).map (fun s => (s, 0)) = some (d.state, 0) := rfl
  rw [perform, wp_bind_of_ok (call_eq hfree), wp_pure]

theorem Intact.others (h : Driven u d live bs) (hintact : Intact u d live)
    (hmode : u.debugMode ≠ .none) {index : Nat}
    (hkept : ∀ i ∈ live, d.blocks index ≠ d.blocks i →
      Agree d.state.mem s.mem (d.blocks i) (d.blocks i + d.blockSizes i))
    (hindex : index ∈ live) : ∀ i ∈ live.erase index, i ≠ index ∧
      ∀ j, j < d.blockSizes i →
        s.mem (d.blocks i + j) = pattern u (d.blockRandBase i) j := by
  intro i hi
  have hne : index ≠ i := fun heq => h.nodup.not_mem_erase (heq ▸ hi)
  have hi' := List.mem_of_mem_erase hi
  have hptr : d.blocks index ≠ d.blocks i := fun heq => hne (h.inj hindex hi' heq)
  refine ⟨hne.symm, fun j hj => ?_⟩
  exact (hkept i hi' hptr _ (Nat.le_add_right _ _) (Nat.add_lt_add_left hj _)).trans
    (hintact.data hmode i hi' j hj)

theorem write_nil (m : Mem) (dst : Nat) : write m dst [] = m := by
  funext x
  rw [write, List.length_nil, if_neg (by omega)]

theorem randomized_empty (hsize : d.blockSizes index = 0) :
    d.randomized u opnum index =
      { d with blockRandBase := Function.update d.blockRandBase index (u.random opnum) } := by
  rw [Run.randomized, hsize, List.range_zero, List.map_nil, write_nil]

structure Forgets (d d' : Run) (index : Nat) : Prop where
  ranges : d'.ranges = d.ranges.eraseP fun p => p.lo == d.blocks index
  blocks : ∀ i, i ≠ index → d'.blocks i = d.blocks i
  sizes : ∀ i, i ≠ index → d'.blockSizes i = d.blockSizes i
  bases : ∀ i, i ≠ index → d'.blockRandBase i = d.blockRandBase i

theorem Driven.forget (h : Driven u d live bs) (hd : Forgets d d' index)
    (hown : Owned u.region ⟨d'.state, entries d (live.erase index)⟩ bs') :
    Driven u d' (live.erase index) bs' := by
  have hne : ∀ i ∈ live.erase index, i ≠ index := fun i hi heq =>
    h.nodup.not_mem_erase (heq ▸ hi)
  refine ⟨?_, fun r hr => ?_, ?_⟩
  · rw [client, entries_congr (fun i hi => hd.blocks i (hne i hi))
      fun i hi => hd.sizes i (hne i hi)]
    exact hown
  · rw [hd.ranges] at hr
    obtain ⟨i, hi, hindex, hlo, hhi⟩ := h.removed r hr
    exact ⟨i, hi, hindex, by rwa [hd.blocks i (hne i hi)],
      by rwa [hd.blocks i (hne i hi), hd.sizes i (hne i hi)]⟩
  · rw [hd.ranges]
    exact h.removed_lows

theorem perform_realloc_zero (h : Driven u d live bs) (hindex : index ∈ live) :
    wp (perform u opnum (.realloc index 0)) E (fun _ d' =>
      (∃ bs', Driven u d' (live.erase index) bs') ∧
      (Intact u d live → (Call.realloc (d.blocks index) 0).Safe u.region (client d live) →
        Intact u d' (live.erase index))) d := by
  obtain ⟨s', bs', b, -, -, hcall, hown, -⟩ := free_owned h.owned (entries_mem hindex)
  have hclient : (client d live).call u.region (.free (d.blocks index)) =
      some (⟨s', dropPtr (entries d live) (d.blocks index)⟩, 0) := by
    simp only [Client.call, hcall, client]
    rfl
  rw [h.drop_eq hindex] at hown
  have hrealloc : realloc u.region d.state (d.blocks index) 0 = some (s', 0) := by
    rw [realloc, if_pos rfl, show free u.region d.state (d.blocks index) = some s' from hcall]
    rfl
  have hne : ∀ i ∈ live.erase index, i ≠ index := fun i hi heq =>
    h.nodup.not_mem_erase (heq ▸ hi)
  rw [perform]
  refine (checkIndex_spec u d index).bind fun _ d₁ h₁ => ?_
  obtain ⟨rs, hd₁, hrs⟩ := h₁
  rw [hd₁, wp_bind, wp_reads, wp_bind_of_ok (call_eq hrealloc), if_neg (fun hno => hno.2 rfl),
    if_neg (fun hno => hno.1 rfl), removeRange, wp_bind, wp_modify, if_neg (Nat.lt_irrefl 0),
    wp_bind, wp_pure, wp_bind, wp_modify]
  refine (checkIndex_spec u _ index).bind fun _ d₂ h₂ => ?_
  obtain ⟨rs', hd₂, hrs'⟩ := h₂
  have hnone : rs' = [] := hrs' fun _ j hj => by
    change j < Function.update d.blockSizes index (min 0 (d.blockSizes index)) index at hj
    rw [Function.update_self] at hj
    omega
  rw [hd₂, hnone, List.append_nil, wp_bind, wp_modify]
  refine wp_of_ok randomizeBlock_eq ?_
  have hupdate : ∀ {α : Type} (f : Nat → α) (a : α) (i : Nat), i ≠ index →
      Function.update f index a i = f i := fun f a i hi => Function.update_of_ne hi ..
  have hfinal : ∀ d' : Run, d'.state = s' → Forgets d d' index → d'.reports = d.reports ++ rs →
      (∃ bs', Driven u d' (live.erase index) bs') ∧
      (Intact u d live → (Call.realloc (d.blocks index) 0).Safe u.region (client d live) →
        Intact u d' (live.erase index)) := by
    intro d' hstate hforgets hreports
    rw [← hstate] at hown
    refine ⟨⟨bs', h.forget hforgets hown⟩, fun hintact hsafe => ⟨fun hmode i hi => ?_, ?_⟩⟩
    · have hsurvives : ∀ i ∈ live, d.blocks index ≠ d.blocks i →
          Agree d.state.mem s'.mem (d.blocks i) (d.blocks i + d.blockSizes i) := fun i hi hptr =>
        (survives_free h.owned (.inr ⟨_, entries_mem hindex⟩) hsafe hclient (entries_mem hi)
          hptr).2
      obtain ⟨hi', hdata⟩ := hintact.others h hmode hsurvives hindex i hi
      intro j hj
      rw [hstate, hforgets.blocks i hi', hforgets.bases i hi']
      rw [hforgets.sizes i hi'] at hj
      exact hdata j hj
    · rw [hreports, hintact.reports, hrs fun hmode => hintact.data hmode index hindex]
      rfl
  split_ifs
  · refine hfinal _ rfl ⟨rfl, fun i hi => hupdate _ _ i hi, fun i hi => ?_, fun i _ => rfl⟩ rfl
    exact (hupdate _ _ i hi).trans (hupdate _ _ i hi)
  · rw [randomized_empty (Function.update_self ..)]
    refine hfinal _ rfl ⟨rfl, fun i hi => hupdate _ _ i hi, fun i hi => ?_,
      fun i hi => hupdate _ _ i hi⟩ rfl
    exact (hupdate _ _ i hi).trans (hupdate _ _ i hi)

attribute [local irreducible] wp in
theorem perform_realloc (h : Driven u d live bs) (hlt : size < 2 ^ 31) (h1 : 1 ≤ size)
    (hindex : index ∈ live) :
    wp (perform u opnum (.realloc index size)) (Refused (Intact u d live)) (fun _ d' =>
      (∃ bs', Driven u d' (index :: live.erase index) bs') ∧
      (Intact u d live → (Call.realloc (d.blocks index) size).Safe u.region (client d live) →
        Intact u d' (index :: live.erase index))) d := by
  rw [perform]
  refine (checkIndex_spec u d index).bind fun _ d₁ h₁ => ?_
  obtain ⟨rs, hd₁, hrs⟩ := h₁
  rw [hd₁, wp_bind, wp_reads]
  have hreports : Intact u d live → d.reports ++ rs = [] := fun hintact => by
    rw [hintact.reports, hrs fun hmode => hintact.data hmode index hindex]
    rfl
  have hn : size + 31 < 2 ^ 64 := by omega
  rcases realloc_owned h.owned (entries_mem hindex) h1 hn with
    hnull | ⟨-, s', -, bs', b, -, -, hcall, -, -, -, -, -, -, hown, -⟩
  · rw [wp_bind_of_ok (call_eq hnull), if_pos ⟨rfl, by omega⟩]
    exact wp_fail.mpr ⟨d.reports ++ rs, .reallocFailed, rfl, .inr rfl, hreports⟩
  have hclient : (client d live).call u.region (.realloc (d.blocks index) size) =
      some (⟨s', (b + 8, size) :: dropPtr (entries d live) (d.blocks index)⟩, b + 8) := by
    have hn0 : size ≠ 0 := by omega
    simp [Client.call, client, hn0, show realloc u.region d.state (d.blocks index) size = _
      from hcall]
  rw [h.drop_eq hindex] at hown
  rw [wp_bind_of_ok (call_eq hcall), if_neg (by omega), if_neg (by omega), removeRange, wp_bind,
    wp_modify, if_pos (show 0 < size from h1)]
  have hfresh : Fresh u { d with
      state := s', ranges := d.ranges.eraseP fun p => p.lo == d.blocks index
      reports := d.reports ++ rs } (live.erase index) index (b + 8) size bs' :=
    ⟨hown, h.removed, h.removed_lows, h.nodup.not_mem_erase⟩
  refine (addRange_spec hfresh.owned h1 hlt hfresh.among).bind fun _ d₂ h₂ => ?_
  have hplace := hfresh.place h1 h₂
  have hsame : d₂.state = s' ∧ d₂.blocks = d.blocks ∧ d₂.blockSizes = d.blockSizes ∧
      d₂.blockRandBase = d.blockRandBase ∧ d₂.reports = d.reports ++ rs := by
    rcases h₂ with rfl | rfl
    · exact ⟨rfl, rfl, rfl, rfl, rfl⟩
    · exact ⟨rfl, rfl, rfl, rfl, rfl⟩
  obtain ⟨hstate, hblocks, hsizes, hbases, hreports₂⟩ := hsame
  clear hcall hown hfresh h₂ hd₁
  rw [wp_bind, wp_modify]
  refine (checkIndex_spec u _ index).bind fun _ d₃ h₃ => ?_
  obtain ⟨rs', hd₃, hrs'⟩ := h₃
  rw [hd₃, wp_bind, wp_modify]
  dsimp only
  rw [Function.update_idem]
  have hplace' : Driven u { d₂.place index (b + 8) size with reports := d₂.reports ++ rs' }
      (index :: live.erase index) bs' := ⟨hplace.owned, hplace.range, hplace.lows⟩
  refine hplace'.fill.post fun _ d₄ h₄ => ⟨⟨bs', h₄.1⟩, fun hintact hsafe => h₄.2 ?_ ?_⟩
  all_goals
    obtain ⟨hothers, hmoved⟩ :=
      survives_move h.owned (entries_mem hindex) (by omega) hn hsafe hclient
  · intro hmode i hi
    obtain ⟨hi', hdata⟩ := hintact.others h hmode (s := s')
      (fun i hi hptr => (hothers _ _ (entries_mem hi) hptr).2) hindex i hi
    have hkept : HasData u d₂ i := fun j hj => by
      rw [hsizes] at hj
      rw [hstate, hblocks, hbases]
      exact hdata j hj
    exact hkept.place hi'
  · change d₂.reports ++ rs' = []
    rw [hreports₂, hreports hintact, List.nil_append]
    refine hrs' fun hmode j hj => ?_
    change j < Function.update d₂.blockSizes index (min size (d₂.blockSizes index)) index at hj
    change d₂.state.mem (Function.update d₂.blocks index (b + 8) index + j) =
      pattern u (d₂.blockRandBase index) j
    rw [Function.update_self, hsizes] at hj
    rw [Function.update_self, hstate, hbases]
    have hlt : j < min (d.blockSizes index) size := by omega
    exact (hmoved (by omega) j hlt).trans (hintact.data hmode index hindex j (by omega))

theorem perform_spec {op : Request} (h : Driven u d live bs) (hv : op.Valid live) :
    wp (perform u opnum op) (Refused (Intact u d live)) (fun _ d' =>
      (∃ bs', Driven u d' (op.next live) bs') ∧
      (Intact u d live → (op.call d).Safe u.region (client d live) →
        Intact u d' (op.next live))) d := by
  cases op with
  | alloc index size =>
    exact (perform_alloc h hv.1 hv.2.1 hv.2.2).post fun _ d' h' => ⟨h'.1, fun hi _ => h'.2 hi⟩
  | realloc index size =>
    by_cases hsize : size = 0
    · subst hsize
      exact perform_realloc_zero h hv.2
    · rw [Request.next, if_neg hsize]
      exact perform_realloc h hv.1 (Nat.pos_of_ne_zero hsize) hv.2
  | free index =>
    cases index with
    | none =>
      refine perform_free_none.post fun _ d' h' => ?_
      rw [h']
      exact ⟨⟨bs, h⟩, fun hintact _ => hintact⟩
    | some index => exact perform_free h hv

theorem checkAll_spec (hranges : ∀ r ∈ ranges, r.index ∈ live) :
    wp (checkAll u ranges) E (fun _ d' => ∃ rs, d' = { d with reports := d.reports ++ rs } ∧
      (Intact u d live → rs = [])) d := by
  induction ranges generalizing d with
  | nil => exact ⟨[], by rw [List.append_nil], fun _ => rfl⟩
  | cons r ranges ih =>
    obtain ⟨hr, hrest⟩ := List.forall_mem_cons.mp hranges
    refine (checkIndex_spec u d r.index).bind fun _ d₁ h₁ => ?_
    obtain ⟨rs, hd₁, hrs⟩ := h₁
    rw [hd₁]
    refine (ih hrest).post fun _ d₂ h₂ => ?_
    obtain ⟨rs', hd₂, hrs'⟩ := h₂
    refine ⟨rs ++ rs', by rw [hd₂, List.append_assoc], fun hintact => ?_⟩
    have hnone : rs = [] := hrs fun hmode => hintact.data hmode _ hr
    rw [hnone, List.nil_append]
    refine hrs' ⟨hintact.data, ?_⟩
    rw [hnone, List.append_nil]
    exact hintact.reports

theorem wp_run {α : Type} {c : DM α} {Q : α → Run → Prop} (h : wp c E Q d) :
    wp c E (fun a d' => Q a d' ∧ c d = .ok (a, d')) d := by
  unfold wp at h ⊢
  cases hc : c d with
  | ok r =>
    rw [hc] at h
    exact ⟨h, rfl⟩
  | error stop => rwa [hc] at h

theorem checks_spec (h : Driven u d live bs) :
    wp (if u.debugMode = .expensive then do
        let _ ← call fun s => (mmCheckheap u.region s).map fun _ => (s, 0)
        checkAll u (← reads Run.ranges)
      else pure ()) E (fun _ d' => ∃ rs, d' = { d with reports := d.reports ++ rs } ∧
        (Intact u d live → rs = [])) d := by
  split_ifs
  · have hcheck : (mmCheckheap u.region d.state).map (fun _ => (d.state, 0)) =
        some (d.state, 0) := by
      rw [show mmCheckheap u.region d.state = some () from h.owned.heap.walkable.1]
      rfl
    rw [wp_bind_of_ok (call_eq hcheck), wp_bind, wp_reads]
    refine checkAll_spec fun r hr => ?_
    obtain ⟨i, hi, hindex, -⟩ := h.range r hr
    rwa [hindex]
  · exact ⟨[], by rw [List.append_nil], fun _ => rfl⟩

theorem evalFrom_spec {ops : List Request} (h : Driven u d live bs) (hops : WellFormed live ops) :
    wp (evalFrom u opnum ops) (Refused (Intact u d live ∧ SafeFrom u opnum live ops d))
      (fun _ d' => Intact u d live ∧ SafeFrom u opnum live ops d → d'.reports = []) d := by
  induction ops generalizing d live bs opnum with
  | nil => exact fun hintact => hintact.1.reports
  | cons op ops ih =>
    obtain ⟨hv, hrest⟩ := hops
    refine (checks_spec h).bind fun _ d₁ h₁ => ?_
    obtain ⟨rs, hd₁, hrs⟩ := h₁
    have hdriven : Driven u d₁ live bs := by
      rw [hd₁]
      exact ⟨h.owned, h.range, h.lows⟩
    have hsame : Intact u d live → d₁ = d := fun hintact => by
      rw [hd₁, hrs hintact, List.append_nil]
    rw [wp_bind]
    refine (wp_run (perform_spec hdriven hv)).mono (fun _ d₂ h₂ => ?_) fun stop hstop => ?_
    · obtain ⟨⟨⟨bs', h₂'⟩, hstep⟩, hrun⟩ := h₂
      have hnext : Intact u d live ∧ SafeFrom u opnum live (op :: ops) d →
          Intact u d₂ (op.next live) ∧ SafeFrom u (opnum + 1) (op.next live) ops d₂ := by
        rintro ⟨hintact, hsafe, hafter⟩
        rw [hsame hintact] at hrun hstep
        exact ⟨hstep hintact hsafe, hafter d₂ hrun⟩
      refine (ih h₂' hrest).mono (fun _ d₃ h₃ hall => h₃ (hnext hall)) fun stop hstop => ?_
      obtain ⟨rs', r, hstop, hr, hnone⟩ := hstop
      exact ⟨rs', r, hstop, hr, fun hall => hnone (hnext hall)⟩
    · obtain ⟨rs', r, hstop, hr, hnone⟩ := hstop
      refine ⟨rs', r, hstop, hr, fun hall => hnone ?_⟩
      rw [hsame hall.1]
      exact hall.1

/-- The driver in a process that has not used the allocator. -/
def start (u : Setup) (m : Mem) : Run :=
  ⟨freshProcess u.region m, [], fun _ => 0, fun _ => 0, fun _ => 0, []⟩

/-- The driver after `mm_init` -/
def initialised (u : Setup) (m : Mem) : Run :=
  { start u m with state := ⟨m, u.region.heap + 8, 0⟩ }

theorem evalMmValid_spec {ops : List Request} (u : Setup) (m : Mem) (hops : WellFormed [] ops) :
    wp (evalMmValid u ops) (Refused (SafeFrom u 0 [] ops (initialised u m)))
      (fun _ d' => SafeFrom u 0 [] ops (initialised u m) → d'.reports = []) (start u m) := by
  obtain ⟨bs, howned⟩ := init_inv u.region m
  rw [mmInit_freshProcess] at howned
  have hdriven : Driven u (initialised u m) [] bs :=
    ⟨howned, fun _ hr => (List.not_mem_nil hr).elim, List.nodup_nil⟩
  have hintact : Intact u (initialised u m) [] := ⟨fun _ _ hi => (List.not_mem_nil hi).elim, rfl⟩
  have hreset : reset u (start u m) = start u m := rfl
  have hstate : (start u m).state = freshProcess u.region m := rfl
  rw [evalMmValid, wp_bind, wp_modify, hreset, wp_bind, wp_reads, hstate, mmInit_freshProcess,
    wp_bind, wp_modify, if_neg (lt_irrefl 0)]
  refine (evalFrom_spec hdriven hops).mono (fun _ d' h hsafe => h ⟨hintact, hsafe⟩) ?_
  intro stop hstop
  obtain ⟨rs, r, hstop, hr, hnone⟩ := hstop
  exact ⟨rs, r, hstop, hr, fun hsafe => hnone ⟨hintact, hsafe⟩⟩

/-- In a process that has not used the allocator, `eval_mm_valid` accepts it on every trace of
requests for live blocks, unless it is out of memory: no payload is unaligned, outside the heap
or over another one, no assertion fails and every call returns. -/
theorem eval_mm_valid_accepts (u : Setup) (m : Mem) {ops : List Request}
    (hops : WellFormed [] ops) :
    (∃ d', evalMmValid u ops (start u m) = .ok ((), d')) ∨
      ∃ rs r, evalMmValid u ops (start u m) = .error (.invalid (rs ++ [r])) ∧
        (r = .mallocFailed ∨ r = .reallocFailed) := by
  have h := evalMmValid_spec u m hops
  cases hrun : evalMmValid u ops (start u m) with
  | ok r => exact .inl ⟨r.2, rfl⟩
  | error stop =>
    obtain ⟨rs, r, rfl, hr, -⟩ := h.error hrun
    exact .inr ⟨rs, r, rfl, hr⟩

def oneBlock : List Request := [.alloc 0 24, .realloc 0 40, .free (some 0)]

theorem oneBlock_wellFormed : WellFormed [] oneBlock :=
  ⟨by decide, by decide, by decide, trivial⟩

def plainSetup : Setup := ⟨suggestedRegion, .cheap, false, fun _ => 7, fun _ => 0⟩

theorem eval_mm_valid_accepts_one :
    (∃ d', evalMmValid plainSetup oneBlock (start plainSetup fun _ => 0) = .ok ((), d')) ∨
      ∃ rs r, evalMmValid plainSetup oneBlock (start plainSetup fun _ => 0) =
        .error (.invalid (rs ++ [r])) ∧ (r = .mallocFailed ∨ r = .reallocFailed) :=
  eval_mm_valid_accepts plainSetup (fun _ => 0) oneBlock_wellFormed

/-- As long as no call writes a link into a live block, the driver finds every block with its
data, before it frees it and after it has moved. -/
theorem eval_mm_valid_silent (u : Setup) (m : Mem) {ops : List Request}
    (hops : WellFormed [] ops) (hsafe : SafeFrom u 0 [] ops (initialised u m)) :
    (∀ d', evalMmValid u ops (start u m) = .ok ((), d') → d'.reports = []) ∧
      ∀ reports, evalMmValid u ops (start u m) = .error (.invalid reports) →
        reports = [.mallocFailed] ∨ reports = [.reallocFailed] := by
  have h := evalMmValid_spec u m hops
  refine ⟨fun d' hrun => h.ok hrun hsafe, fun reports hrun => ?_⟩
  obtain ⟨rs, r, hstop, hr, hnone⟩ := h.error hrun
  rw [hnone hsafe, List.nil_append] at hstop
  obtain rfl := Stop.invalid.inj hstop
  exact hr.imp (congrArg fun r => [r]) (congrArg fun r => [r])

theorem linkSafe_single (d : Run) : LinkSafe (client d [0]) (d.blocks 0) := by
  intro k hk hne
  obtain ⟨hlast, -⟩ := Prod.mk.inj (List.mem_singleton.mp hk)
  exact absurd hlast hne

def allocFree : List Request := [.alloc 0 24, .free (some 0)]

theorem allocFree_wellFormed : WellFormed [] allocFree := ⟨by decide, by decide, trivial⟩

theorem allocFree_safe (m : Mem) :
    SafeFrom plainSetup 0 [] allocFree (initialised plainSetup m) :=
  ⟨trivial, fun d' _ => ⟨.inr (linkSafe_single d'), fun _ _ => trivial⟩⟩

theorem eval_mm_valid_silent_one :
    (∀ d', evalMmValid plainSetup allocFree (start plainSetup fun _ => 0) = .ok ((), d') →
      d'.reports = []) ∧
    ∀ reports, evalMmValid plainSetup allocFree (start plainSetup fun _ => 0) =
        .error (.invalid reports) →
      reports = [.mallocFailed] ∨ reports = [.reallocFailed] :=
  eval_mm_valid_silent plainSetup (fun _ => 0) allocFree_wellFormed (allocFree_safe _)

end CS24.Malloc.Driver
