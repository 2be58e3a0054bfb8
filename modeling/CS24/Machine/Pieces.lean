import CS24.Machine.Memory

/-!
# Pieces of a memory

An object in memory is an address and the bytes stored from there on. A memory holds a list
of objects if it has their bytes and no two of them overlap: then each is read and written
without regard to the others.
-/

namespace CS24.Machine

structure Piece where
  address : Nat
  bytes : List UInt8

namespace Piece

/-- The address behind the last byte. -/
def stop (p : Piece) : Nat := p.address + p.bytes.length

def Apart (p q : Piece) : Prop := p.stop ≤ q.address ∨ q.stop ≤ p.address

def In (m : Mem) (p : Piece) : Prop :=
  ∀ i < p.bytes.length, p.bytes[i]? = some (m (p.address + i))

def overwrite (p : Piece) (offset : Nat) (bytes : List UInt8) : Piece :=
  ⟨p.address, p.bytes.take offset ++ bytes ++ p.bytes.drop (offset + bytes.length)⟩

def read (m : Mem) (a n : Nat) : Piece := ⟨a, (List.range n).map fun i => m (a + i)⟩

variable {m m' : Mem} {p q : Piece} {offset a n : Nat} {bytes : List UInt8}

theorem In.congr (h : p.In m) (hm : Mem.Agree m m' p.address p.stop) : p.In m' := by
  intro i hi
  rw [hm (p.address + i) (Nat.le_add_right _ _) (Nat.add_lt_add_left hi _)]
  exact h i hi

theorem read_in (m : Mem) (a n : Nat) : (read m a n).In m := by
  intro i hi
  have hlt : i < n := by simpa [read] using hi
  change ((List.range n).map fun i => m (a + i))[i]? = some (m (a + i))
  rw [List.getElem?_map, List.getElem?_range hlt]
  rfl

@[simp] theorem read_length (m : Mem) (a n : Nat) : (read m a n).bytes.length = n := by
  simp [read]

theorem write_in (m : Mem) (a : Nat) (bytes : List UInt8) : In (m.write a bytes) ⟨a, bytes⟩ := by
  intro i hi
  change i < bytes.length at hi
  change bytes[i]? = some (Mem.write m a bytes (a + i))
  rw [Mem.write, if_pos ⟨Nat.le_add_right a i, by omega⟩, Nat.add_sub_cancel_left,
    List.getD_eq_getElem _ _ hi, List.getElem?_eq_getElem hi]

theorem write_append (m : Mem) (a : Nat) (xs ys : List UInt8) :
    (m.write (a + xs.length) ys).write a xs = m.write a (xs ++ ys) := by
  funext x
  simp only [Mem.write, List.length_append]
  by_cases hlo : a ≤ x ∧ x < a + xs.length
  · rw [if_pos hlo, if_pos (by omega), List.getD_append _ _ _ _ (by omega)]
  · rw [if_neg hlo]
    by_cases hhi : a + xs.length ≤ x ∧ x < a + xs.length + ys.length
    · rw [if_pos hhi, if_pos (by omega), List.getD_append_right _ _ _ _ (by omega)]
      congr 1
      omega
    · rw [if_neg hhi, if_neg (by omega)]

theorem overwrite_length (h : offset + bytes.length ≤ p.bytes.length) :
    (p.overwrite offset bytes).bytes.length = p.bytes.length := by
  simp only [overwrite, List.length_append, List.length_take, List.length_drop]
  omega

theorem overwrite_stop (h : offset + bytes.length ≤ p.bytes.length) :
    (p.overwrite offset bytes).stop = p.stop :=
  congrArg (p.address + ·) (overwrite_length h)

theorem overwrite_in (hp : p.In m) (h : offset + bytes.length ≤ p.bytes.length) :
    (p.overwrite offset bytes).In (m.write (p.address + offset) bytes) := by
  intro i hi
  rw [overwrite_length h] at hi
  have htake : (p.bytes.take offset).length = offset := by
    rw [List.length_take]
    omega
  change (p.bytes.take offset ++ bytes ++ p.bytes.drop (offset + bytes.length))[i]? =
    some (Mem.write m (p.address + offset) bytes (p.address + i))
  rw [Mem.write, List.getElem?_append, List.length_append, htake]
  by_cases hlo : i < offset
  · rw [if_pos (by omega), if_neg (by omega), List.getElem?_append_left (by omega),
      List.getElem?_take_of_lt hlo, hp i hi]
  · by_cases hhi : i < offset + bytes.length
    · have hindex : p.address + i - (p.address + offset) = i - offset := by omega
      rw [if_pos hhi, if_pos (by omega), List.getElem?_append_right (by omega), htake, hindex,
        List.getD_eq_getElem _ _ (by omega), List.getElem?_eq_getElem (by omega)]
    · have hindex : offset + bytes.length + (i - (offset + bytes.length)) = i := by omega
      rw [if_neg hhi, if_neg (by omega), List.getElem?_drop, hindex, hp i hi]

theorem Apart.symm (h : p.Apart q) : q.Apart p := Or.symm h

end Piece

/-- The memory holds the pieces, and they do not overlap. -/
structure Stored (m : Mem) (ps : List Piece) : Prop where
  held : ∀ p ∈ ps, p.In m
  apart : ps.Pairwise Piece.Apart

namespace Stored

variable {m m' : Mem} {p : Piece} {ps xs ys : List Piece} {offset : Nat} {bytes : List UInt8}

theorem nil (m : Mem) : Stored m [] := ⟨List.forall_mem_nil _, .nil⟩

theorem cons (h : Stored m ps) (hp : p.In m') (hapart : ∀ q ∈ ps, p.Apart q)
    (hm : Mem.ChangesOnly m m' p.address p.bytes.length) : Stored m' (p :: ps) := by
  refine ⟨List.forall_mem_cons.mpr ⟨hp, fun q hq => ?_⟩, .cons hapart h.apart⟩
  exact (h.held q hq).congr (hm.agree (hapart q hq).symm)

theorem overwrite (h : Stored m (xs ++ p :: ys))
    (hfits : offset + bytes.length ≤ p.bytes.length) :
    Stored (m.write (p.address + offset) bytes) (xs ++ p.overwrite offset bytes :: ys) := by
  have hchanges := Mem.changesOnly_write m (p.address + offset) bytes
  obtain ⟨hxs, hpys, hcross⟩ := List.pairwise_append.mp h.apart
  obtain ⟨hp, hys⟩ := List.pairwise_cons.mp hpys
  have hother : ∀ q, q.In m → p.Apart q → q.In (m.write (p.address + offset) bytes) := by
    intro q hq hapart
    refine hq.congr (hchanges.agree ?_)
    rcases hapart with hlt | hgt
    · right
      rw [Piece.stop] at hlt
      omega
    · left
      omega
  have hstop := Piece.overwrite_stop hfits
  refine ⟨fun q hq => ?_, List.pairwise_append.mpr ⟨hxs, List.pairwise_cons.mpr ⟨?_, hys⟩, ?_⟩⟩
  · rcases List.mem_append.mp hq with hq | hq
    · exact hother q (h.held q (List.mem_append_left _ hq))
        (hcross q hq p List.mem_cons_self).symm
    · rcases List.mem_cons.mp hq with rfl | hq
      · exact Piece.overwrite_in (h.held p (by simp)) hfits
      · exact hother q (h.held q (by simp [hq])) (hp q hq)
  · intro q hq
    rw [Piece.Apart, hstop]
    exact hp q hq
  · intro q hq r hr
    rcases List.mem_cons.mp hr with rfl | hr
    · have := hcross q hq p List.mem_cons_self
      rw [Piece.Apart, hstop]
      exact this
    · exact hcross q hq r (List.mem_cons_of_mem _ hr)

end Stored

end CS24.Machine
