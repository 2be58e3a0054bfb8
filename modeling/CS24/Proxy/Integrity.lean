import CS24.Proxy.Representation

/-!
# The two structures of the cache agree

As long as nothing is evicted, the queue and the chains of the hash table hold the same
nodes, and the size of the cache is what their buffers take. The first eviction ends this:
`dequeue` leaves `queue->back` at the node it takes away, and `cache_remove` empties a bin.
-/

namespace CS24.Proxy
open Machine Linked

variable {s s' : State} {queue l : List Nat} {chains : Nat → List Nat} {n p q b k v : Nat}
  {x : Node} {E : Stop → Prop}

structure Represents (s : State) (queue : List Nat) (chains : Nat → List Nat) : Prop where
  address : ∀ p, (s.nodes p).isSome → 0 < p ∧ p < 2 ^ 64
  row : Queue s queue
  chain : ∀ b, Chain s.hashNext (s.arr b) (chains b)
  bin : ∀ b p, p ∈ chains b ↔ p ∈ queue ∧ s.bin p = b
  size : s.size = (queue.map s.valueLength).sum
  size_lt : s.size < maxCacheSize

/-- The representation invariant of the cache. -/
def WellFormed (s : State) : Prop := ∃ queue chains, Represents s queue chains

structure SameQueue (s s' : State) : Prop where
  prev : ∀ p, s'.prev p = s.prev p
  next : ∀ p, s'.next p = s.next p
  front : s'.front = s.front
  back : s'.back = s.back
  size : s'.queueSize = s.queueSize

theorem Queue.congr (h : Queue s queue) (hs : SameQueue s s') : Queue s' queue :=
  ⟨h.links.congr (fun q _ => hs.prev q) fun q _ => hs.next q, hs.front.trans h.front,
    hs.back.trans h.back, h.nodup, hs.size.trans h.size⟩

theorem exists_node_of_hashNext {a : Nat} (h : s.hashNext p = some a) :
    ∃ x, s.nodes p = some x ∧ x.hashTableNext = a :=
  Option.map_eq_some_iff.mp h

theorem lastOfChain_spec (h : Chain s.hashNext p l) (hfuel : E .outOfFuel ∨ l.length < n)
    (r : Nat) : wp (lastOfChain n p r) E (fun a s' => a = l.getLastD r ∧ s' = s) s := by
  induction n generalizing p l r with
  | zero =>
    rcases hfuel with hE | hlt
    · exact hE
    · omega
  | succ n ih =>
    cases l with
    | nil =>
      rw [lastOfChain, if_pos (show p = 0 from h)]
      exact ⟨rfl, rfl⟩
    | cons a l =>
      obtain ⟨rfl, h0, c, hc, hrest⟩ := h
      obtain ⟨x, hx, rfl⟩ := exists_node_of_hashNext hc
      rw [lastOfChain, if_neg h0, wp_bind_of_ok (deref_eq hx), List.getLastD_cons]
      exact ih hrest (hfuel.imp_right fun hlt => by simpa using hlt) p

theorem chainAppend_spec (h : Chain s.hashNext (s.arr b) l) (hp : s.nodes p = some x) (h0 : p ≠ 0)
    (hnext : x.hashTableNext = 0) (hnew : p ∉ l) (hfuel : E .outOfFuel ∨ l.length < n) :
    wp (chainAppend n p b (s.arr b)) E (fun _ s' => Chain s'.hashNext (s'.arr b) (l ++ [p]) ∧
      (∀ q, q ∉ l → s'.hashNext q = s.hashNext q) ∧ (∀ c, c ≠ b → s'.arr c = s.arr c) ∧
      Relinked s s' ∧ SameQueue s s') s := by
  have hpnext : s.hashNext p = some 0 := by rw [State.hashNext, hp, Option.map_some, hnext]
  rw [chainAppend, wp_ite]
  constructor
  · intro hnil
    obtain rfl := h.zero_iff.mp hnil
    rw [wp_modify]
    refine ⟨⟨Function.update_self .., h0, 0, hpnext, rfl⟩, fun _ _ => rfl,
      fun c hc => Function.update_of_ne hc .., ⟨fun _ => rfl, rfl, rfl, rfl⟩,
      ⟨fun _ => rfl, fun _ => rfl, rfl, rfl, rfl⟩⟩
  · intro hne
    obtain ⟨ys, q, rfl⟩ : ∃ ys q, l = ys ++ [q] := by
      rcases List.eq_nil_or_concat l with rfl | ⟨ys, q, rfl⟩
      · exact absurd (h.zero_iff.mpr rfl) hne
      · exact ⟨ys, q, List.concat_eq_append⟩
    refine (lastOfChain_spec h hfuel 0).bind fun a s₁ hlast => ?_
    obtain ⟨ha, hs₁⟩ := hlast
    subst hs₁
    rw [List.getLastD_concat] at ha
    subst ha
    obtain ⟨-, c, hc⟩ := h.mem_some (show a ∈ ys ++ [a] by simp)
    obtain ⟨y, hy, -⟩ := exists_node_of_hashNext hc
    have hays : a ∉ ys := fun ha => (List.nodup_append.mp h.nodup).2.2 a ha a (by simp) rfl
    simp only [List.mem_append, List.mem_singleton, not_or] at hnew
    have hother : ∀ q, q ≠ a → (s₁.set a { y with hashTableNext := p }).hashNext q =
        s₁.hashNext q := fun q hq => hashNext_set_ne hq
    refine wp_of_ok (assign_eq hy) ⟨?_, fun q hq => hother q fun hqa => hq (by simp [hqa]),
      fun _ _ => rfl, ⟨fun q => ?_, rfl, rfl, rfl⟩, ⟨prev_set_of_eq hy rfl, next_set_of_eq hy rfl,
        rfl, rfl, rfl⟩⟩
    · rw [List.append_assoc]
      refine h.concat h0 (fun q hq => hother q fun hqa => hays (hqa ▸ hq)) hashNext_set_self ?_
      rw [hother p hnew.2, hpnext]
    · by_cases hq : q = a
      · rw [hq, nodes_set_self, hy]
        rfl
      · rw [nodes_set_ne hq]

theorem Queue.isSome (h : Queue s queue) (hp : p ∈ queue) : (s.nodes p).isSome := by
  obtain ⟨xs, ys, hxy⟩ := List.append_of_mem hp
  obtain ⟨x, hx, -⟩ := h.exists_node hxy
  rw [hx]
  rfl

theorem length_lt_of_address (hnodup : l.Nodup) (h : ∀ p ∈ l, 0 < p ∧ p < 2 ^ 64) :
    l.length < 2 ^ 64 := by
  have hsub : l.toFinset ⊆ Finset.Ico 1 (2 ^ 64) := fun p hp =>
    Finset.mem_Ico.mpr (h p (List.mem_toFinset.mp hp))
  have hcard := Finset.card_le_card hsub
  rw [List.toFinset_card_of_nodup hnodup, Nat.card_Ico] at hcard
  omega

/-- The cache got the node `p` with this key and value. -/
structure Inserted (s : State) (p k v : Nat) (s' : State) : Prop where
  key : s'.key p = k
  value : s'.value p = v
  key_ne : ∀ q, q ≠ p → s'.key q = s.key q
  value_ne : ∀ q, q ≠ p → s'.value q = s.value q
  isSome : ∀ q, (s'.nodes q).isSome ↔ q = p ∨ (s.nodes q).isSome
  strings : s'.strings = s.strings
  buffers : s'.buffers = s.buffers

theorem Inserted.bin_ne (h : Inserted s p k v s') (hq : q ≠ p) : s'.bin q = s.bin q := by
  rw [State.bin, State.bin, h.key_ne q hq, h.strings]

theorem Inserted.bin (h : Inserted s p k v s') : s'.bin p = hash (s.strings k) := by
  rw [State.bin, h.key, h.strings]

theorem Inserted.valueLength_ne (h : Inserted s p k v s') (hq : q ≠ p) :
    s'.valueLength q = s.valueLength q := by
  rw [State.valueLength, State.valueLength, h.value_ne q hq, h.buffers]

theorem Inserted.valueLength (h : Inserted s p k v s') :
    s'.valueLength p = (s.buffers v).length := by
  rw [State.valueLength, h.value, h.buffers]

theorem inserted_set : Inserted s p k v (s.set p ⟨0, 0, 0, k, v⟩) where
  key := by rw [State.key, nodes_set_self]; rfl
  value := by rw [State.value, nodes_set_self]; rfl
  key_ne q hq := by rw [State.key, nodes_set_ne hq]; rfl
  value_ne q hq := by rw [State.value, nodes_set_ne hq]; rfl
  isSome q := by
    by_cases hq : q = p
    · rw [hq, nodes_set_self]
      simp
    · rw [nodes_set_ne hq]
      simp [hq]
  strings := rfl
  buffers := rfl

theorem Inserted.relinked (h : Inserted s p k v s') {s'' : State} (h' : Relinked s' s'') :
    Inserted s p k v s'' where
  key := (h'.key p).trans h.key
  value := (h'.value p).trans h.value
  key_ne q hq := (h'.key q).trans (h.key_ne q hq)
  value_ne q hq := (h'.value q).trans (h.value_ne q hq)
  isSome q := by rw [h'.isSome]; exact h.isSome q
  strings := h'.strings.trans h.strings
  buffers := h'.buffers.trans h.buffers

theorem initNode_eq (hp : s.nodes p = none) (h0 : 0 < p) (hlt : p < 2 ^ 64) :
    initNode p k v s = .ok ((), s.set p ⟨0, 0, 0, k, v⟩) := by
  have hok : ¬(p = 0 ∨ 2 ^ 64 ≤ p ∨ (s.nodes p).isSome) := by
    rw [hp]
    simp
    omega
  change (if p = 0 ∨ 2 ^ 64 ≤ p ∨ (s.nodes p).isSome then throw .badMalloc
    else modify fun s => { s with
      nodes := Function.update s.nodes p (some ⟨0, 0, 0, k, v⟩) } : M Unit) s = _
  rw [if_neg hok]
  rfl

theorem evict_none (hfits : s.size + n < maxCacheSize) (hfuel : E .outOfFuel ∨ 0 < q)
    {Q : Unit → State → Prop} (hQ : Q () s) : wp (evict n q) E Q s := by
  cases q with
  | zero =>
    rcases hfuel with hE | hlt
    · exact hE
    · omega
  | succ q =>
    have hlt : ¬ maxCacheSize ≤ (s.size + n) % 2 ^ 64 := by
      unfold maxCacheSize at *
      omega
    rw [evict, wp_bind, wp_reads, if_neg hlt]
    exact hQ

theorem cacheInsert_spec (h : Represents s queue chains) (hp : s.nodes p = none) (h0 : 0 < p)
    (hlt : p < 2 ^ 64) (hb : hash (s.strings k) = b) (hlen : (s.buffers v).length < maxObjectSize)
    (hfits : s.size + (s.buffers v).length < maxCacheSize)
    (hfuel : E .outOfFuel ∨ (chains b).length < n) :
    wp (cacheInsert n p k v) E (fun a s' => a = p ∧ Inserted s p k v s' ∧
      Represents s' (p :: queue) (Function.update chains b (chains b ++ [p]))) s := by
  have hpqueue : p ∉ queue := fun hq => by
    have hsome := h.row.isSome hq
    rw [hp] at hsome
    cases hsome
  have hpchain : ∀ c, p ∉ chains c := fun c hc => hpqueue ((h.bin c p).mp hc).1
  have hne : ∀ q ∈ queue, q ≠ p := fun q hq hqp => hpqueue (hqp ▸ hq)
  have hins₀ : Inserted s p k v (s.set p ⟨0, 0, 0, k, v⟩) := inserted_set
  have hp₀ : (s.set p ⟨0, 0, 0, k, v⟩).nodes p = some ⟨0, 0, 0, k, v⟩ := nodes_set_self
  have hqueue₀ : Queue (s.set p ⟨0, 0, 0, k, v⟩) queue :=
    ⟨h.row.links.congr (fun q hq => prev_set_ne (hne q hq)) fun q hq => next_set_ne (hne q hq),
      h.row.front, h.row.back, h.row.nodup, h.row.size⟩
  have hchain₀ : ∀ c, Chain (s.set p ⟨0, 0, 0, k, v⟩).hashNext (s.arr c) (chains c) := fun c =>
    (h.chain c).congr fun q hq => hashNext_set_ne fun hqp => hpchain c (hqp ▸ hq)
  have harr₀ : (s.set p ⟨0, 0, 0, k, v⟩).arr = s.arr := rfl
  have hsize₀ : (s.set p ⟨0, 0, 0, k, v⟩).size = s.size := rfl
  rw [cacheInsert, wp_bind_of_ok (initNode_eq hp h0 hlt)]
  generalize s.set p ⟨0, 0, 0, k, v⟩ = s₀ at *
  rw [wp_bind, wp_reads, wp_bind, wp_reads, wp_bind, wp_reads, hins₀.strings, hins₀.buffers, hb,
    if_neg (by omega), wp_bind]
  refine evict_none (hsize₀ ▸ hfits) (hfuel.imp_right fun hn => by omega) ?_
  have hfuel' : E .outOfFuel ∨ (chains b).length < n := hfuel
  rw [← harr₀] at hchain₀
  refine (chainAppend_spec (hchain₀ b) hp₀ (by omega) rfl (hpchain b) hfuel').bind
    fun _ s₁ happend => ?_
  obtain ⟨hchain₁, hother₁, harr₁, hlinked₁, hsame₁⟩ := happend
  rw [wp_bind, wp_modify]
  have hins₁ := hins₀.relinked hlinked₁
  obtain ⟨x, hx⟩ := Option.isSome_iff_exists.mp ((hins₁.isSome p).mpr (.inl rfl))
  have hxprev : x.prev = 0 := by
    have hprev := hsame₁.prev p
    rw [State.prev, State.prev, hx, hp₀] at hprev
    exact Option.some.inj hprev
  have hqueue₁ : Queue s₁ queue := hqueue₀.congr hsame₁
  have hsize₁ : s₁.size = s.size := hlinked₁.size.trans hsize₀
  have hroom : (s₁.size + (s.buffers v).length) % 2 ^ 64 = s.size + (s.buffers v).length := by
    unfold maxCacheSize at hfits
    rw [hsize₁, Nat.mod_eq_of_lt (by omega)]
  rw [hroom]
  have hnodup : (p :: queue).Nodup := List.nodup_cons.mpr ⟨hpqueue, h.row.nodup⟩
  have hlength : (p :: queue).length < 2 ^ 64 := length_lt_of_address hnodup fun q hq => by
    rcases List.mem_cons.mp hq with rfl | hq
    · exact ⟨h0, hlt⟩
    · exact h.address q (h.row.isSome hq)
  have henqueue : wp (enqueue p) E (fun _ s' => Queue s' (p :: queue) ∧
      Relinked { s₁ with size := s.size + (s.buffers v).length } s' ∧
      SameTable { s₁ with size := s.size + (s.buffers v).length } s')
      { s₁ with size := s.size + (s.buffers v).length } :=
    enqueue_spec ⟨hqueue₁.links, hqueue₁.front, hqueue₁.back, hqueue₁.nodup, hqueue₁.size⟩ hx
      (by omega) hxprev hpqueue hlength
  refine henqueue.bind fun _ s₃ h₃ => ?_
  obtain ⟨hqueue₃, hlinked₃, htable₃⟩ := h₃
  have hins₂ : Inserted s p k v { s₁ with size := s.size + (s.buffers v).length } :=
    ⟨hins₁.key, hins₁.value, hins₁.key_ne, hins₁.value_ne, hins₁.isSome, hins₁.strings,
      hins₁.buffers⟩
  have hins := hins₂.relinked hlinked₃
  refine ⟨rfl, hins, ?_, hqueue₃, ?_, ?_, ?_, ?_⟩
  · intro q hq
    rcases (hins.isSome q).mp hq with rfl | hq
    · exact ⟨h0, hlt⟩
    · exact h.address q hq
  · intro c
    have harr₃ : s₃.arr c = s₁.arr c := congrFun htable₃.arr c
    rw [harr₃]
    by_cases hc : c = b
    · subst hc
      rw [Function.update_self]
      exact hchain₁.congr fun q _ => htable₃.hashNext q
    · rw [Function.update_of_ne hc, harr₁ c hc]
      refine (hchain₀ c).congr fun q hq => (htable₃.hashNext q).trans (hother₁ q fun hqb => ?_)
      exact hc (((h.bin c q).mp hq).2.symm.trans ((h.bin b q).mp hqb).2)
  · intro c q
    by_cases hqp : q = p
    · rw [hqp, hins.bin, hb]
      by_cases hc : c = b
      · rw [hc, Function.update_self]
        simp
      · rw [Function.update_of_ne hc]
        simp [hpchain c, Ne.symm hc]
    · rw [hins.bin_ne hqp, List.mem_cons, or_iff_right hqp, ← h.bin]
      by_cases hc : c = b
      · rw [hc, Function.update_self]
        simp [hqp]
      · rw [Function.update_of_ne hc]
  · have hmap : queue.map s₃.valueLength = queue.map s.valueLength :=
      List.map_congr_left fun q hq => hins.valueLength_ne (hne q hq)
    rw [hlinked₃.size, List.map_cons, List.sum_cons, hins.valueLength, hmap, ← h.size, Nat.add_comm]
  · rw [hlinked₃.size]
    exact hfits

theorem cacheInsert_reject (h : Represents s queue chains) (hp : s.nodes p = none) (h0 : 0 < p)
    (hlt : p < 2 ^ 64) (hlen : maxObjectSize ≤ (s.buffers v).length) :
    wp (cacheInsert n p k v) E
      (fun a s' => a = 0 ∧ Inserted s p k v s' ∧ Represents s' queue chains) s := by
  have hpqueue : p ∉ queue := fun hq => by
    have hsome := h.row.isSome hq
    rw [hp] at hsome
    cases hsome
  have hne : ∀ q ∈ queue, q ≠ p := fun q hq hqp => hpqueue (hqp ▸ hq)
  have hins : Inserted s p k v (s.set p ⟨0, 0, 0, k, v⟩) := inserted_set
  rw [cacheInsert, wp_bind_of_ok (initNode_eq hp h0 hlt), wp_bind, wp_reads, wp_bind, wp_reads,
    wp_bind, wp_reads, if_pos (hins.buffers ▸ hlen)]
  refine ⟨rfl, hins, ?_, ⟨?_, h.row.front, h.row.back, h.row.nodup, h.row.size⟩, ?_, ?_, ?_,
    h.size_lt⟩
  · intro q hq
    rcases (hins.isSome q).mp hq with rfl | hq
    · exact ⟨h0, hlt⟩
    · exact h.address q hq
  · exact h.row.links.congr (fun q hq => prev_set_ne (hne q hq)) fun q hq => next_set_ne (hne q hq)
  · intro c
    exact (h.chain c).congr fun q hq => hashNext_set_ne (hne q ((h.bin c q).mp hq).1)
  · intro c q
    rw [h.bin]
    refine and_congr_right fun hq => ?_
    rw [hins.bin_ne (hne q hq)]
  · have hmap : queue.map (s.set p ⟨0, 0, 0, k, v⟩).valueLength = queue.map s.valueLength :=
      List.map_congr_left fun q hq => hins.valueLength_ne (hne q hq)
    rw [hmap]
    exact h.size

theorem queueUpdate_represents {xs ys : List Nat} (h : Represents s (xs ++ p :: ys) chains) :
    wp (queueUpdate p) E (fun _ s' => Represents s' (p :: (xs ++ ys)) chains) s := by
  refine (queueUpdate_spec h.row).post fun _ s' ⟨hqueue, hlinked, htable⟩ => ?_
  have hperm : (xs ++ p :: ys).Perm (p :: (xs ++ ys)) := List.perm_middle
  refine ⟨fun q hq => h.address q (hlinked.isSome q ▸ hq), hqueue, fun c => ?_, fun c q => ?_,
    ?_, ?_⟩
  · rw [htable.arr]
    exact (h.chain c).congr fun q _ => htable.hashNext q
  · rw [h.bin, hperm.mem_iff, hlinked.bin]
  · have hmap : (p :: (xs ++ ys)).map s'.valueLength = (p :: (xs ++ ys)).map s.valueLength :=
      List.map_congr_left fun q _ => hlinked.valueLength q
    rw [hlinked.size, h.size, hmap]
    exact (hperm.map _).sum_eq
  · rw [hlinked.size]
    exact h.size_lt

end CS24.Proxy
