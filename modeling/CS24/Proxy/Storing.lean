import CS24.Proxy.Response

/-!
# What a response leaves in the cache

Each piece of a response is inserted anew, under the same key and with the same buffer, and
nothing is taken out again when the loop fails. So there is one entry with the whole body
only if the body comes in one piece. All this holds also when insertions evict.
-/

namespace CS24.Proxy
open Machine Linked

variable {s s' s₀ : State} {n p q k v b key buffer : Nat} {events : List Event}
  {host path sent : Bytes} {chains chains' chains₀ : Nat → List Nat} {ps : List Nat}

/-- The chains of the hash table, whatever the queue is. -/
structure Table (s : State) (chains : Nat → List Nat) : Prop where
  chain : ∀ b, Chain s.hashNext (s.arr b) (chains b)
  bin : ∀ b, ∀ q ∈ chains b, s.bin q = b

theorem Represents.table {queue : List Nat} (h : Represents s queue chains) : Table s chains :=
  ⟨h.chain, fun b q hq => ((h.bin b q).mp hq).2⟩

theorem Table.inCache_iff (h : Table s chains) : InCache s q ↔ ∃ b, q ∈ chains b := by
  constructor
  · rintro ⟨b, l, hl, hq⟩
    exact ⟨b, hl.unique (h.chain b) ▸ hq⟩
  · rintro ⟨b, hq⟩
    exact ⟨b, _, h.chain b, hq⟩

theorem hashNext_eq_entry (s : State) (p : Nat) :
    s.hashNext p = (s.entry p).map fun e => e.2.2 := by
  rw [State.hashNext, State.entry, Option.map_map]
  rfl

theorem key_eq_entry (s : State) (p : Nat) : s.key p = ((s.entry p).map Prod.fst).getD 0 := by
  rw [State.key, State.entry, Option.map_map]
  rfl

theorem value_eq_entry (s : State) (p : Nat) :
    s.value p = ((s.entry p).map fun e => e.2.1).getD 0 := by
  rw [State.value, State.entry, Option.map_map]
  rfl

theorem Table.isSome (h : Table s chains) (hq : q ∈ chains b) : (s.nodes q).isSome := by
  obtain ⟨-, a, ha⟩ := (h.chain b).mem_some hq
  obtain ⟨x, hx, -⟩ := exists_node_of_hashNext ha
  rw [hx]
  rfl

theorem Table.congr (h : Table s chains) (he : ∀ b, ∀ q ∈ chains b, s'.entry q = s.entry q)
    (harr : s'.arr = s.arr) (hstrings : s'.strings = s.strings) : Table s' chains := by
  constructor
  · intro b
    rw [harr]
    refine (h.chain b).congr fun q hq => ?_
    rw [hashNext_eq_entry, he b q hq, ← hashNext_eq_entry]
  · intro b q hq
    rw [State.bin, key_eq_entry, he b q hq, ← key_eq_entry, hstrings]
    exact h.bin b q hq

theorem Evicted.refl : Evicted s s :=
  ⟨rfl, rfl, rfl, fun _ => .inl rfl, fun _ => .inl rfl⟩

theorem evict_evicted (m : Nat) : wp (evict n m) (fun _ => True) (fun _ s' => Evicted s s') s := by
  by_cases hover : maxCacheSize ≤ (s.size + n) % 2 ^ 64
  · exact (evict_effect hover m).post fun _ _ h => h.1
  · cases m with
    | zero => trivial
    | succ m =>
      rw [evict, wp_bind, wp_reads, if_neg hover]
      exact .refl

theorem Table.evicted (h : Table s chains) (he : Evicted s s') :
    Table s' (fun b => if s'.arr b = 0 then [] else chains b) ∧
      ∀ b, s'.arr b ≠ 0 → ∀ q ∈ chains b, s'.entry q = s.entry q := by
  have hentry : ∀ b, s'.arr b ≠ 0 → ∀ q ∈ chains b, s'.entry q = s.entry q := by
    intro b hb q hq
    rcases he.entry q with heq | ⟨-, h0, c, hc, hempty⟩
    · exact heq
    · -- the node was the first of a bin, which is this one
      have hmem : q ∈ chains c := by
        have hchain := h.chain c
        cases hl : chains c with
        | nil =>
          rw [hl] at hchain
          exact absurd (hc.symm.trans hchain) h0
        | cons a l =>
          rw [hl] at hchain
          rw [← hc, hchain.1]
          exact List.mem_cons_self ..
      have hbc : b = c := (h.bin b q hq).symm.trans (h.bin c q hmem)
      exact absurd (hbc ▸ hempty) hb
  refine ⟨⟨fun b => ?_, fun b q hq => ?_⟩, hentry⟩
  · by_cases hb : s'.arr b = 0
    · rw [if_pos hb]
      exact hb
    · rw [if_neg hb]
      have harr : s'.arr b = s.arr b := (he.arr b).resolve_right fun h0 => hb h0.1
      rw [harr]
      refine (h.chain b).congr fun q hq => ?_
      rw [hashNext_eq_entry, hentry b hb q hq, ← hashNext_eq_entry]
  · split_ifs at hq with hb
    · cases hq
    · rw [State.bin, key_eq_entry, hentry b hb q hq, ← key_eq_entry, he.strings]
      exact h.bin b q hq

theorem initNode_allocated {Q : Unit → State → Prop}
    (h : 0 < p → p < 2 ^ 64 → s.nodes p = none → Q () (s.set p ⟨0, 0, 0, k, v⟩)) :
    wp (initNode p k v) (fun _ => True) Q s := by
  by_cases hp : 0 < p ∧ p < 2 ^ 64 ∧ s.nodes p = none
  · obtain ⟨h0, hlt, hnone⟩ := hp
    exact wp_of_ok (initNode_eq hnone h0 hlt) (h h0 hlt hnone)
  · have hbad : p = 0 ∨ 2 ^ 64 ≤ p ∨ (s.nodes p).isSome := by
      by_contra hok
      simp only [not_or, Bool.not_eq_true, Option.isSome_eq_false_iff, Option.isNone_iff_eq_none]
        at hok
      exact hp ⟨by omega, by omega, hok.2.2⟩
    rw [initNode, wp_bind, wp_reads, if_pos hbad]
    trivial

theorem Table.append (h : Table s chains) (hp : s.bin p = b)
    (hchain : Chain s'.hashNext (s'.arr b) (chains b ++ [p]))
    (hnext : ∀ q, q ∉ chains b → s'.hashNext q = s.hashNext q)
    (harr : ∀ c, c ≠ b → s'.arr c = s.arr c) (hlinked : Relinked s s') :
    Table s' (Function.update chains b (chains b ++ [p])) := by
  constructor
  · intro c
    by_cases hc : c = b
    · rw [hc, Function.update_self]
      exact hchain
    · rw [Function.update_of_ne hc, harr c hc]
      refine (h.chain c).congr fun q hq => hnext q fun hqb => hc ?_
      exact (h.bin c q hq).symm.trans (h.bin b q hqb)
  · intro c q hq
    rw [hlinked.bin]
    by_cases hc : c = b
    · rw [hc, Function.update_self, List.mem_append, List.mem_singleton] at hq
      rw [hc]
      exact hq.elim (h.bin b q) fun hqp => hqp ▸ hp
    · rw [Function.update_of_ne hc] at hq
      exact h.bin c q hq

/-- From `s` to `s'` the cache got the nodes `ps` with the key `k` and the buffer `v`. Other
bins may have been emptied. -/
structure Stores (s s' : State) (chains chains' : Nat → List Nat) (k v : Nat) (ps : List Nat) :
    Prop where
  table : Table s' chains'
  strings : s'.strings = s.strings
  bin : chains' (hash (s.strings k)) = chains (hash (s.strings k)) ++ ps
  other : ∀ b, b ≠ hash (s.strings k) → chains' b = chains b ∨ chains' b = []
  old : ∀ b, ∀ q ∈ chains b, q ∈ chains' b → s'.key q = s.key q ∧ s'.value q = s.value q
  new : ∀ q ∈ ps, s'.key q = k ∧ s'.value q = v

theorem Stores.refl (h : Table s chains) : Stores s s chains chains k v [] :=
  ⟨h, rfl, (List.append_nil _).symm, fun _ _ => .inl rfl, fun _ _ _ _ => ⟨rfl, rfl⟩,
    fun q hq => by cases hq⟩

theorem Stores.trans {s₁ s₂ : State} {chains₁ chains₂ : Nat → List Nat} {qs : List Nat}
    (h : Stores s s₁ chains chains₁ k v ps) (h' : Stores s₁ s₂ chains₁ chains₂ k v qs) :
    Stores s s₂ chains chains₂ k v (ps ++ qs) := by
  have hbin := h'.bin
  rw [h.strings] at hbin
  have hother := h'.other
  rw [h.strings] at hother
  refine ⟨h'.table, h'.strings.trans h.strings, ?_, fun b hb => ?_, fun b q hq hq₂ => ?_,
    fun q hq => ?_⟩
  · rw [hbin, h.bin, List.append_assoc]
  · rcases hother b hb with heq | hnil
    · rw [heq]
      exact h.other b hb
    · exact .inr hnil
  · have hq₁ : q ∈ chains₁ b := by
      by_cases hb : b = hash (s.strings k)
      · rw [hb, h.bin]
        exact List.mem_append_left _ (hb ▸ hq)
      · rcases hother b hb with heq | hnil
        · exact heq ▸ hq₂
        · rw [hnil] at hq₂
          cases hq₂
    obtain ⟨hk, hv⟩ := h.old b q hq hq₁
    obtain ⟨hk', hv'⟩ := h'.old b q hq₁ hq₂
    exact ⟨hk'.trans hk, hv'.trans hv⟩
  · rcases List.mem_append.mp hq with hq | hq
    · obtain ⟨hk, hv⟩ := h.new q hq
      have hq₁ : q ∈ chains₁ (hash (s.strings k)) := h.bin ▸ List.mem_append_right _ hq
      obtain ⟨hk', hv'⟩ := h'.old _ q hq₁ (hbin ▸ List.mem_append_left _ hq₁)
      exact ⟨hk'.trans hk, hv'.trans hv⟩
    · exact h'.new q hq

theorem Stores.congr {s₁ s₂ : State} (h : Stores s s₁ chains chains' k v ps)
    (hentry : ∀ q, s₂.entry q = s₁.entry q) (harr : s₂.arr = s₁.arr)
    (hstrings : s₂.strings = s₁.strings) : Stores s s₂ chains chains' k v ps := by
  have hkey : ∀ q, s₂.key q = s₁.key q := fun q => by
    rw [key_eq_entry, hentry, ← key_eq_entry]
  have hvalue : ∀ q, s₂.value q = s₁.value q := fun q => by
    rw [value_eq_entry, hentry, ← value_eq_entry]
  refine ⟨h.table.congr (fun _ q _ => hentry q) harr hstrings, hstrings.trans h.strings, h.bin,
    h.other, fun b q hq hq' => ?_, fun q hq => ?_⟩
  · rw [hkey, hvalue]
    exact h.old b q hq hq'
  · rw [hkey, hvalue]
    exact h.new q hq

theorem Table.chain_of_arr (h : Table s chains) (harr : s'.arr b = s.arr b) :
    (if s'.arr b = 0 then [] else chains b) = chains b := by
  rw [harr]
  by_cases h0 : s.arr b = 0
  · rw [if_pos h0, (h.chain b).zero_iff.mp h0]
  · rw [if_neg h0]

theorem chainAppend_stores (h : Table s chains) (he : Evicted s s')
    (hp : s'.entry p = some (k, v, 0)) (h0 : p ≠ 0) (hnew : ∀ b, p ∉ chains b)
    (harr : s'.arr (hash (s.strings k)) = s.arr (hash (s.strings k))) :
    wp (chainAppend n p (hash (s.strings k)) (s.arr (hash (s.strings k)))) (fun _ => True)
      (fun _ s'' => s''.buffers = s.buffers ∧
        ∃ chains', Stores s s'' chains chains' k v [p]) s' := by
  obtain ⟨ht, hentry⟩ := h.evicted he
  have hl := h.chain_of_arr harr
  have hchain := ht.chain (hash (s.strings k))
  have hkey : s'.key p = k := by rw [key_eq_entry, hp]; rfl
  have hvalue : s'.value p = v := by rw [value_eq_entry, hp]; rfl
  obtain ⟨x, hx, hentry_p⟩ := Option.map_eq_some_iff.mp hp
  have hbin : s'.bin p = hash (s.strings k) := by rw [State.bin, hkey, he.strings]
  rw [hl] at hchain
  rw [← harr]
  refine (chainAppend_spec hchain hx h0 (congrArg (fun e => e.2.2) hentry_p) (hnew _)
    (.inl trivial)).post fun _ s₂ happend => ?_
  obtain ⟨hchain₂, hnext, harr₂, hlinked, -⟩ := happend
  have ht₂ := ht.append hbin (by rwa [hl]) (by rwa [hl]) harr₂ hlinked
  rw [hl] at ht₂
  refine ⟨hlinked.buffers.trans he.buffers, _, ht₂, hlinked.strings.trans he.strings, ?_,
    fun b hb => ?_, fun b q hq hq' => ?_, fun q hq => ?_⟩
  · rw [Function.update_self]
  · rw [Function.update_of_ne hb]
    split_ifs
    · exact .inr rfl
    · exact .inl rfl
  · have hne : s'.arr b ≠ 0 := by
      intro hb0
      by_cases hb : b = hash (s.strings k)
      · rw [hb, harr] at hb0
        rw [hb, (h.chain _).zero_iff.mp hb0] at hq
        cases hq
      · rw [Function.update_of_ne hb, if_pos hb0] at hq'
        cases hq'
    rw [hlinked.key, hlinked.value, key_eq_entry, value_eq_entry, hentry b hne q hq,
      ← key_eq_entry, ← value_eq_entry]
    exact ⟨rfl, rfl⟩
  · rw [List.mem_singleton.mp hq, hlinked.key, hlinked.value]
    exact ⟨hkey, hvalue⟩

theorem Table.fresh (h : Table s chains) (hnone : s.nodes p = none) (b : Nat) : p ∉ chains b := by
  intro hb
  have hsome := h.isSome hb
  rw [hnone] at hsome
  cases hsome

theorem Table.set_fresh {x : Node} (h : Table s chains) (hnone : s.nodes p = none) :
    Table (s.set p x) chains := by
  refine h.congr (fun b q hq => ?_) rfl rfl
  have hqp : q ≠ p := fun hqp => h.fresh hnone b (hqp ▸ hq)
  rw [State.entry, nodes_set_ne hqp]
  rfl

theorem Stores.of_set {x : Node} (h : Table s chains) (hnone : s.nodes p = none)
    (hs' : Stores (s.set p x) s' chains chains' k v ps) : Stores s s' chains chains' k v ps := by
  refine ⟨hs'.table, hs'.strings, hs'.bin, hs'.other, fun b q hq hq' => ?_, hs'.new⟩
  obtain ⟨hk, hv⟩ := hs'.old b q hq hq'
  have hqp : q ≠ p := fun hqp => h.fresh hnone b (hqp ▸ hq)
  rw [hk, hv, State.key, State.value, nodes_set_ne hqp]
  exact ⟨rfl, rfl⟩

theorem cacheInsert_stores (h : Table s chains) : wp (cacheInsert n p k v) (fun _ => True)
    (fun _ s' => s'.buffers = s.buffers ∧ ∃ chains', Stores s s' chains chains' k v
      (if (s.buffers v).length < maxObjectSize then [p] else [])) s := by
  rw [cacheInsert, wp_bind]
  refine initNode_allocated fun h0 _ hnone => ?_
  have hnew := h.fresh hnone
  have hself : (s.set p ⟨0, 0, 0, k, v⟩).nodes p = some ⟨0, 0, 0, k, v⟩ := nodes_set_self
  have htable := h.set_fresh (x := ⟨0, 0, 0, k, v⟩) hnone
  have hset : ∀ {s' chains' ps}, Stores (s.set p ⟨0, 0, 0, k, v⟩) s' chains chains' k v ps →
      Stores s s' chains chains' k v ps := fun hs' => hs'.of_set h hnone
  have hbuffers : (s.set p ⟨0, 0, 0, k, v⟩).buffers = s.buffers := rfl
  generalize s.set p ⟨0, 0, 0, k, v⟩ = s₀ at *
  rw [wp_bind, wp_reads, wp_bind, wp_reads, wp_bind, wp_reads, wp_ite, ← hbuffers]
  constructor
  · intro hlong
    rw [wp_pure, if_neg (by omega)]
    exact ⟨rfl, chains, hset (.refl htable)⟩
  intro hshort
  rw [if_pos (by omega)]
  refine (evict_evicted n).bind fun _ s₁ hevict => ?_
  have happend : wp (chainAppend n p (hash (s₀.strings k)) (s₀.arr (hash (s₀.strings k))))
      (fun _ => True) (fun _ s₂ => s₂.buffers = s₀.buffers ∧
        ∃ chains', Stores s₀ s₂ chains chains' k v [p]) s₁ := by
    have hp₁ : s₁.entry p = some (k, v, 0) := by
      rcases hevict.entry p with he | ⟨-, -, b, hb, -⟩
      · rw [he, State.entry, hself]
        rfl
      · -- a first node of a bin is not new
        have hchain := htable.chain b
        cases hl : chains b with
        | nil =>
          rw [hl] at hchain
          exact absurd (hb.symm.trans hchain) h0.ne'
        | cons a l =>
          rw [hl] at hchain
          exact absurd (by rw [hl, ← hb, hchain.1]; exact List.mem_cons_self ..) (hnew b)
    rcases hevict.arr (hash (s₀.strings k)) with harr | ⟨harr, hfree⟩
    · exact chainAppend_stores htable hevict hp₁ h0.ne' hnew harr
    · by_cases hempty : s₀.arr (hash (s₀.strings k)) = 0
      · exact chainAppend_stores htable hevict hp₁ h0.ne' hnew (harr.trans hempty.symm)
      · exact chainAppend_freed hempty (hfree hempty)
  refine happend.bind fun _ s₂ h₂ => ?_
  obtain ⟨hbuffers₂, chains', hstores⟩ := h₂
  rw [wp_bind, wp_modify]
  refine enqueue_effect.bind fun _ s₃ h₃ => ?_
  have hs₃ := h₃.1
  rw [wp_pure]
  exact ⟨hs₃.buffers.trans hbuffers₂, chains',
    hset (hstores.congr hs₃.entry hs₃.arr hs₃.strings)⟩

theorem Buffer.data_append (b : Buffer) (l : Bytes) (i : Nat) : (b.append l).data i =
    if b.length ≤ i then l.getD (i - b.length) 0 else b.data i := by
  have hresize : ∀ n, (b.resize n).length = b.length ∧ (b.resize n).data = b.data := by
    intro n
    rw [Buffer.resize]
    split_ifs <;> exact ⟨rfl, rfl⟩
  obtain ⟨hlength, hdata⟩ := hresize (b.length + l.length)
  change (if (b.resize (b.length + l.length)).length ≤ i then
    l.getD (i - (b.resize (b.length + l.length)).length) 0
    else (b.resize (b.length + l.length)).data i) = _
  rw [hlength, hdata]

theorem Buffer.length_append (b : Buffer) (l : Bytes) :
    (b.append l).length = b.length + l.length := by
  change (b.resize (b.length + l.length)).length + l.length = _
  rw [Buffer.resize]
  split_ifs <;> rfl

theorem Buffer.bytes_append (b : Buffer) (l : Bytes) : (b.append l).bytes = b.bytes ++ l := by
  refine List.ext_getElem ?_ fun i hi hi' => ?_
  · simp [Buffer.bytes, Buffer.length_append]
  · simp only [Buffer.bytes, List.getElem_map, List.getElem_range, Buffer.data_append,
      List.getElem_append, List.length_map, List.length_range]
    simp only [Buffer.bytes, List.length_append, List.length_map, List.length_range] at hi'
    by_cases hle : b.length ≤ i
    · rw [if_pos hle, dif_neg (by omega), List.getD_eq_getElem?_getD, List.getElem?_eq_getElem
        (by omega), Option.getD_some]
    · rw [if_neg hle, dif_pos (by omega)]

theorem Buffer.create_eq (n : Nat) :
    (Buffer.create n).length = 0 ∧ (Buffer.create n).bytes = [] := by
  have hlength : (Buffer.create n).length = 0 := by
    rw [Buffer.create, Buffer.resize]
    split_ifs <;> rfl
  exact ⟨hlength, by rw [Buffer.bytes, hlength]; rfl⟩

structure Passed (s s' : State) (chains : Nat → List Nat) (key buffer : Nat)
    (events : List Event) : Prop where
  bytes : (s'.buffers buffer).bytes = (s.buffers buffer).bytes ++ clientBytes events
  other : ∀ b, b ≠ buffer → s'.buffers b = s.buffers b
  same : pieces events = [] → s' = s
  stores : ∃ chains' ps, Stores s s' chains chains' key buffer ps ∧
    ((s.buffers buffer).length + (clientBytes events).length < maxObjectSize →
      ps.length = (pieces events).length) ∧
    ((s.buffers buffer).length + bufferSize < maxObjectSize → pieces events ≠ [] → ps ≠ [])

theorem Passed.refl (h : Table s chains) (hnil : pieces events = []) :
    Passed s s chains key buffer events := by
  refine ⟨?_, fun _ _ => rfl, fun _ => rfl, chains, [], .refl h, fun _ => ?_, fun _ hne => ?_⟩
  · rw [clientBytes, hnil]
    exact (List.append_nil _).symm
  · rw [hnil]
    rfl
  · exact absurd hnil hne

theorem Passed.cons {s₁ : State} {chains₁ : Nat → List Nat} {bytes : Bytes} {written : Nat}
    (hvalid : (Event.piece bytes (some written) p).Valid)
    (hs₁ : s₁.buffers = Function.update s.buffers buffer
      ((s.buffers buffer).append (bytes.take written)))
    (hstores : Stores s s₁ chains chains₁ key buffer
      (if (s₁.buffers buffer).length < maxObjectSize then [p] else []))
    (h : Passed s₁ s' chains₁ key buffer events) :
    Passed s s' chains key buffer (.piece bytes (some written) p :: events) := by
  have hpieces : pieces (.piece bytes (some written) p :: events) =
    (bytes, written) :: pieces events := rfl
  have hclient : clientBytes (.piece bytes (some written) p :: events) =
    bytes.take written ++ clientBytes events := List.flatMap_cons ..
  have hbuffer : s₁.buffers buffer = (s.buffers buffer).append (bytes.take written) := by
    rw [hs₁, Function.update_self]
  have hlength : (s₁.buffers buffer).length =
      (s.buffers buffer).length + (bytes.take written).length := by
    rw [hbuffer, Buffer.length_append]
  have htake : (bytes.take written).length ≤ bufferSize := by
    have hle : bytes.length ≤ bufferSize := hvalid.2.1
    rw [List.length_take]
    omega
  obtain ⟨chains', ps, hps, hall, _⟩ := h.stores
  refine ⟨?_, fun b hb => ?_, fun hnil => ?_, chains', _, hstores.trans hps, fun hlt => ?_,
    fun hlt _ => ?_⟩
  · rw [h.bytes, hbuffer, Buffer.bytes_append, hclient, List.append_assoc]
  · rw [h.other b hb, hs₁, Function.update_of_ne hb]
  · rw [hpieces] at hnil
    cases hnil
  · rw [hclient, List.length_append] at hlt
    rw [if_pos (by omega), hpieces, List.length_append, hall (by omega), List.length_cons]
    exact Nat.add_comm ..
  · rw [if_pos (by omega)]
    exact List.cons_ne_nil _ _

theorem sendLoop_passed (h : Table s chains) (hvalid : ∀ event ∈ events, event.Valid) :
    wp (sendLoop n key buffer events sent) (fun _ => True)
      (fun _ s' => Passed s s' chains key buffer events) s := by
  induction events generalizing s sent chains with
  | nil => trivial
  | cons event events ih =>
    cases event with
    | readError => exact .refl h rfl
    | eof => exact .refl h rfl
    | piece bytes written node =>
      cases written with
      | none => exact .refl h rfl
      | some written =>
        rw [sendLoop, wp_bind, wp_modify]
        generalize hs₁ : ({ s with
          buffers := Function.update s.buffers buffer
            ((s.buffers buffer).append (bytes.take written)) } : State) = s₁
        have hbuffers₁ : s₁.buffers = _ := congrArg State.buffers hs₁.symm
        have hstores₁ : ∀ {s₂ chains₂ ps}, Stores s₁ s₂ chains chains₂ key buffer ps →
            Stores s s₂ chains chains₂ key buffer ps := by
          subst hs₁
          exact fun hs => ⟨hs.table, hs.strings, hs.bin, hs.other, hs.old, hs.new⟩
        have htable₁ : Table s₁ chains := by
          subst hs₁
          exact ⟨h.chain, h.bin⟩
        refine (cacheInsert_stores htable₁).bind fun r s₂ h₂ => ?_
        obtain ⟨hbuffers₂, chains₂, hs₂⟩ := h₂
        have hmove : wp (if r ≠ 0 then do
            queueUpdate r
            let _ ← peek
          else pure ()) (fun _ => True) (fun _ s₃ => Requeued s₂ s₃) s₂ := by
          rw [wp_ite]
          refine ⟨fun _ => ?_, fun _ => .refl⟩
          refine queueUpdate_effect.bind fun _ s₃ hs₃ => ?_
          rw [wp_bind, peek, wp_bind, wp_reads, wp_bind]
          exact wp_deref trivial fun _ _ => hs₃
        refine hmove.bind fun _ s₃ hs₃ => ?_
        have hstores := hstores₁ (hs₂.congr hs₃.entry hs₃.arr hs₃.strings)
        have hbuffers₃ := hs₃.buffers.trans hbuffers₂
        rw [← hbuffers₃] at hstores
        refine (ih hstores.table fun e he => hvalid e (by simp [he])).post fun _ s' hs' => ?_
        exact .cons (hvalid _ (by simp)) (hbuffers₃.trans hbuffers₁) hstores hs'

/-- The cache has a node with this key string and these bytes. -/
def Entry (s : State) (string body : Bytes) : Prop :=
  ∃ q, InCache s q ∧ s.strings (s.key q) = string ∧ (s.buffers (s.value q)).bytes = body

/-- The cache has just one node with this key string, and it has these bytes. -/
def OneEntry (s : State) (string body : Bytes) : Prop :=
  ∃ q, (∀ q', InCache s q' ∧ s.strings (s.key q') = string ↔ q' = q) ∧
    (s.buffers (s.value q)).bytes = body

/-- The key and the buffer are new, and no key string in the cache is that of the request. -/
structure Miss (s : State) (string : Bytes) (key buffer : Nat) : Prop where
  key : ∀ q, InCache s q → s.key q ≠ key
  buffer : ∀ q, InCache s q → s.value q ≠ buffer
  absent : ∀ q, InCache s q → s.strings (s.key q) ≠ string

/-- The cache with the key and the buffer of the request beside it. -/
def State.request (s : State) (string : Bytes) (key buffer : Nat) : State :=
  { s with
    strings := Function.update s.strings key string
    buffers := Function.update s.buffers buffer (.create bufferSize) }

theorem containsFrom_absent {l : List Nat} (h : Chain s.hashNext p l)
    (hkey : ∀ q ∈ l, s.key q ≠ key) : wp (containsFrom key n p) (fun _ => True)
      (fun r s' => r = 0 ∧ s' = s) s := by
  induction n generalizing p l with
  | zero => trivial
  | succ n ih =>
    rw [containsFrom, wp_ite]
    refine ⟨fun _ => ⟨rfl, rfl⟩, fun hp => ?_⟩
    cases l with
    | nil => exact absurd h hp
    | cons a l =>
      obtain ⟨rfl, h0, c, hc, hrest⟩ := h
      obtain ⟨x, hx, rfl⟩ := exists_node_of_hashNext hc
      have hxkey : x.key ≠ key := by
        have hne := hkey p (List.mem_cons_self ..)
        rw [State.key, hx] at hne
        exact hne
      rw [wp_bind_of_ok (deref_eq hx), if_neg hxkey]
      exact ih hrest fun q hq => hkey q (List.mem_cons_of_mem _ hq)

theorem Miss.table {string : Bytes} (hmiss : Miss s string key buffer) (h : Table s chains) :
    Table (s.request string key buffer) chains := by
  refine ⟨h.chain, fun b q hq => ?_⟩
  have hne := hmiss.key q (h.inCache_iff.mpr ⟨b, hq⟩)
  rw [← h.bin b q hq]
  exact congrArg hash (Function.update_of_ne hne ..)

theorem sendResponse_passed (h : Table s chains)
    (hmiss : Miss s (makeKey host path) key buffer) (hvalid : ∀ event ∈ events, event.Valid) :
    wp (sendResponse n host path key buffer events) (fun _ => True) (fun _ s' =>
      Passed (s.request (makeKey host path) key buffer) s' chains key buffer events) s := by
  have hkey : ∀ b, ∀ q ∈ chains b, s.key q ≠ key := fun b q hq =>
    hmiss.key q (h.inCache_iff.mpr ⟨b, hq⟩)
  have hcontains : wp (contains n key) (fun _ => True) (fun r s' => r = 0 ∧
      s' = { s with strings := Function.update s.strings key (makeKey host path) })
      { s with strings := Function.update s.strings key (makeKey host path) } := by
    rw [contains, wp_bind, wp_reads, wp_bind, wp_reads]
    exact containsFrom_absent (h.chain _) (hkey _)
  rw [sendResponse, wp_bind, wp_modify]
  refine hcontains.bind fun r s₁ h₁ => ?_
  obtain ⟨hr, hs₁⟩ := h₁
  subst hr hs₁
  rw [if_neg (fun h => h rfl), wp_bind, wp_modify]
  exact sendLoop_passed (hmiss.table h) hvalid

theorem Stores.inCache_iff {string : Bytes} (hmiss : Miss s string key buffer)
    (h : Table s chains)
    (hs' : Stores (s.request string key buffer) s' chains chains' key buffer ps) :
    InCache s' q ∧ s'.strings (s'.key q) = string ↔ q ∈ ps := by
  have hkeystring : (s.request string key buffer).strings key = string := Function.update_self ..
  have hbin := hs'.bin
  rw [hkeystring] at hbin
  constructor
  · rintro ⟨hin, hstring⟩
    obtain ⟨b, hq⟩ := hs'.table.inCache_iff.mp hin
    have hb : hash string = b := by
      rw [← hstring]
      exact hs'.table.bin b q hq
    rw [← hb, hbin] at hq
    refine (List.mem_append.mp hq).resolve_left fun hold => ?_
    have hin : InCache s q := h.inCache_iff.mpr ⟨_, hold⟩
    obtain ⟨hk, -⟩ := hs'.old _ q hold (hbin ▸ List.mem_append_left _ hold)
    rw [hs'.strings, hk] at hstring
    refine hmiss.absent q hin (Eq.trans ?_ hstring)
    exact (Function.update_of_ne (hmiss.key q hin) ..).symm
  · intro hq
    obtain ⟨hk, -⟩ := hs'.new q hq
    refine ⟨hs'.table.inCache_iff.mpr ⟨_, hbin ▸ List.mem_append_right _ hq⟩, ?_⟩
    rw [hk, hs'.strings, hkeystring]

theorem Miss.entry_iff {string k body : Bytes} (hmiss : Miss s string key buffer) :
    Entry (s.request string key buffer) k body ↔ Entry s k body := by
  refine exists_congr fun q => ⟨?_, ?_⟩
  · rintro ⟨hin, hk, hbody⟩
    have hin : InCache s q := hin
    refine ⟨hin, Eq.trans ?_ hk, Eq.trans ?_ hbody⟩
    · exact (Function.update_of_ne (hmiss.key q hin) ..).symm
    · exact congrArg Buffer.bytes (Function.update_of_ne (hmiss.buffer q hin) ..).symm
  · rintro ⟨hin, hk, hbody⟩
    refine ⟨hin, Eq.trans ?_ hk, Eq.trans ?_ hbody⟩
    · exact Function.update_of_ne (hmiss.key q hin) ..
    · exact congrArg Buffer.bytes (Function.update_of_ne (hmiss.buffer q hin) ..)

theorem eq_singleton_of_mem_iff (hnodup : ps.Nodup) (h : ∀ q', q' ∈ ps ↔ q' = q) : ps = [q] := by
  have hperm : ps.Perm [q] := (List.perm_ext_iff_of_nodup hnodup (List.nodup_singleton q)).mpr
    fun q' => (h q').trans List.mem_singleton.symm
  exact List.perm_singleton.mp hperm

/-- When the response is complete, there is one entry with the whole body if and only if the
body came in one piece, which `write` took. When the loop fails, the cache is as it was if
and only if no piece came before. -/
theorem sendResponse_caches (h : Table s chains) (hmiss : Miss s (makeKey host path) key buffer)
    (hvalid : ∀ event ∈ events, event.Valid) {result : Bool}
    (hrun : sendResponse n host path key buffer events s = .ok ((result, sent), s')) :
    (result = true → (serverBytes events).length < maxObjectSize →
      (OneEntry s' (makeKey host path) (serverBytes events) ↔
        ∃ piece, pieces events = [piece] ∧ piece.2 = piece.1.length)) ∧
    (result = false → (((∀ string body, Entry s' string body ↔ Entry s string body) ∧
      s'.size = s.size) ↔ pieces events = [])) := by
  have hpassed := (sendResponse_passed h hmiss hvalid (n := n)).ok hrun
  obtain ⟨chains', ps, hstores, hall, hsome⟩ := hpassed.stores
  have hpieces := pieces_le hvalid
  have hbuffer : (s.request (makeKey host path) key buffer).buffers buffer = .create bufferSize :=
    Function.update_self ..
  obtain ⟨hlength, hempty⟩ := Buffer.create_eq bufferSize
  rw [hbuffer, hlength, Nat.zero_add] at hall hsome
  have hmem := fun q => hstores.inCache_iff (q := q) hmiss h
  have hbody : ∀ q ∈ ps, (s'.buffers (s'.value q)).bytes = clientBytes events := by
    intro q hq
    rw [(hstores.new q hq).2, hpassed.bytes, hbuffer, hempty, List.nil_append]
  have hnodup : ps.Nodup := by
    have hchain := (hstores.table.chain
      (hash ((s.request (makeKey host path) key buffer).strings key))).nodup
    rw [hstores.bin] at hchain
    exact (List.nodup_append.mp hchain).2.1
  have hfull := taken_eq_iff fun piece hpiece => (hpieces piece hpiece).2.2
  refine ⟨fun _ hshort => ?_, fun _ => ?_⟩
  · have hps := hall ((length_taken_le _).trans_lt hshort)
    constructor
    · rintro ⟨q, hone, hbytes⟩
      have hq := eq_singleton_of_mem_iff hnodup fun q' => (hmem q').symm.trans (hone q')
      rw [hbody q (hq ▸ List.mem_singleton_self q)] at hbytes
      rw [hq] at hps
      obtain ⟨piece, hpiece⟩ := List.length_eq_one_iff.mp hps.symm
      exact ⟨piece, hpiece, hfull.mp hbytes piece (hpiece ▸ List.mem_singleton_self piece)⟩
    · rintro ⟨piece, hpiece, htook⟩
      rw [hpiece] at hps hfull
      obtain ⟨q, hq⟩ := List.length_eq_one_iff.mp hps
      refine ⟨q, fun q' => (hmem q').trans (hq ▸ List.mem_singleton), ?_⟩
      rw [hbody q (hq ▸ List.mem_singleton_self q), clientBytes, serverBytes, hpiece]
      exact hfull.mpr fun _ hp => List.mem_singleton.mp hp ▸ htook
  · constructor
    · rintro ⟨hentries, -⟩
      by_contra hne
      have hps := hsome (by decide) hne
      obtain ⟨q, hq⟩ := List.exists_mem_of_ne_nil ps hps
      obtain ⟨hin, hstring⟩ := (hmem q).mpr hq
      obtain ⟨q', hin', hstring', -⟩ := (hentries _ _).mp ⟨q, hin, hstring, rfl⟩
      exact hmiss.absent q' hin' hstring'
    · intro hnil
      rw [hpassed.same hnil]
      exact ⟨fun _ _ => hmiss.entry_iff, rfl⟩

theorem emptyCache_table : Table emptyCache fun _ => [] := ⟨fun _ => rfl, fun _ _ hq => by cases hq⟩

theorem emptyCache_not_inCache : ¬ InCache emptyCache q := by
  rw [emptyCache_table.inCache_iff]
  rintro ⟨_, hq⟩
  cases hq

theorem emptyCache_miss (string : Bytes) : Miss emptyCache string key buffer :=
  ⟨fun _ h => absurd h emptyCache_not_inCache, fun _ h => absurd h emptyCache_not_inCache,
    fun _ h => absurd h emptyCache_not_inCache⟩

def onePiece : List Event := [.piece [72, 84] (some 2) 16, .eof]

theorem onePiece_valid : ∀ event ∈ onePiece, event.Valid := by
  simp [onePiece, Event.Valid, bufferSize]

theorem sendResponse_caches_one : ∃ s',
    sendResponse 9 (ascii "h") (ascii "/") 1 2 onePiece emptyCache = .ok ((true, [72, 84]), s') ∧
      OneEntry s' (makeKey (ascii "h") (ascii "/")) [72, 84] := by
  obtain ⟨s', hrun⟩ : ∃ s', sendResponse 9 (ascii "h") (ascii "/") 1 2 onePiece emptyCache =
      .ok ((true, [72, 84]), s') := ⟨_, rfl⟩
  refine ⟨s', hrun, ?_⟩
  exact ((sendResponse_caches emptyCache_table (emptyCache_miss _) onePiece_valid hrun).1 rfl
    (by decide)).mpr ⟨_, rfl, rfl⟩

theorem twoPieces_run : wp (sendResponse 9 (ascii "h") (ascii "/") 1 2 twoPieces)
    (fun _ => False) (fun r s' => r = (true, [72, 84, 84, 80]) ∧
      s'.arr (hash (makeKey (ascii "h") (ascii "/"))) = 16 ∧ s'.hashNext 16 = some 32 ∧
      s'.hashNext 32 = some 0 ∧ s'.strings (s'.key 16) = makeKey (ascii "h") (ascii "/") ∧
      s'.strings (s'.key 32) = makeKey (ascii "h") (ascii "/")) emptyCache := by
  decide +kernel

theorem readError_run : wp (sendResponse 9 (ascii "h") (ascii "/") 1 2
    [.piece [72, 84] (some 2) 16, .readError])
    (fun _ => False) (fun r s' => r = (false, [72, 84]) ∧
      s'.arr (hash (makeKey (ascii "h") (ascii "/"))) = 16 ∧ s'.hashNext 16 = some 0 ∧
      s'.strings (s'.key 16) = makeKey (ascii "h") (ascii "/") ∧
      (s'.buffers (s'.value 16)).bytes = [72, 84]) emptyCache := by
  decide +kernel

/-- The second piece is a second entry, and a piece before a failing read stays. -/
theorem partial_responses_are_cached :
    (∃ s', sendResponse 9 (ascii "h") (ascii "/") 1 2 twoPieces emptyCache =
        .ok ((true, [72, 84, 84, 80]), s') ∧
      ¬ OneEntry s' (makeKey (ascii "h") (ascii "/")) (serverBytes twoPieces)) ∧
    ∃ s', sendResponse 9 (ascii "h") (ascii "/") 1 2
        [.piece [72, 84] (some 2) 16, .readError] emptyCache = .ok ((false, [72, 84]), s') ∧
      Entry s' (makeKey (ascii "h") (ascii "/")) [72, 84] ∧
      ¬ Entry emptyCache (makeKey (ascii "h") (ascii "/")) [72, 84] := by
  constructor
  · obtain ⟨r, s', hs', rfl, harr, hnext, hnext', hkey, hkey'⟩ := twoPieces_run.returns
    have hchain : Chain s'.hashNext (s'.arr (hash (makeKey (ascii "h") (ascii "/")))) [16, 32] :=
      ⟨harr, by simp, 32, harr ▸ hnext, rfl, by decide, 0, hnext', rfl⟩
    refine ⟨s', hs', fun ⟨q, hone, _⟩ => ?_⟩
    have h16 := (hone 16).mp ⟨⟨_, _, hchain, by simp⟩, hkey⟩
    have h32 := (hone 32).mp ⟨⟨_, _, hchain, by simp⟩, hkey'⟩
    exact absurd (h16.trans h32.symm) (by decide)
  · obtain ⟨r, s', hs', rfl, harr, hnext, hkey, hbytes⟩ := readError_run.returns
    have hchain : Chain s'.hashNext (s'.arr (hash (makeKey (ascii "h") (ascii "/")))) [16] :=
      ⟨harr, by simp, 0, harr ▸ hnext, rfl⟩
    refine ⟨s', hs', ⟨16, ⟨_, _, hchain, by simp⟩, hkey, hbytes⟩, ?_⟩
    rintro ⟨q, hin, -⟩
    exact emptyCache_not_inCache hin

end CS24.Proxy
