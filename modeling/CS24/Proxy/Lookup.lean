import CS24.Proxy.Eviction

/-!
# Looking up a key

`contains` compares the pointers of keys and returns the first node it meets, which is the
oldest in its chain. After insertions without an eviction it finds the right value when the
pointer itself was used before, and its first insertion had the value that is current now.
-/

namespace CS24.Proxy
open Machine Linked

variable {s s' : State} {l : List Nat} {n p k v : Nat} {E : Stop → Prop}
  {strings : Nat → List UInt8} {buffers : Nat → Buffer}

structure Insertion where
  node : Nat
  key : Nat
  value : Nat

variable {es : List Insertion}

/-- After calls of `cache_insert` that evict nothing, of which these were accepted. -/
inductive Filled (strings : Nat → List UInt8) (buffers : Nat → Buffer) :
    List Insertion → State → Prop where
  | init : Filled strings buffers [] (initCache strings buffers)
  | accept {es : List Insertion} {s s' : State} {n p k v r : Nat} : Filled strings buffers es s →
      (Op.insert p k v).Allowed s → (buffers v).length < maxObjectSize →
      s.size + (buffers v).length < maxCacheSize → cacheInsert n p k v s = .ok (r, s') →
      Filled strings buffers (es ++ [⟨p, k, v⟩]) s'
  | reject {es : List Insertion} {s s' : State} {n p k v r : Nat} : Filled strings buffers es s →
      (Op.insert p k v).Allowed s → maxObjectSize ≤ (buffers v).length →
      cacheInsert n p k v s = .ok (r, s') → Filled strings buffers es s'

def inBin (strings : Nat → List UInt8) (es : List Insertion) (b : Nat) : List Insertion :=
  es.filter fun e => hash (strings e.key) = b

/-- The cache holds these insertions. -/
structure Holds (strings : Nat → List UInt8) (buffers : Nat → Buffer) (es : List Insertion)
    (s : State) : Prop where
  represents : Represents s (es.map Insertion.node).reverse
    fun b => (inBin strings es b).map Insertion.node
  content : ∀ e ∈ es, s.key e.node = e.key ∧ s.value e.node = e.value
  strings_eq : s.strings = strings
  buffers_eq : s.buffers = buffers

theorem Holds.ne_of_fresh (h : Holds strings buffers es s) (hp : s.nodes p = none) {e : Insertion}
    (he : e ∈ es) : e.node ≠ p := by
  intro hep
  have hmem : e.node ∈ (es.map Insertion.node).reverse :=
    List.mem_reverse.mpr (List.mem_map_of_mem he)
  have hsome := h.represents.row.isSome hmem
  rw [hep, hp] at hsome
  cases hsome

theorem Holds.accept (h : Holds strings buffers es s) (hop : (Op.insert p k v).Allowed s)
    (hlen : (buffers v).length < maxObjectSize)
    (hfits : s.size + (buffers v).length < maxCacheSize) :
    wp (cacheInsert n p k v) (fun _ => True)
      (fun _ s' => Holds strings buffers (es ++ [⟨p, k, v⟩]) s') s := by
  obtain ⟨h0, hlt, hp⟩ := hop
  have hbuffers := h.buffers_eq
  have hstrings := h.strings_eq
  subst hbuffers hstrings
  refine (cacheInsert_spec h.represents hp h0 hlt rfl hlen hfits (.inl trivial)).post
    fun _ s' ⟨_, hins, hrep⟩ => ⟨?_, fun e he => ?_, hins.strings, hins.buffers⟩
  · have hchains : (fun b => (inBin s.strings (es ++ [⟨p, k, v⟩]) b).map Insertion.node) =
        Function.update (fun b => (inBin s.strings es b).map Insertion.node) (hash (s.strings k))
          ((inBin s.strings es (hash (s.strings k))).map Insertion.node ++ [p]) := by
      funext b
      by_cases hb : b = hash (s.strings k)
      · subst hb
        simp [inBin]
      · rw [Function.update_of_ne hb]
        simp [inBin, Ne.symm hb]
    have hqueue : ((es ++ [(⟨p, k, v⟩ : Insertion)]).map Insertion.node).reverse =
        p :: (es.map Insertion.node).reverse := by simp
    rw [hchains, hqueue]
    exact hrep
  · rcases List.mem_append.mp he with he | he
    · have hne := h.ne_of_fresh hp he
      rw [hins.key_ne _ hne, hins.value_ne _ hne]
      exact h.content e he
    · rw [List.mem_singleton.mp he]
      exact ⟨hins.key, hins.value⟩

theorem Holds.reject (h : Holds strings buffers es s) (hop : (Op.insert p k v).Allowed s)
    (hlen : maxObjectSize ≤ (buffers v).length) :
    wp (cacheInsert n p k v) (fun _ => True) (fun _ s' => Holds strings buffers es s') s := by
  obtain ⟨h0, hlt, hp⟩ := hop
  have hbuffers := h.buffers_eq
  have hstrings := h.strings_eq
  subst hbuffers hstrings
  refine (cacheInsert_reject h.represents hp h0 hlt hlen).post
    fun _ s' ⟨_, hins, hrep⟩ => ⟨hrep, fun e he => ?_, hins.strings, hins.buffers⟩
  have hne := h.ne_of_fresh hp he
  rw [hins.key_ne _ hne, hins.value_ne _ hne]
  exact h.content e he

theorem Filled.holds (h : Filled strings buffers es s) : Holds strings buffers es s := by
  induction h with
  | init =>
    exact ⟨initCache_represents strings buffers, fun e he => (by cases he), rfl, rfl⟩
  | accept _ hop hlen hfits hrun ih => exact (ih.accept hop hlen hfits).ok hrun
  | reject _ hop hlen hrun ih => exact (ih.reject hop hlen).ok hrun

theorem containsFrom_spec (h : Chain s.hashNext p l) (hfuel : l.length < n) :
    containsFrom k n p s = .ok ((l.find? fun q => s.key q = k).getD 0, s) := by
  induction n generalizing p l with
  | zero => omega
  | succ n ih =>
    cases l with
    | nil =>
      rw [containsFrom, if_pos (show p = 0 from h)]
      rfl
    | cons a l =>
      obtain ⟨rfl, h0, c, hc, hrest⟩ := h
      obtain ⟨x, hx, rfl⟩ := exists_node_of_hashNext hc
      have hkey : s.key p = x.key := by
        rw [State.key, hx]
        rfl
      have hbind : containsFrom k (n + 1) p s =
          (if x.key = k then pure p else containsFrom k n x.hashTableNext : M Nat) s := by
        rw [containsFrom, if_neg h0, bind_of_ok (deref_eq hx)]
      rw [hbind, List.find?_cons, hkey]
      by_cases hk : x.key = k
      · rw [if_pos hk]
        simp only [hk, decide_true, Option.getD_some]
        rfl
      · rw [if_neg hk, ih hrest (by simpa using hfuel)]
        simp only [hk, decide_false]

/-- The insertion that `contains` finds. -/
def firstWithPointer (es : List Insertion) (k : Nat) : Option Insertion :=
  es.find? fun e => e.key = k

/-- The insertion that is current for a key string. -/
def lastWithString (strings : Nat → List UInt8) (es : List Insertion) (string : List UInt8) :
    Option Insertion :=
  (es.filter fun e => strings e.key = string).getLast?

theorem Holds.contains_eq (h : Holds strings buffers es s) (hfuel : es.length < n) :
    contains n k s = .ok (((firstWithPointer es k).map Insertion.node).getD 0, s) := by
  have hstrings := h.strings_eq
  subst hstrings
  have hlen : ((inBin s.strings es (hash (s.strings k))).map Insertion.node).length < n := by
    rw [List.length_map]
    exact (List.length_filter_le ..).trans_lt hfuel
  change containsFrom k n (s.arr (hash (s.strings k))) s = _
  rw [containsFrom_spec (h.represents.chain _) hlen, List.find?_map]
  have hfind : (inBin s.strings es (hash (s.strings k))).find?
      ((fun q => decide (s.key q = k)) ∘ Insertion.node) = firstWithPointer es k := by
    rw [inBin, List.find?_filter, firstWithPointer]
    refine List.find?_congr fun e he => ?_
    rw [Function.comp_apply, (h.content e he).1]
    by_cases hk : e.key = k
    · simp [hk]
    · simp [hk]
  rw [hfind]

/-- The result of looking `k` up is a node exactly if an accepted insertion used an equal key
string, and its value is that of the last such insertion. -/
structure LooksUp (strings : Nat → List UInt8) (es : List Insertion) (s : State) (k r : Nat) :
    Prop where
  found : r ≠ 0 ↔ ∃ e ∈ es, strings e.key = strings k
  value : ∀ e, lastWithString strings es (strings k) = some e → s.value r = e.value

theorem lastWithString_eq_none {string : List UInt8} :
    lastWithString strings es string = none ↔ ∀ e ∈ es, strings e.key ≠ string := by
  rw [lastWithString, List.getLast?_eq_none_iff, List.filter_eq_nil_iff]
  simp

theorem Holds.node_ne_zero (h : Holds strings buffers es s) {e : Insertion} (he : e ∈ es) :
    e.node ≠ 0 :=
  h.represents.row.links.mem_ne_zero (List.mem_reverse.mpr (List.mem_map_of_mem he))

/-- After insertions without an eviction, `contains` returns what it should for a pointer `k`
if and only if no insertion used an equal string, or the first insertion with the pointer `k`
has the value of the last one with an equal string. -/
theorem contains_looksUp (h : Filled strings buffers es s) (k : Nat) :
    ∃ enough r, (∀ n ≥ enough, contains n k s = .ok (r, s)) ∧
      (LooksUp strings es s k r ↔ (∀ e ∈ es, strings e.key ≠ strings k) ∨
        ∃ first last, firstWithPointer es k = some first ∧
          lastWithString strings es (strings k) = some last ∧ first.value = last.value) := by
  have hholds := h.holds
  refine ⟨es.length + 1, _, fun n hn => hholds.contains_eq hn, ?_⟩
  cases hfirst : firstWithPointer es k with
  | none =>
    constructor
    · intro hlooks
      refine .inl fun e he hk => ?_
      exact hlooks.found.mpr ⟨e, he, hk⟩ rfl
    · rintro (hnone | ⟨first, last, hf, -⟩)
      · refine ⟨iff_of_false (fun h0 => h0 rfl) fun ⟨e, he, hk⟩ => hnone e he hk, fun e he => ?_⟩
        rw [lastWithString_eq_none.mpr hnone] at he
        cases he
      · cases hf
  | some first =>
    have hmem : first ∈ es := List.mem_of_find?_eq_some hfirst
    have hkey : first.key = k := by simpa using List.find?_some hfirst
    have hstring : strings first.key = strings k := by rw [hkey]
    have h0 := hholds.node_ne_zero hmem
    have hvalue := (hholds.content first hmem).2
    rw [Option.map_some, Option.getD_some]
    constructor
    · intro hlooks
      cases hlast : lastWithString strings es (strings k) with
      | none => exact absurd hstring (lastWithString_eq_none.mp hlast first hmem)
      | some last =>
        exact .inr ⟨first, last, rfl, rfl, hvalue.symm.trans (hlooks.value last hlast)⟩
    · rintro (hnone | ⟨first', last, hf, hlast, heq⟩)
      · exact absurd hstring (hnone first hmem)
      · obtain rfl := Option.some.inj hf
        refine ⟨iff_of_true h0 ⟨first, hmem, hstring⟩, fun e he => ?_⟩
        rw [hlast] at he
        rw [← Option.some.inj he, hvalue, heq]

def sameString (_ : Nat) : List UInt8 := [97]

def smallBuffers (_ : Nat) : Buffer := ⟨fun _ => 0, 10, 10⟩

/-- One insertion, looked up with its own pointer. -/
theorem contains_looksUp_own : ∃ s r, Filled sameString smallBuffers [⟨16, 1, 0⟩] s ∧
    LooksUp sameString [⟨16, 1, 0⟩] s 1 r := by
  have hrun : ∃ r s', cacheInsert 2 16 1 0 (initCache sameString smallBuffers) = .ok (r, s') :=
    ⟨_, _, rfl⟩
  obtain ⟨r, s', hs'⟩ := hrun
  have hfilled : Filled sameString smallBuffers ([] ++ [⟨16, 1, 0⟩]) s' :=
    .accept .init ⟨by decide, by decide, rfl⟩ (by decide) (by decide) hs'
  obtain ⟨-, r, -, hiff⟩ := contains_looksUp hfilled 1
  exact ⟨s', r, hfilled, hiff.mpr (.inr ⟨_, _, rfl, rfl, rfl⟩)⟩

/-- The same string at another address is not found. -/
theorem contains_misses_equal_string : ∃ s, Filled sameString smallBuffers [⟨16, 1, 0⟩] s ∧
    contains 5 2 s = .ok (0, s) ∧ ¬ LooksUp sameString [⟨16, 1, 0⟩] s 2 0 := by
  refine ⟨_, Filled.accept (n := 2) .init ⟨by decide, by decide, rfl⟩ (by decide) (by decide) rfl,
    rfl, fun hlooks => ?_⟩
  exact hlooks.found.mpr ⟨_, List.mem_singleton_self _, rfl⟩ rfl

end CS24.Proxy
