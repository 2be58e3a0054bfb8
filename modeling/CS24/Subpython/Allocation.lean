import CS24.Machine.BestFit
import CS24.Subpython.Copying

/-!
# Allocation from the free list

`mm_malloc` on a heap: the first among the smallest free blocks that are large enough is
taken out of the free list, in whose place what is left of it stays when it is more than
a header. No live value changes.
-/

namespace CS24.Subpython
open Machine Mem

variable {m m' : Mem} {a b t n v size : Nat} {s : State} {L : Finset Int}
  {refs : Int → List Int} {fl before after zs : List Nat} {r u : Int} {E : Stop → Prop}

/-- The link behind the free values `xs`, the first of which `link` leads to. -/
def linkAfter : Link → List Nat → Link
  | link, [] => link
  | _, v :: xs => linkAfter (.next v) xs

theorem linkAfter_snoc (link : Link) (xs : List Nat) (v : Nat) :
    linkAfter link (xs ++ [v]) = .next v := by
  induction xs generalizing link with
  | nil => rfl
  | cons x xs ih => exact ih (.next x)

theorem Chain.follow {link : Link} {xs ys : List Nat}
    (h : Chain s.mem (link.follow s) (xs ++ ys)) :
    Chain s.mem ((linkAfter link xs).follow s) ys := by
  induction xs generalizing link with
  | nil => exact h
  | cons x xs ih =>
    obtain ⟨hx, -, -, hrest⟩ := h
    exact ih hrest

theorem Chain.follow_head {xs ys : List Nat} (h : Chain s.mem s.freeList (xs ++ ys)) :
    Chain s.mem ((linkAfter .head xs).follow s) ys := by
  have hhead : Chain s.mem (Link.head.follow s) (xs ++ ys) := h
  exact hhead.follow

theorem Chain.relink (h : Chain m a (before ++ v :: after))
    (hbefore : ∀ c ∈ before, Agree m m' c (c + 16)) (htype : typeOf m' v = typeOf m v)
    (hzs : Chain m' (nextFree m' v) zs) : Chain m' a (before ++ v :: zs) := by
  induction before generalizing a with
  | nil =>
    obtain ⟨rfl, hpos, hfree, -⟩ := h
    exact ⟨rfl, hpos, htype.trans hfree, hzs⟩
  | cons c before ih =>
    obtain ⟨rfl, hpos, hfree, hrest⟩ := h
    have hc := hbefore a (by simp)
    have hnext : nextFree m' a = nextFree m a := load64_congr (hc.mono (by omega) (by omega))
    refine ⟨rfl, hpos, (typeOf_congr (hc.mono le_rfl (by omega))).trans hfree, ?_⟩
    rw [hnext]
    exact ih hrest fun d hd => hbefore d (by simp [hd])

def Link.set (target : Nat) (s : State) : Link → State
  | .head => { s with freeList := target }
  | .next v => { s with mem := storeNext s.mem v target }

theorem Link.assign_eq (link : Link) : link.assign t s = .ok ((), link.set t s) := by
  cases link <;> rfl

theorem Link.set_rest (link : Link) :
    link.set t s = { s with mem := (link.set t s).mem, freeList := (link.set t s).freeList } := by
  cases link <;> rfl

theorem Link.set_outside {x : Nat} (h : ∀ v ∈ before, x < v + 8 ∨ v + 16 ≤ x) :
    ((linkAfter .head before).set t s).mem x = s.mem x := by
  rcases List.eq_nil_or_concat before with rfl | ⟨pre, v, rfl⟩
  · rfl
  · rw [List.concat_eq_append] at h ⊢
    rw [linkAfter_snoc]
    exact changesOnly_storeNext s.mem v t x (h v (by simp))

theorem Link.set_agree {lo hi : Nat} (h24 : ∀ v ∈ before, 24 ≤ valueSize s.mem v)
    (h : ∀ v ∈ before, v + valueSize s.mem v ≤ lo ∨ hi ≤ v) :
    Agree s.mem ((linkAfter .head before).set t s).mem lo hi := by
  intro x hlo hhi
  apply Link.set_outside
  intro v hv
  have h24 := h24 v hv
  have hapart := h v hv
  omega

instance (m : Mem) : Std.Symm (Apart m) := ⟨fun _ _ => Apart.symm⟩

theorem Link.valueSize_set {c : Nat} (h24 : ∀ v ∈ before, 24 ≤ valueSize s.mem v)
    (hpair : before.Pairwise (Apart s.mem)) (hc : c ∈ before) :
    valueSize ((linkAfter .head before).set t s).mem c = valueSize s.mem c := by
  apply valueSize_congr
  intro x hlo hhi
  apply Link.set_outside
  intro v hv
  by_cases hne : v = c
  · omega
  · have h24v := h24 v hv
    have h24c := h24 c hc
    rcases hpair.forall hv hc hne with hlt | hlt <;> omega

theorem Chain.lt (h : Chain s.mem a fl) (hin : ∀ b ∈ fl, InPool s b)
    (hend : s.memoryPool + s.memorySize < 2 ^ 64) : a < 2 ^ 64 := by
  cases fl with
  | nil =>
    rw [show a = 0 from h]
    decide
  | cons b fl =>
    obtain ⟨rfl, -⟩ := h
    obtain ⟨-, hle, -⟩ := hin a (by simp)
    omega

theorem Heap.relink (h : Heap L refs (before ++ b :: after) s)
    (hin : ∀ c ∈ zs, InPool s c) (hlive : ∀ r ∈ L, ∀ c ∈ zs, Apart s.mem (s.addr r) c)
    (hpair : (before ++ zs).Pairwise (Apart s.mem)) (hchain : Chain s.mem t zs) :
    Heap L refs (before ++ zs) ((linkAfter .head before).set t s) := by
  have hin₀ : ∀ c ∈ before, InPool s c := fun c hc => h.free c (by simp [hc])
  have h24 : ∀ c ∈ before, 24 ≤ valueSize s.mem c := fun c hc => (hin₀ c hc).2.2
  obtain ⟨hpair₀, -, happ⟩ := List.pairwise_append.mp hpair
  have ht := hchain.lt hin h.pool_end
  generalize hT : (linkAfter .head before).set t s = T
  have hrest : T = { s with mem := T.mem, freeList := T.freeList } := hT ▸ Link.set_rest _
  have haddr : ∀ u, T.addr u = s.addr u := fun u => by rw [hrest]; rfl
  have hpool : T.memoryPool = s.memoryPool := by rw [hrest]
  have hend : T.memorySize = s.memorySize := by rw [hrest]
  have hlen : T.refTable.length = s.refTable.length := by rw [hrest]
  have hagree : ∀ r ∈ L, Agree s.mem T.mem (s.addr r) (s.addr r + valueSize s.mem (s.addr r)) := by
    intro r hr
    rw [← hT]
    exact Link.set_agree h24 fun v hv => (h.free_apart r hr v (by simp [hv])).symm
  have hagree' : ∀ c ∈ zs, Agree s.mem T.mem c (c + valueSize s.mem c) := by
    intro c hc
    rw [← hT]
    exact Link.set_agree h24 fun v hv => happ v hv c hc
  have hsize : ∀ r ∈ L, valueSize T.mem (s.addr r) = valueSize s.mem (s.addr r) := fun r hr => by
    have h24r := (h.live r hr).1.2.2
    exact valueSize_congr ((hagree r hr).mono (by omega) (by omega))
  have hfsize : ∀ c ∈ before ++ zs, valueSize T.mem c = valueSize s.mem c := by
    intro c hc
    rcases List.mem_append.mp hc with hc | hc
    · rw [← hT]
      exact Link.valueSize_set h24 hpair₀ hc
    · have h24c := (hin c hc).2.2
      exact valueSize_congr ((hagree' c hc).mono (by omega) (by omega))
  constructor
  · exact hpool ▸ h.pool_pos
  · rw [hpool, hend]
    exact h.pool_end
  · rw [hlen]
    exact h.table
  · intro r hr
    obtain ⟨hinr, hext⟩ := h.live r hr
    rw [haddr]
    have hext' := (Kept.of_agree (hagree r hr) hinr.2.2).extent_eq hext
    unfold InPool at hinr ⊢
    rw [hsize r hr, hpool, hend, hext']
    exact ⟨hinr, hext⟩
  · intro c hc
    have hinc : InPool s c := by
      rcases List.mem_append.mp hc with hc | hc
      · exact hin₀ c hc
      · exact hin c hc
    unfold InPool at hinc ⊢
    rwa [hfsize c hc, hpool, hend]
  · intro r hr u hu hne
    rw [haddr, haddr]
    exact (h.live_apart r hr u hu hne).congr (hsize r hr) (hsize u hu)
  · intro r hr c hc
    rw [haddr]
    refine Apart.congr ?_ (hsize r hr) (hfsize c hc)
    rcases List.mem_append.mp hc with hc | hc
    · exact h.free_apart r hr c (by simp [hc])
    · exact hlive r hr c hc
  · exact hpair.imp_of_mem fun hb hc hbc => hbc.congr (hfsize _ hb) (hfsize _ hc)
  · have hzs : Chain T.mem t zs := hchain.congr fun c hc =>
      (hagree' c hc).mono le_rfl (by have := (hin c hc).2.2; omega)
    rcases List.eq_nil_or_concat before with rfl | ⟨pre, v, rfl⟩
    · rw [← hT] at hzs ⊢
      exact hzs
    · rw [List.concat_eq_append] at *
      rw [linkAfter_snoc] at hT
      have honly := changesOnly_storeNext s.mem v t
      have hhead : T.freeList = s.freeList := by rw [← hT]; rfl
      have hmem : T.mem = storeNext s.mem v t := by rw [← hT]; rfl
      have hchain₀ := h.chain
      rw [List.append_assoc, List.singleton_append] at hchain₀ ⊢
      rw [hhead]
      refine hchain₀.relink (fun c hc => ?_) ?_ ?_
      · have hne := (List.pairwise_append.mp hpair₀).2.2 c hc v (by simp)
        have h24c := h24 c (by simp [hc])
        have h24v := h24 v (by simp)
        rw [hmem]
        exact honly.agree (by rcases hne with hlt | hlt <;> omega)
      · rw [hmem]
        exact typeOf_congr (honly.agree (.inl (by omega)))
      · rw [hmem, nextFree_storeNext _ _ ht, ← hmem]
        exact hzs
  · exact h.closed

/-- What the loop of `mm_malloc` has found among the free values `seen`. -/
def Found (m : Mem) (size : Nat) (seen : List Nat) : Option Link → Nat → Prop
  | none, smallest => smallest = 2 ^ 64 - 1 ∧ NoFit (valueSize m) size seen
  | some link, smallest => ∃ before b after, seen = before ++ b :: after ∧
      link = linkAfter .head before ∧ smallest = valueSize m b ∧
      BestFit (valueSize m) size before b after

variable {best : Option Link} {smallest : Nat} {seen rest : List Nat}

theorem Found.take (h : Found m size seen best smallest) (hb : size ≤ valueSize m b)
    (hlt : valueSize m b < smallest) :
    Found m size (seen ++ [b]) (some (linkAfter .head seen)) (valueSize m b) := by
  refine ⟨seen, b, [], rfl, rfl, rfl, ?_⟩
  cases best with
  | none => exact h.2.first hb
  | some link =>
    obtain ⟨before, c, after, rfl, -, rfl, hbest⟩ := h
    exact hbest.replace hb hlt

theorem Found.skip (h : Found m size seen best smallest) (hmax : valueSize m b < 2 ^ 64 - 1)
    (hb : ¬(size ≤ valueSize m b ∧ valueSize m b < smallest)) :
    Found m size (seen ++ [b]) best smallest := by
  cases best with
  | none =>
    obtain ⟨rfl, hno⟩ := h
    exact ⟨rfl, hno.snoc (by omega)⟩
  | some link =>
    obtain ⟨before, c, after, rfl, hlink, rfl, hbest⟩ := h
    exact ⟨before, c, after ++ [b], by simp, hlink, rfl, hbest.keep (by omega)⟩

/-- `b`, behind the free values `before`, is taken out of the free list. What is left of it
takes its place if that is more than a header. -/
def State.allot (s : State) (before : List Nat) (b size : Nat) : State :=
  if 24 < valueSize s.mem b - size then
    (linkAfter .head before).set (b + size)
      { s with mem := (s.split b size (valueSize s.mem b)).mem }
  else (linkAfter .head before).set (nextFree s.mem b) s

/-- What is left of the block `b` after an allocation. -/
def State.remainder (s : State) (b size : Nat) : List Nat :=
  if 24 < valueSize s.mem b - size then [b + size] else []

/-- The heap after the allocation of the block `b`, which belongs to no list any more. -/
structure Allotted (L : Finset Int) (refs : Int → List Int) (before : List Nat) (b : Nat)
    (after : List Nat) (size : Nat) (s t : State) : Prop where
  heap : Heap L refs (before ++ (s.remainder b size ++ after)) t
  inPool : InPool t b
  type : typeOf t.mem b = some .free
  live_apart : ∀ u ∈ L, Apart t.mem (s.addr u) b
  free_apart : ∀ c ∈ before ++ (s.remainder b size ++ after), Apart t.mem b c
  kept : ∀ u ∈ L, Agree s.mem t.mem (s.addr u) (s.addr u + valueSize s.mem (s.addr u))
  size_block : valueSize t.mem b =
    if 24 < valueSize s.mem b - size then size else valueSize s.mem b
  size_left : ∀ c ∈ s.remainder b size, valueSize t.mem c = valueSize s.mem b - size
  size_free : ∀ c ∈ before ++ after, valueSize t.mem c = valueSize s.mem c
  rest : t = { s with mem := t.mem, freeList := t.freeList }

/-- The block `b` is no longer in the free list, which is now `fl`. -/
structure Unlinked (L : Finset Int) (refs : Int → List Int) (fl : List Nat) (b : Nat)
    (s t : State) : Prop where
  heap : Heap L refs fl t
  block : Agree s.mem t.mem b (b + valueSize s.mem b)
  kept : ∀ u ∈ L, Agree s.mem t.mem (s.addr u) (s.addr u + valueSize s.mem (s.addr u))
  size : ∀ c ∈ fl, valueSize t.mem c = valueSize s.mem c
  rest : t = { s with mem := t.mem, freeList := t.freeList }

theorem Heap.unlink (h : Heap L refs (before ++ b :: after) s)
    (hin : ∀ c ∈ zs, InPool s c) (hlive : ∀ r ∈ L, ∀ c ∈ zs, Apart s.mem (s.addr r) c)
    (hpair : (before ++ zs).Pairwise (Apart s.mem)) (hchain : Chain s.mem t zs) :
    Unlinked L refs (before ++ zs) b s ((linkAfter .head before).set t s) where
  heap := h.relink hin hlive hpair hchain
  block := by
    have hcross := (List.pairwise_append.mp h.chain_apart).2.2
    exact Link.set_agree (fun v hv => (h.free v (by simp [hv])).2.2)
      fun v hv => hcross v hv b (by simp)
  kept u hu := Link.set_agree (fun v hv => (h.free v (by simp [hv])).2.2)
    fun v hv => (h.free_apart u hu v (by simp [hv])).symm
  size c hc := by
    have h24 : ∀ v ∈ before, 24 ≤ valueSize s.mem v := fun v hv => (h.free v (by simp [hv])).2.2
    obtain ⟨hpair₀, -, hcross⟩ := List.pairwise_append.mp hpair
    rcases List.mem_append.mp hc with hc | hc
    · exact Link.valueSize_set h24 hpair₀ hc
    · have h24c := (hin c hc).2.2
      have hagree : Agree s.mem ((linkAfter .head before).set t s).mem c
          (c + valueSize s.mem c) := Link.set_agree h24 fun v hv => hcross v hv c hc
      exact valueSize_congr (hagree.mono (by omega) (by omega))
  rest := Link.set_rest _

section
variable {T : State} (h : Unlinked L refs fl b s T)
include h

theorem Unlinked.addr : T.addr u = s.addr u := by
  rw [h.rest]
  rfl

theorem Unlinked.size_live (hu : u ∈ L) (h24 : 24 ≤ valueSize s.mem (s.addr u)) :
    valueSize T.mem (s.addr u) = valueSize s.mem (s.addr u) :=
  valueSize_congr ((h.kept u hu).mono (by omega) (by omega))

theorem Unlinked.size_block (h24 : 24 ≤ valueSize s.mem b) :
    valueSize T.mem b = valueSize s.mem b :=
  valueSize_congr (h.block.mono (by omega) (by omega))

theorem Unlinked.type_block (h24 : 24 ≤ valueSize s.mem b) : typeOf T.mem b = typeOf s.mem b :=
  typeOf_congr (h.block.mono le_rfl (by omega))

theorem Unlinked.inPool (hin : InPool s b) : InPool T b := by
  have hsize := h.size_block hin.2.2
  unfold InPool at hin ⊢
  rw [hsize, h.rest]
  exact hin

end

theorem Heap.allot_whole (h : Heap L refs (before ++ b :: after) s)
    (hsplit : ¬24 < valueSize s.mem b - size) :
    Allotted L refs before b after size s (s.allot before b size) := by
  have hremainder : s.remainder b size = [] := if_neg hsplit
  obtain ⟨hpair₀, hpair₁, hcross⟩ := List.pairwise_append.mp h.chain_apart
  obtain ⟨hb, hafter⟩ := List.pairwise_cons.mp hpair₁
  have hinb : InPool s b := h.free b (by simp)
  obtain ⟨-, -, hfree, hchain⟩ : Chain s.mem ((linkAfter .head before).follow s) (b :: after) :=
    h.chain.follow_head
  have hun : Unlinked L refs (before ++ after) b s
      ((linkAfter .head before).set (nextFree s.mem b) s) := h.unlink
    (fun c hc => h.free c (by simp [hc]))
    (fun r hr c hc => h.free_apart r hr c (by simp [hc]))
    (List.pairwise_append.mpr ⟨hpair₀, hafter, fun d hd c hc => hcross d hd c (by simp [hc])⟩)
    hchain
  rw [State.allot, if_neg hsplit]
  have hsizeb := hun.size_block hinb.2.2
  constructor
  · rw [hremainder]
    exact hun.heap
  · exact hun.inPool hinb
  · exact (hun.type_block hinb.2.2).trans hfree
  · intro u hu
    exact (h.free_apart u hu b (by simp)).congr (hun.size_live hu (h.live u hu).1.2.2) hsizeb
  · rw [hremainder]
    intro c hc
    have hsizec := hun.size c hc
    rcases List.mem_append.mp hc with hc | hc
    · exact (hcross c hc b (by simp)).symm.congr hsizeb hsizec
    · exact (hb c hc).congr hsizeb hsizec
  · exact hun.kept
  · rw [if_neg hsplit]
    exact hsizeb
  · rw [hremainder]
    intro c hc
    simp at hc
  · exact hun.size
  · exact hun.rest

theorem Heap.shrink (h : Heap L refs (before ++ b :: after) s)
    (honly : ChangesOnly s.mem m' b (valueSize s.mem b)) (htype : typeOf m' b = typeOf s.mem b)
    (hnext : nextFree m' b = nextFree s.mem b) (h24 : 24 ≤ valueSize m' b)
    (hle : valueSize m' b ≤ valueSize s.mem b) :
    Heap L refs (before ++ b :: after) { s with mem := m' } := by
  obtain ⟨hpair₀, hpair₁, hcross⟩ := List.pairwise_append.mp h.chain_apart
  obtain ⟨hb, hafter⟩ := List.pairwise_cons.mp hpair₁
  have hkept : ∀ u ∈ L, Agree s.mem m' (s.addr u) (s.addr u + valueSize s.mem (s.addr u)) :=
    fun u hu => honly.agree (h.free_apart u hu b (by simp))
  have hagree : ∀ c ∈ before ++ after, Agree s.mem m' c (c + valueSize s.mem c) := by
    intro c hc
    apply honly.agree
    rcases List.mem_append.mp hc with hc | hc
    · exact hcross c hc b (by simp)
    · exact (hb c hc).symm
  have hin : ∀ c ∈ before ++ b :: after, 24 ≤ valueSize s.mem c := fun c hc => (h.free c hc).2.2
  have hsize : ∀ c ∈ before ++ after, valueSize m' c = valueSize s.mem c := fun c hc => by
    have h24c := hin c (by
      rcases List.mem_append.mp hc with hc | hc
      · simp [hc]
      · simp [hc])
    exact valueSize_congr ((hagree c hc).mono (by omega) (by omega))
  refine h.reshape rfl rfl le_rfl (fun _ _ => rfl) (fun u hu => ?_) (fun u hu => ?_)
    (fun c hc => ?_) ?_
  · have h24u := (h.live u hu).1.2.2
    exact valueSize_congr ((hkept u hu).mono (by omega) (by omega))
  · obtain ⟨⟨-, -, h24u⟩, hext⟩ := h.live u hu
    exact ((Kept.of_agree (hkept u hu) h24u).extent_eq hext).le.trans hext
  · have h24c := hin c hc
    by_cases hcb : c = b
    · rw [hcb]
      exact ⟨h24, hle⟩
    · have hmem : c ∈ before ++ after := by
        simp only [List.mem_append, List.mem_cons] at hc ⊢
        exact hc.imp_right fun hc => hc.resolve_left hcb
      have hsizec := hsize c hmem
      dsimp only
      omega
  · refine h.chain.relink (fun c hc => ?_) htype ?_
    · have h24c := hin c (by simp [hc])
      exact (hagree c (by simp [hc])).mono le_rfl (by omega)
    · obtain ⟨-, -, -, hchain⟩ : Chain s.mem ((linkAfter .head before).follow s) (b :: after) :=
        h.chain.follow_head
      dsimp only
      rw [hnext]
      refine hchain.congr fun c hc => ?_
      have h24c := hin c (by simp [hc])
      exact (hagree c (by simp [hc])).mono le_rfl (by omega)

theorem Heap.allot_split (h : Heap L refs (before ++ b :: after) s) (h24 : 24 ≤ size)
    (hsplit : 24 < valueSize s.mem b - size) :
    Allotted L refs before b after size s (s.allot before b size) := by
  have hremainder : s.remainder b size = [b + size] := if_pos hsplit
  have hrem : valueSize s.mem b < 2 ^ 64 := load64_lt s.mem _
  have hinb : InPool s b := h.free b (by simp)
  have honly : ChangesOnly s.mem (s.take b size (valueSize s.mem b)).mem b (valueSize s.mem b) :=
    State.take_changes h24 (by omega)
  rw [State.take, if_pos hsplit] at honly
  obtain ⟨⟨htype, hnext, hsizeb⟩, htype', hnext', hleft⟩ :=
    State.split_spec (s := s) (b := b) h24 hrem (by omega)
  rw [State.allot, if_pos hsplit]
  generalize (s.split b size (valueSize s.mem b)).mem = m' at *
  have hheap := h.shrink honly htype hnext (by omega) (by omega)
  obtain ⟨hpair₀, hpair₁, hcross⟩ := List.pairwise_append.mp hheap.chain_apart
  obtain ⟨hb, hafter⟩ := List.pairwise_cons.mp hpair₁
  obtain ⟨-, hpair₂, hcross₀⟩ := List.pairwise_append.mp h.chain_apart
  have hb₀ := (List.pairwise_cons.mp hpair₂).1
  -- the remainder lies in the old block
  have hinside : ∀ {c}, Apart s.mem b c → 24 ≤ valueSize s.mem c → Apart m' (b + size) c := by
    intro c hc h24c
    have hsizec : valueSize m' c = valueSize s.mem c :=
      valueSize_congr ((honly.agree hc.symm).mono (by omega) (by omega))
    unfold Apart at hc ⊢
    omega
  have h24free : ∀ c ∈ before ++ b :: after, 24 ≤ valueSize s.mem c := fun c hc => (h.free c hc).2.2
  have hleftb : ∀ c ∈ before, Apart m' c (b + size) := fun c hc =>
    (hinside (hcross₀ c hc b (by simp)).symm (h24free c (by simp [hc]))).symm
  have hlefta : ∀ c ∈ after, Apart m' (b + size) c := fun c hc =>
    hinside (hb₀ c hc) (h24free c (by simp [hc]))
  have hleftl : ∀ r ∈ L, Apart m' (s.addr r) (b + size) := fun r hr =>
    (hinside (h.free_apart r hr b (by simp)).symm (h.live r hr).1.2.2).symm
  obtain ⟨-, -, -, hchain⟩ : Chain m' ((linkAfter .head before).follow { s with mem := m' })
    (b :: after) := hheap.chain.follow_head
  have hpos := h.pool_pos
  have hun : Unlinked L refs (before ++ (b + size) :: after) b { s with mem := m' }
      ((linkAfter .head before).set (b + size) { s with mem := m' }) := hheap.unlink
    (List.forall_mem_cons.mpr ⟨by
      unfold InPool at hinb ⊢
      dsimp only
      omega, fun c hc => hheap.free c (by simp [hc])⟩)
    (fun r hr => List.forall_mem_cons.mpr ⟨hleftl r hr, fun c hc =>
      hheap.free_apart r hr c (by simp [hc])⟩)
    (List.pairwise_append.mpr ⟨hpair₀, List.pairwise_cons.mpr ⟨hlefta, hafter⟩, fun d hd =>
      List.forall_mem_cons.mpr ⟨hleftb d hd, fun c hc => hcross d hd c (by simp [hc])⟩⟩)
    ⟨rfl, by have := hinb.1; omega, htype', by
      dsimp only
      rw [hnext', ← hnext]
      exact hchain⟩
  have h24b : 24 ≤ valueSize m' b := by omega
  have hsizeb' := hun.size_block h24b
  have hsizel : ∀ u ∈ L, valueSize m' (s.addr u) = valueSize s.mem (s.addr u) := fun u hu => by
    have h24u := (h.live u hu).1.2.2
    exact valueSize_congr ((honly.agree (h.free_apart u hu b (by simp))).mono (by omega) (by omega))
  constructor
  · rw [hremainder]
    exact hun.heap
  · exact hun.inPool (hheap.free b (by simp))
  · rw [hun.type_block h24b]
    exact htype.trans (h.chain.follow_head : Chain s.mem _ (b :: after)).2.2.1
  · intro u hu
    exact (hheap.free_apart u hu b (by simp)).congr
      (hun.size_live hu (hheap.live u hu).1.2.2) hsizeb'
  · rw [hremainder]
    intro c hc
    have hsizec := hun.size c hc
    refine Apart.congr ?_ hsizeb' hsizec
    rcases List.mem_append.mp hc with hc | hc
    · exact (hcross c hc b (by simp)).symm
    · rcases List.mem_cons.mp hc with rfl | hc
      · exact .inl (by dsimp only; omega)
      · exact hb c hc
  · intro u hu
    have hkept := hun.kept u hu
    change Agree m' _ (s.addr u) (s.addr u + valueSize m' (s.addr u)) at hkept
    rw [hsizel u hu] at hkept
    exact (honly.agree (h.free_apart u hu b (by simp))).trans hkept
  · rw [if_pos hsplit, hsizeb']
    exact hsizeb
  · rw [hremainder]
    intro c hc
    rw [List.mem_singleton.mp hc, hun.size _ (by simp)]
    exact hleft
  · intro c hc
    have hc' : c ∈ before ++ (b + size) :: after ∧ Apart s.mem b c ∧ c ∈ before ++ b :: after := by
      rcases List.mem_append.mp hc with hc | hc
      · exact ⟨by simp [hc], (hcross₀ c hc b (by simp)).symm, by simp [hc]⟩
      · exact ⟨by simp [hc], hb₀ c hc, by simp [hc]⟩
    have h24c := h24free c hc'.2.2
    rw [hun.size c hc'.1]
    exact valueSize_congr ((honly.agree hc'.2.1.symm).mono (by omega) (by omega))
  · rw [hun.rest]

theorem Heap.allot (h : Heap L refs (before ++ b :: after) s) (h24 : 24 ≤ size) :
    Allotted L refs before b after size s (s.allot before b size) := by
  by_cases hsplit : 24 < valueSize s.mem b - size
  · exact h.allot_split h24 hsplit
  · exact h.allot_whole hsplit

end CS24.Subpython
