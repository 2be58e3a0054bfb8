import CS24.Malloc.Integrity

/-!
# Survival of client data

`free` writes its list link through `last_node`, which may by then be a live
block again: the word of 8 bytes after its first word is lost. A call that does
not reach a live block this way leaves the bytes of every pointer it is not made
on alone, and `realloc` moves the client's bytes.
-/

namespace CS24.Malloc
open Machine Mem

variable {R : Region} {s s' : State} {c c' : Client} {bs bs' : List Nat}
  {live : List (Nat × Nat)} {call : Call} {calls : List Call} {b d j k n p q r limit : Nat}

/-- The pointer a call is made on. -/
def Call.On : Call → Nat → Prop
  | .malloc _, _ | .calloc _ _, _ => False
  | .realloc ptr _, q | .free ptr, q | .write ptr _ _, q => ptr = q

/-- `free` of `ptr` links through `last_node`, so this must not be a live block, other
than `ptr`, of more than 8 requested bytes. -/
def LinkSafe (c : Client) (ptr : Nat) : Prop :=
  ∀ k, (c.state.lastNode, k) ∈ c.live → c.state.lastNode ≠ ptr → k ≤ 8

/-- `malloc` of `n` bytes has a block to hand out. -/
def Serves (R : Region) (s : State) (n : Nat) : Prop :=
  findFit R s (blockSize n) ≠ some 0 ∨ s.memBrk + blockSize n ≤ memMaxAddr R

/-- The call frees nothing, or the link it writes falls into no live block. A `realloc`
must in addition not take over the block of `last_node` and copy more than 8 bytes. -/
def Call.Safe (R : Region) (c : Client) : Call → Prop
  | .malloc _ | .calloc _ _ | .write _ _ _ => True
  | .free ptr => ptr = 0 ∨ LinkSafe c ptr
  | .realloc ptr size => ptr = 0 ∨
    if size = 0 then LinkSafe c ptr
    else Serves R c.state size → LinkSafe c ptr ∧
      ∀ b k, findFit R c.state (blockSize size) = some b → b + 8 = c.state.lastNode →
        (ptr, k) ∈ c.live → min k size ≤ 8

theorem Mallocs.survives (h : Owned R ⟨s, live⟩ bs) (hm : Mallocs s s' bs bs' b n)
    (hq : (q, k) ∈ live) : Agree s.mem s'.mem q (q + k) := by
  obtain ⟨d, hd, rfl, hal, hsize, -⟩ := h.block q k hq
  have hroom : k + 16 ≤ getSize s.mem d := hsize
  exact (hm.kept d hd hal).2.mono (by omega) (by omega)

theorem Frees.survives (h : Owned R ⟨s, live⟩ bs) (hf : Frees s s' bs bs' d)
    (hq : (q, k) ∈ live) (hne : q ≠ d + 8) (hj : j ≤ k) (hlast : s.lastNode = q → j ≤ 8) :
    Agree s.mem s'.mem q (q + j) := by
  obtain ⟨e, he, rfl, hal, hsize, -⟩ := h.block q k hq
  have hroom : k + 16 ≤ getSize s.mem e := hsize
  intro x hx₁ hx₂
  have hout : s.lastNode = 0 ∨ x < s.lastNode + 8 ∨ s.lastNode + 16 ≤ x := by
    rcases h.last with h0 | ⟨a, ha, hle, h32⟩
    · exact .inl h0
    · have hle' : s.lastNode = a + 8 := hle
      have h32' : 32 ≤ getSize s.mem a := h32
      rcases h.heap.seg.tiles.sep ha he with rfl | hs | hs
      · have := hlast hle
        omega
      · have hs' : a + getSize s.mem a ≤ e := hs
        omega
      · have hs' : e + getSize s.mem e ≤ a := hs
        omega
  exact hf.data e he (by omega) hal x (by omega) (by omega) hout

theorem malloc_of_not_serves (hn : ¬ Serves R s n) : malloc R s n = some (s, 0) := by
  obtain ⟨hfit, hbrk⟩ := not_or.mp hn
  have hfull : 2 ^ 63 ≤ blockSize n ∨ memMaxAddr R < s.memBrk + blockSize n := .inr (by omega)
  have hm := malloc_of_none (not_not.mp hfit)
  rwa [memSbrk, if_pos hfull, if_pos (show 2 ^ 63 ≤ 2 ^ 64 - 1 by decide)] at hm

theorem survives_malloc (h : Owned R c bs) (h1 : 1 ≤ n) (hn : n + 31 < 2 ^ 64)
    (hcall : c.call R (.malloc n) = some (c', r)) (hq : (q, k) ∈ c.live) :
    (q, k) ∈ c'.live ∧ Agree c.state.mem c'.state.mem q (q + k) := by
  rcases malloc_owned h h1 hn with hnull | ⟨s', bs', b, hm, -, hmal, -⟩
  · simp only [Client.call, hnull, Option.pure_def, Option.bind_eq_bind, Option.bind_some,
      if_true, Option.some.injEq, Prod.mk.injEq] at hcall
    obtain ⟨rfl, -⟩ := hcall
    exact ⟨hq, .refl⟩
  · have hb : b + 8 ≠ 0 := by omega
    simp only [Client.call, hm, hb, Option.pure_def, Option.bind_eq_bind, Option.bind_some,
      if_false, Option.some.injEq, Prod.mk.injEq] at hcall
    obtain ⟨rfl, -⟩ := hcall
    exact ⟨List.mem_cons_of_mem _ hq, hmal.survives h hq⟩

theorem survives_calloc {a : Nat} (h : Owned R c bs) (h1 : 1 ≤ a * n) (hn : a * n + 31 < 2 ^ 64)
    (hcall : c.call R (.calloc a n) = some (c', r)) (hq : (q, k) ∈ c.live) :
    (q, k) ∈ c'.live ∧ Agree c.state.mem c'.state.mem q (q + k) := by
  have hmod : a * n % 2 ^ 64 = a * n := Nat.mod_eq_of_lt (by omega)
  rcases malloc_owned h h1 hn with hnull | ⟨s', bs', b, hm, hown, hmal, -⟩
  · simp only [Client.call, calloc, hmod, hnull, Option.pure_def, Option.bind_eq_bind,
      Option.bind_some, if_true, Option.some.injEq, Prod.mk.injEq] at hcall
    obtain ⟨rfl, -⟩ := hcall
    exact ⟨hq, .refl⟩
  · have hb : b + 8 ≠ 0 := by omega
    simp only [Client.call, calloc, hmod, hm, hb, Option.pure_def, Option.bind_eq_bind,
      Option.bind_some, if_false, Option.some.injEq, Prod.mk.injEq] at hcall
    obtain ⟨rfl, -⟩ := hcall
    have hdis := hown.disjoint (List.mem_cons_self ..) (List.mem_cons_of_mem _ hq) (hown.new_ne hq)
    exact ⟨List.mem_cons_of_mem _ hq, (hmal.survives h hq).trans (agree_fill (by omega))⟩

theorem survives_free (h : Owned R c bs) (hp : p = 0 ∨ ∃ j, (p, j) ∈ c.live)
    (hsafe : p = 0 ∨ LinkSafe c p) (hcall : c.call R (.free p) = some (c', r))
    (hq : (q, k) ∈ c.live) (hne : p ≠ q) :
    (q, k) ∈ c'.live ∧ Agree c.state.mem c'.state.mem q (q + k) := by
  rcases hp with rfl | ⟨j, hj⟩
  · simp only [Client.call, free, if_true, Option.pure_def, Option.bind_eq_bind, Option.bind_some,
      Option.some.injEq, Prod.mk.injEq] at hcall
    obtain ⟨rfl, -⟩ := hcall
    exact ⟨mem_dropPtr.mpr ⟨hq, hne.symm⟩, .refl⟩
  · have hlink : LinkSafe c p := hsafe.resolve_left (h.ptr_ne_zero hj)
    obtain ⟨s', bs', d, rfl, -, hf, -, hfrees⟩ := free_owned h hj
    simp only [Client.call, hf, Option.pure_def, Option.bind_eq_bind, Option.bind_some,
      Option.some.injEq, Prod.mk.injEq] at hcall
    obtain ⟨rfl, -⟩ := hcall
    refine ⟨mem_dropPtr.mpr ⟨hq, hne.symm⟩, hfrees.survives h hq hne.symm le_rfl ?_⟩
    rintro rfl
    exact hlink k hq hne.symm

theorem Owned.lastNode_ne_brk (h : Owned R c bs) : c.state.lastNode ≠ c.state.memBrk + 8 := by
  rcases h.last with h0 | ⟨e, he, hle, -⟩
  · omega
  · have hbd := h.heap.seg.tiles.bounds he
    have hpos := h.heap.seg.tiles.pos he
    omega

theorem survives_move (h : Owned R c bs) (hp : (p, j) ∈ c.live) (hn0 : n ≠ 0)
    (hn : n + 31 < 2 ^ 64) (hsafe : (Call.realloc p n).Safe R c)
    (hcall : c.call R (.realloc p n) = some (c', r)) :
    (∀ q k, (q, k) ∈ c.live → p ≠ q →
      (q, k) ∈ c'.live ∧ Agree c.state.mem c'.state.mem q (q + k)) ∧
    (r ≠ 0 → ∀ x, x < min j n → c'.state.mem (r + x) = c.state.mem (p + x)) := by
  have hp0 := h.ptr_ne_zero hp
  have hsafe' := hsafe.resolve_left hp0
  rw [if_neg hn0] at hsafe'
  by_cases hserves : Serves R c.state n
  · obtain ⟨hlink, hnew⟩ := hsafe' hserves
    rcases realloc_owned h hp (by omega) hn with
      hnull | ⟨s₁, s', bs₁, bs', b, d, len, hr, hmal, hb, hown, rfl, rfl, hcopy, -, hfrees⟩
    · simp only [Client.call, hnull, hn0, Option.pure_def, Option.bind_eq_bind, Option.bind_some,
        if_true, if_false, Option.some.injEq, Prod.mk.injEq] at hcall
      obtain ⟨rfl, rfl⟩ := hcall
      exact ⟨fun q k hq _ => ⟨hq, .refl⟩, fun h0 => absurd rfl h0⟩
    · have hb8 : b + 8 ≠ 0 := by omega
      simp only [Client.call, hr, hn0, hb8, Option.pure_def, Option.bind_eq_bind, Option.bind_some,
        if_false, Option.some.injEq, Prod.mk.injEq] at hcall
      obtain ⟨rfl, rfl⟩ := hcall
      have hlast : s₁.lastNode = c.state.lastNode := hmal.lastNode
      have hnew_le : s₁.lastNode = b + 8 → min j n ≤ 8 := by
        intro heq
        rcases hb with hfit | rfl
        · exact hnew b j hfit (by omega) hp
        · exact absurd (hlast ▸ heq) h.lastNode_ne_brk
      refine ⟨fun q k hq hne => ⟨List.mem_cons_of_mem _ (mem_dropPtr.mpr ⟨hq, hne.symm⟩), ?_⟩,
        fun _ x hx => ?_⟩
      · have hdis := hown.disjoint (List.mem_cons_self ..) (List.mem_cons_of_mem _ hq)
          (hown.new_ne hq)
        have hfree := hfrees.survives hcopy (List.mem_cons_of_mem _ hq) hne.symm le_rfl
          (fun heq => hlink k (by rwa [← hlast, heq]) (by rw [← hlast, heq]; exact hne.symm))
        exact ((hmal.survives h hq).trans (agree_copy (by omega))).trans hfree
      · obtain ⟨e, -, he, -, hsize, -⟩ := hown.block _ _ (List.mem_cons_of_mem _ hp)
        obtain rfl : d = e := by omega
        have hroom : j + 16 ≤ getSize s₁.mem d := hsize
        have hfree := hfrees.survives hcopy (List.mem_cons_self ..) (hown.new_ne hp)
          (min_le_right j n) (fun heq => hnew_le heq)
        have hkept := hmal.survives h hp (d + 8 + x) (by omega) (by omega)
        rw [hfree _ (by omega) (by omega), ← hkept]
        exact copy_inside (by omega)
  · have hnull := malloc_of_not_serves hserves
    simp only [Client.call, realloc, hnull, hp0, hn0, Option.pure_def, Option.bind_eq_bind,
      Option.bind_some, if_true, if_false, Option.some.injEq, Prod.mk.injEq] at hcall
    obtain ⟨rfl, rfl⟩ := hcall
    exact ⟨fun q k hq _ => ⟨hq, .refl⟩, fun h0 => absurd rfl h0⟩

theorem call_survives (h : Owned R c bs) (hv : call.Valid wrapLimit c.live)
    (hsafe : call.Safe R c) (hcall : c.call R call = some (c', r)) (hq : (q, k) ∈ c.live)
    (hon : ¬ call.On q) : (q, k) ∈ c'.live ∧ Agree c.state.mem c'.state.mem q (q + k) := by
  have hwrap : ∀ n, n < wrapLimit → n + 31 < 2 ^ 64 := by
    unfold wrapLimit
    omega
  cases call with
  | malloc n => exact survives_malloc h hv.1 (hwrap _ hv.2) hcall hq
  | calloc a n => exact survives_calloc h hv.1 (hwrap _ hv.2) hcall hq
  | free p => exact survives_free h hv hsafe hcall hq hon
  | realloc p n =>
    by_cases hn0 : n = 0
    · subst hn0
      have hsafe' : p = 0 ∨ LinkSafe c p := hsafe
      refine survives_free (r := 0) h hv.1 hsafe' ?_ hq hon
      cases hf : free R c.state p with
      | none => simp [Client.call, realloc, hf] at hcall
      | some s' =>
        simp only [Client.call, realloc, hf, if_true, Option.map_some, Option.pure_def,
          Option.bind_eq_bind, Option.bind_some, Option.some.injEq, Prod.mk.injEq] at hcall
        simp [Client.call, hf, hcall.1]
    · rcases hv.1 with rfl | ⟨j, hj⟩
      · have hdrop := dropPtr_of_not_mem h.zero_not_mem
        refine survives_malloc (r := r) h (by omega) (hwrap _ hv.2) ?_ hq
        simpa [Client.call, realloc, hn0, hdrop] using hcall
      · exact (survives_move h hj hn0 (hwrap _ hv.2) hsafe hcall).1 q k hq hon
  | write p off bytes =>
    obtain ⟨j, hj, hoff⟩ := hv
    simp only [Client.call, Option.some.injEq, Prod.mk.injEq] at hcall
    obtain ⟨rfl, -⟩ := hcall
    have hdis := h.disjoint hj hq hon
    exact ⟨hq, (changesOnly_write _ _ _).agree (by omega)⟩

/-- Valid calls, each of them safe where it is made. -/
inductive SafeRun (R : Region) : Client → List Call → Client → Prop where
  | nil (c : Client) : SafeRun R c [] c
  | cons {c c' c'' : Client} {call : Call} {calls : List Call} {r : Nat} :
      call.Valid wrapLimit c.live → call.Safe R c → c.call R call = some (c', r) →
      SafeRun R c' calls c'' → SafeRun R c (call :: calls) c''

theorem SafeRun.survives (hrun : SafeRun R c calls c') (h : Reachable R wrapLimit c)
    (hq : (q, k) ∈ c.live) (hon : ∀ call ∈ calls, ¬ call.On q) :
    (q, k) ∈ c'.live ∧ Agree c.state.mem c'.state.mem q (q + k) := by
  induction hrun with
  | nil c => exact ⟨hq, .refl⟩
  | @cons c₁ c₂ c₃ call calls r hv hsafe hcall hrest ih =>
    obtain ⟨bs, hown⟩ := h.inv le_rfl
    obtain ⟨hq', hstep⟩ := call_survives hown hv hsafe hcall hq (hon call (by simp))
    obtain ⟨hq'', hrest'⟩ := ih (h.step hv hcall) hq' fun d hd => hon d (by simp [hd])
    exact ⟨hq'', hstep.trans hrest'⟩

theorem client_data_survives (R : Region) (c : Client) (h : Reachable R wrapLimit c) :
    (∀ calls c' q k, SafeRun R c calls c' → (q, k) ∈ c.live → (∀ call ∈ calls, ¬ call.On q) →
      (q, k) ∈ c'.live ∧ Agree c.state.mem c'.state.mem q (q + k)) ∧
    ∀ p j n c' r, (p, j) ∈ c.live → n ≠ 0 → n < wrapLimit → (Call.realloc p n).Safe R c →
      c.call R (.realloc p n) = some (c', r) → r ≠ 0 →
      ∀ x, x < min j n → c'.state.mem (r + x) = c.state.mem (p + x) := by
  refine ⟨fun calls c' q k hrun hq hon => hrun.survives h hq hon, ?_⟩
  intro p j n c' r hp hn0 hn hsafe hcall
  obtain ⟨bs, hown⟩ := h.inv le_rfl
  have hwrap : n + 31 < 2 ^ 64 := by
    unfold wrapLimit at hn
    omega
  exact (survives_move hown hp hn0 hwrap hsafe hcall).2

def twoBlocks : List Call :=
  [.malloc 24, .malloc 24, .write 0x800000010 0 (List.replicate 24 1)]

theorem client_data_survives_free : ∃ c c', Reachable suggestedRegion wrapLimit c ∧
    SafeRun suggestedRegion c [.free 0x800000040] c' ∧ (0x800000010, 24) ∈ c'.live ∧
    Agree c.state.mem c'.state.mem 0x800000010 (0x800000010 + 24) := by
  have hrun : (match freshClient.run suggestedRegion wrapLimit twoBlocks with
      | some c => decide (c.live = [(0x800000040, 24), (0x800000010, 24)] ∧
          c.state.lastNode = 0)
      | none => false) = true := by decide +kernel
  cases hc : freshClient.run suggestedRegion wrapLimit twoBlocks with
  | none => simp [hc] at hrun
  | some c =>
    simp only [hc, decide_eq_true_eq] at hrun
    obtain ⟨hlive, hlast⟩ := hrun
    have hreach : Reachable suggestedRegion wrapLimit c := (Reachable.init _).run hc
    have hv : (Call.free 0x800000040).Valid wrapLimit c.live := .inr ⟨24, by simp [hlive]⟩
    have hsafe : (Call.free 0x800000040).Safe suggestedRegion c :=
      .inr fun k hk _ => by simp [hlive, hlast] at hk
    obtain ⟨c', r, hcall, -⟩ := call_spec (hreach.inv le_rfl) le_rfl hv
    have hsr : SafeRun suggestedRegion c [.free 0x800000040] c' :=
      .cons hv hsafe hcall (.nil c')
    exact ⟨c, c', hreach, hsr, (client_data_survives suggestedRegion c hreach).1 _ c' _ 24 hsr
      (by simp [hlive]) (by simp [Call.On])⟩

def reusedBlock : List Call :=
  [.malloc 24, .malloc 24, .free 0x800000010, .malloc 24,
    .write 0x800000010 0 (List.replicate 24 1)]

/-- Freeing the second block stores a link into the first. -/
theorem free_overwrites_live_data : ∃ c c', Reachable suggestedRegion wrapLimit c ∧
    (Call.free 0x800000040).Valid wrapLimit c.live ∧
    c.call suggestedRegion (.free 0x800000040) = some (c', 0) ∧
    (0x800000010, 24) ∈ c.live ∧ (0x800000010, 24) ∈ c'.live ∧
    c.state.mem 0x800000018 = 1 ∧ c'.state.mem 0x800000018 = 0x40 := by
  have hrun : (freshClient.run suggestedRegion wrapLimit reusedBlock).any (fun c =>
      (c.call suggestedRegion (.free 0x800000040)).any fun d =>
        Call.Valid wrapLimit c.live (.free 0x800000040) ∧ d.2 = 0 ∧
          (0x800000010, 24) ∈ c.live ∧ (0x800000010, 24) ∈ d.1.live ∧
          c.state.mem 0x800000018 = 1 ∧ d.1.state.mem 0x800000018 = 0x40) = true := by
    decide +kernel
  obtain ⟨c, hc, hrun⟩ := (Option.any_eq_true _ _).mp hrun
  obtain ⟨⟨c', r⟩, hc', hrun⟩ := (Option.any_eq_true _ _).mp hrun
  obtain ⟨hv, rfl, hrest⟩ := of_decide_eq_true hrun
  exact ⟨c, c', (Reachable.init _).run hc, hv, hc', hrest⟩

end CS24.Malloc
