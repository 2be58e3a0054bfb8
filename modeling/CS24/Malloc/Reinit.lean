import CS24.Malloc.Twins
import CS24.Malloc.Walk

/-!
# Initialising again

`mm_init` resets the break but not `last_node`. A process that initialises the allocator again
and a fresh process answer every call in the same way and hold the same values in the bytes that
were given one, as long as the first link after `mm_init` goes nowhere that matters: no tag and
no byte of a live pointer.
-/

namespace CS24.Malloc
open Machine Mem

def Covered (live : List (Nat × Nat)) (x : Nat) : Prop :=
  ∃ p n, (p, n) ∈ live ∧ p ≤ x ∧ x < p + n % 2 ^ 64

/-- The bytes to which a call that returned `r` gives a value: `realloc` moves the values that the
bytes `D` have. -/
def Call.gives (live : List (Nat × Nat)) (D : Nat → Prop) (r : Nat) : Call → Nat → Prop
  | .malloc _, _ | .free _, _ => False
  | .calloc nmemb size, x => r ≠ 0 ∧ r ≤ x ∧ x < r + nmemb * size % 2 ^ 64
  | .realloc ptr size, x => r ≠ 0 ∧
    ∃ k i, (ptr, k) ∈ live ∧ i < k % 2 ^ 64 ∧ i < size ∧ x = r + i ∧ D (ptr + i)
  | .write ptr offset bytes, x => ptr + offset ≤ x ∧ x < ptr + offset + bytes.length

/-- The bytes of live pointers that have a value after a call. -/
def Call.defined (c c' : Client) (D : Nat → Prop) (r : Nat) (call : Call) (x : Nat) : Prop :=
  (D x ∨ call.gives c.live D r x) ∧ Covered c'.live x

/-- The link through a `last_node` from before `mm_init` meets no tag of the heap and no byte of a
live pointer other than the one that is freed. -/
def StaleHarmless (R : Region) (c : Client) (ptr : Nat) : Prop :=
  c.state.lastNode = 0 ∨
    (∀ bs, Tiles (getSize c.state.mem) (firstBlock R) bs c.state.memBrk → LinkClear c.state bs) ∧
      ∀ p n, (p, n) ∈ c.live → p ≠ ptr →
        p + n % 2 ^ 64 ≤ c.state.lastNode + 8 ∨ c.state.lastNode + 16 ≤ p

/-- The links that `free` writes are harmless; `freed` says that a block was freed since
`mm_init`, so that `last_node` is one of its blocks. -/
def FreesCalmly (R : Region) (freed : Bool) (c : Client) (ptr : Nat) : Prop :=
  if freed then HasRoom R c.state (ptr - headerSize)
  else (32 ≤ getSize c.state.mem (ptr - headerSize) ∨ MergesRight c.state (ptr - headerSize) ∨
    MergesLeft R c.state (ptr - headerSize)) ∧ StaleHarmless R c ptr

/-- A call that fits and frees calmly. -/
structure Call.Calm (R : Region) (freed : Bool) (c : Client) (call : Call) : Prop where
  fits : call.Fits c.live
  frees : ∀ c' ptr, call.freesAt R c = some (c', ptr) → FreesCalmly R freed c' ptr

/-- A run of calm calls, with the answers and the bytes that have a value. -/
inductive CalmRun (R : Region) :
    Client → Bool → (Nat → Prop) → List Call → Client → List Nat → Bool → (Nat → Prop) → Prop where
  | nil {c : Client} {freed : Bool} {D : Nat → Prop} : CalmRun R c freed D [] c [] freed D
  | cons {c c' c'' : Client} {freed freed' : Bool} {D D' : Nat → Prop} {call : Call}
      {calls : List Call} {r : Nat} {rs : List Nat} : call.Calm R freed c →
      c.call R call = some (c', r) →
      CalmRun R c' (freed || (call.freesAt R c).isSome) (call.defined c c' D r) calls c'' rs
        freed' D' →
      CalmRun R c freed D (call :: calls) c'' (r :: rs) freed' D'

/-- The client after a sequence of calls, and their answers. -/
def Client.answers (R : Region) : Client → List Call → Option (Client × List Nat)
  | c, [] => some (c, [])
  | c, call :: calls => do
    let (c, r) ← c.call R call
    let (c, rs) ← c.answers R calls
    return (c, r :: rs)

structure Paired (R : Region) (c : Client) (t : State) (bs : List Nat) (D : Nat → Prop)
    (freed : Bool) : Prop where
  held : Held R c bs
  twin : Twin c.state t bs D
  covered : ∀ x, D x → Covered c.live x
  last : if freed then t.lastNode = c.state.lastNode ∧ LastBlock c.state bs else t.lastNode = 0

variable {R : Region} {s t : State} {c : Client} {bs : List Nat} {live : List (Nat × Nat)}
  {D : Nat → Prop} {freed : Bool} {k n p : Nat}

namespace Paired

theorem malloc (h : Paired R ⟨s, live⟩ t bs D freed) (hn : n % 2 ^ 64 + 31 < 2 ^ 64) :
    Malloc.malloc R s (n % 2 ^ 64) = some (s, 0) ∧ Malloc.malloc R t (n % 2 ^ 64) = some (t, 0) ∨
      ∃ s' t' b bs', Malloc.malloc R s (n % 2 ^ 64) = some (s', b + 8) ∧
        Malloc.malloc R t (n % 2 ^ 64) = some (t', b + 8) ∧
        Paired R ⟨s', (b + 8, n) :: live⟩ t' bs' D freed := by
  rcases h.twin.malloc h.held.heap hn with
    hnull | ⟨s', t', b, bs', hs, ht, hheap, hmal, htwin, hlast, hsub⟩
  · exact .inl hnull
  · refine .inr ⟨s', t', b, bs', hs, ht, h.held.take hheap hmal, htwin, fun x hx => ?_, ?_⟩
    · obtain ⟨q, j, hq, hxq⟩ := h.covered x hx
      exact ⟨q, j, List.mem_cons_of_mem _ hq, hxq⟩
    · have hold := h.last
      cases freed with
      | false => exact hlast.trans hold
      | true =>
        obtain ⟨heq, hblock⟩ := hold
        refine ⟨hlast.trans (heq.trans hmal.lastNode.symm), ?_⟩
        rcases hblock with h0 | ⟨e, he, hle⟩
        · exact .inl (hmal.lastNode.trans h0)
        · exact .inr ⟨e, hsub e he, hmal.lastNode.trans hle⟩

theorem linksFit (h : Paired R ⟨s, live⟩ t bs D freed) {b : Nat}
    (hcalm : FreesCalmly R freed ⟨s, live⟩ (b + 8)) : LinksFit R s bs b := by
  unfold FreesCalmly at hcalm
  rw [headerSize, Nat.add_sub_cancel] at hcalm
  cases freed with
  | true =>
    obtain ⟨hblock, hlast⟩ := hcalm
    refine ⟨hblock, ?_⟩
    rcases hlast with h0 | h32 | hright
    · exact .inl h0
    · rcases h.last.2 with h0 | ⟨e, he, hle⟩
      · exact .inl h0
      · rw [hle, headerSize, Nat.add_sub_cancel] at h32
        exact .inr (.inl (linkClear_of_room h.held.heap he hle h32))
    · exact .inr (.inr hright)
  | false =>
    obtain ⟨hblock, hstale⟩ := hcalm
    refine ⟨hblock, ?_⟩
    rcases hstale with h0 | ⟨hclear, -⟩
    · exact .inl h0
    · exact .inr (.inl (hclear bs h.held.heap.seg.tiles))

theorem free (h : Paired R ⟨s, live⟩ t bs D freed) (hp : (p, k) ∈ live)
    (hcalm : FreesCalmly R freed ⟨s, live⟩ p) :
    ∃ s' t' bs', Malloc.free R s p = some s' ∧ Malloc.free R t p = some t' ∧
      Paired R ⟨s', dropPtr live p⟩ t' bs' (fun x => D x ∧ Covered (dropPtr live p) x) true := by
  obtain ⟨b, hb, rfl, -⟩ := h.held.block p k hp
  have hfit := h.linksFit hcalm
  have hlast : t.lastNode = s.lastNode ∨ t.lastNode = 0 ∧
      ∀ x, (D x ∧ Covered (dropPtr live (b + 8)) x) →
        s.lastNode = 0 ∨ x < s.lastNode + 8 ∨ s.lastNode + 16 ≤ x := by
    have hold := h.last
    cases freed with
    | true => exact .inl hold.1
    | false =>
      refine .inr ⟨hold, fun x ⟨_, q, j, hq, hx₁, hx₂⟩ => ?_⟩
      obtain ⟨hq, hne⟩ := mem_dropPtr.mp hq
      rcases hcalm.2 with h0 | ⟨-, hlive⟩
      · exact .inl h0
      · have hout := hlive q j hq hne
        have hout' : q + j % 2 ^ 64 ≤ s.lastNode + 8 ∨ s.lastNode + 16 ≤ q := hout
        omega
  have hD : ∀ x, (D x ∧ Covered (dropPtr live (b + 8)) x) → D x ∧ ∃ e ∈ bs, e ≠ b ∧
      checkAllocated s.mem e = true ∧ e ≤ x ∧ x < e + getSize s.mem e := by
    intro x ⟨hx, q, j, hq, hx₁, hx₂⟩
    obtain ⟨hq, hne⟩ := mem_dropPtr.mp hq
    obtain ⟨e, he, rfl, hal, hsize⟩ := h.held.block q j hq
    have hroom : j % 2 ^ 64 + 16 ≤ getSize s.mem e := hsize
    exact ⟨hx, e, he, by omega, hal, by omega, by omega⟩
  obtain ⟨s', t', bs', hs, ht, hheap, hfrees, htwin, hlast', hblock⟩ :=
    h.twin.free h.held.heap hb hfit hlast hD
  exact ⟨s', t', bs', hs, ht, h.held.drop hheap hfrees, htwin, fun x hx => hx.2, hlast', hblock⟩

theorem payload (h : Paired R ⟨s, live⟩ t bs D freed) {m m' : Mem} {D' : Nat → Prop}
    (htags : ∀ d ∈ bs, SameTags s.mem m d)
    (hagree : ∀ x, TagByte s.mem bs x ∨ D' x → m' x = m x)
    (hcovered : ∀ x, D' x → Covered live x) :
    Paired R ⟨{ s with mem := m }, live⟩ { t with mem := m' } bs D' freed := by
  refine ⟨h.held.congr htags, ⟨h.twin.brk, fun x hx => ?_⟩, hcovered, ?_⟩
  · exact hagree x (hx.imp_left fun htag => htag.of_sameTags htags)
  · have hlast := h.last
    cases freed with
    | true => exact ⟨hlast.1, hlast.2⟩
    | false => exact hlast

theorem mono (h : Paired R ⟨s, live⟩ t bs D freed) {D' : Nat → Prop}
    (hD : ∀ x, D' x → D x) : Paired R ⟨s, live⟩ t bs D' freed :=
  ⟨h.held, h.twin.mono hD, fun x hx => h.covered x (hD x hx), h.last⟩

theorem call_malloc (h : Paired R c t bs D freed) (hn : n + 31 < 2 ^ 64) :
    ∃ c' r t' bs', c.call R (.malloc n) = some (c', r) ∧
      (⟨t, c.live⟩ : Client).call R (.malloc n) = some (⟨t', c'.live⟩, r) ∧
      Paired R c' t' bs' D freed := by
  have hmod : n % 2 ^ 64 = n := Nat.mod_eq_of_lt (by omega)
  have hmalloc := h.malloc (n := n) (by omega)
  rw [hmod] at hmalloc
  rcases hmalloc with ⟨hs, ht⟩ | ⟨s', t', b, bs', hs, ht, hpair⟩
  · exact ⟨c, 0, t, bs, by simp [Client.call, hs], by simp [Client.call, ht], h⟩
  · exact ⟨_, b + 8, t', bs', by simp [Client.call, hs], by simp [Client.call, ht], hpair⟩

theorem call_calloc (h : Paired R c t bs D freed) (hn : k * n % 2 ^ 64 + 31 < 2 ^ 64) :
    ∃ c' r t' bs', c.call R (.calloc k n) = some (c', r) ∧
      (⟨t, c.live⟩ : Client).call R (.calloc k n) = some (⟨t', c'.live⟩, r) ∧
      Paired R c' t' bs' ((Call.calloc k n).defined c c' D r) freed := by
  rcases h.malloc (n := k * n) hn with ⟨hs, ht⟩ | ⟨s', t', b, bs', hs, ht, hpair⟩
  · refine ⟨c, 0, t, bs, ?_, ?_, h.mono fun x hx => ?_⟩
    · simp only [Client.call, calloc, hs, Option.pure_def, Option.bind_eq_bind, Option.bind_some,
        if_true]
    · simp only [Client.call, calloc, ht, Option.pure_def, Option.bind_eq_bind, Option.bind_some,
        if_true]
    · exact hx.1.resolve_right fun hg => hg.1 rfl
  · have hb : b + 8 ≠ 0 := by omega
    have hnew : (b + 8, k * n) ∈ (b + 8, k * n) :: c.live := List.mem_cons_self ..
    refine ⟨⟨{ s' with mem := fill s'.mem (b + 8) 0 (k * n % 2 ^ 64) }, (b + 8, k * n) :: c.live⟩,
      b + 8, { t' with mem := fill t'.mem (b + 8) 0 (k * n % 2 ^ 64) }, bs', ?_, ?_, ?_⟩
    · simp only [Client.call, calloc, hs, hb, Option.pure_def, Option.bind_eq_bind,
        Option.bind_some, if_false]
    · simp only [Client.call, calloc, ht, hb, Option.pure_def, Option.bind_eq_bind,
        Option.bind_some, if_false]
    · have htags := hpair.held.sameTags hnew
        (changesOnly_fill s'.mem (b + 8) 0 (k * n % 2 ^ 64)) le_rfl le_rfl
      refine hpair.payload htags (fun x hx => fill_congr_at ?_) fun x hx => hx.2
      rcases hx with htag | ⟨hD | ⟨-, hx⟩, -⟩
      · exact .inl (hpair.twin.agree x (.inl htag))
      · exact .inl (hpair.twin.agree x (.inr hD))
      · exact .inr hx

theorem call_write {off : Nat} {bytes : List UInt8} (h : Paired R c t bs D freed)
    (hp : (p, k) ∈ c.live) (hoff : off + bytes.length ≤ k % 2 ^ 64) :
    Paired R ⟨{ c.state with mem := write c.state.mem (p + off) bytes }, c.live⟩
      { t with mem := write t.mem (p + off) bytes } bs
      (fun x => (D x ∨ p + off ≤ x ∧ x < p + off + bytes.length) ∧ Covered c.live x) freed := by
  have htags := h.held.sameTags hp (changesOnly_write c.state.mem (p + off) bytes) (by omega)
    (by omega)
  refine h.payload htags (fun x hx => write_congr_at ?_) fun x hx => hx.2
  rcases hx with htag | ⟨hD | hx, -⟩
  · exact .inl (h.twin.agree x (.inl htag))
  · exact .inl (h.twin.agree x (.inr hD))
  · exact .inr hx

theorem call_free (h : Paired R c t bs D freed) (hp : p = 0 ∨ ∃ k, (p, k) ∈ c.live)
    (hcalm : p ≠ 0 → FreesCalmly R freed c p) :
    ∃ s' t' bs', Malloc.free R c.state p = some s' ∧ Malloc.free R t p = some t' ∧
      Paired R ⟨s', dropPtr c.live p⟩ t' bs' (fun x => D x ∧ Covered (dropPtr c.live p) x)
        (freed || decide (p ≠ 0)) := by
  rcases hp with rfl | ⟨k, hk⟩
  · have hlive : dropPtr c.live 0 = c.live :=
      dropPtr_of_not_mem fun k hk => h.held.ptr_ne_zero hk rfl
    refine ⟨c.state, t, bs, by simp [Malloc.free], by simp [Malloc.free], ?_⟩
    rw [hlive]
    simpa using h.mono fun x hx => hx.1
  · have hp0 := h.held.ptr_ne_zero hk
    obtain ⟨s', t', bs', hs, ht, hpair⟩ := h.free hk (hcalm hp0)
    refine ⟨s', t', bs', hs, ht, ?_⟩
    simpa [hp0] using hpair

theorem copy {b len : Nat} (h : Paired R ⟨s, (b + 8, n) :: live⟩ t bs D freed)
    (hD : ∀ x, D x → Covered live x) (hp : (p, k) ∈ live)
    (hlen : len = if n < getSize s.mem (p - headerSize) then n
      else getSize s.mem (p - headerSize)) (hn : n < 2 ^ 64) :
    Paired R ⟨{ s with mem := Mem.copy s.mem (b + 8) p len }, (b + 8, n) :: live⟩
      { t with mem := Mem.copy t.mem (b + 8) p len } bs
      (fun x => D x ∨ ∃ i, i < k % 2 ^ 64 ∧ i < n ∧ x = b + 8 + i ∧ D (p + i)) freed := by
  have hmod : n % 2 ^ 64 = n := Nat.mod_eq_of_lt hn
  have hnew : (b + 8, n) ∈ (b + 8, n) :: live := List.mem_cons_self ..
  have hle : len ≤ n := by
    rw [hlen]
    split_ifs
    · exact le_rfl
    · omega
  obtain ⟨d, hd, hpd, -, hsize⟩ := h.held.block p k (List.mem_cons_of_mem _ hp)
  have hroom : k % 2 ^ 64 + 16 ≤ getSize s.mem d := hsize
  have hpd' : p - headerSize = d := by
    rw [headerSize]
    omega
  rw [hpd'] at hlen
  have htags := h.held.sameTags hnew (changesOnly_copy s.mem (b + 8) p len) le_rfl (by omega)
  refine h.payload htags (fun x hx => copy_congr_at (fun h₁ h₂ => ?_) fun hout => ?_) fun x hx => ?_
  · -- inside the new block: neither a tag nor an old byte
    obtain ⟨e, he, hbe, -, hesize⟩ := h.held.block (b + 8) n hnew
    have heroom : n % 2 ^ 64 + 16 ≤ getSize s.mem e := hesize
    rcases hx with ⟨d', hd', hx⟩ | hx | ⟨i, hik, hin, rfl, hDi⟩
    · have hdis := h.held.heap.seg.tags_disjoint (x := x) (n := 1) hd' he (by omega)
        (by have heroom' : n % 2 ^ 64 + 16 ≤ getSize s.mem e := hesize
            change x + 1 + 8 ≤ e + getSize s.mem e
            omega)
      have hdis' : (d' + 8 ≤ x ∨ x + 1 ≤ d') ∧
        (d' + getSize s.mem d' ≤ x ∨ x + 1 ≤ d' + getSize s.mem d' - 8) := hdis
      omega
    · obtain ⟨q, j, hq, hx₁, hx₂⟩ := hD x hx
      have hdis := h.held.disjoint hnew (List.mem_cons_of_mem _ hq) (h.held.new_ne hq)
      omega
    · rw [Nat.add_sub_cancel_left]
      exact h.twin.agree _ (.inr hDi)
  · rcases hx with htag | hx | ⟨i, hik, hin, rfl, -⟩
    · exact h.twin.agree x (.inl htag)
    · exact h.twin.agree x (.inr hx)
    · refine absurd ⟨by omega, ?_⟩ hout
      rw [hlen]
      split_ifs
      · omega
      · omega
  · rcases hx with hx | ⟨i, hik, hin, rfl, -⟩
    · obtain ⟨q, j, hq, hx⟩ := hD x hx
      exact ⟨q, j, List.mem_cons_of_mem _ hq, hx⟩
    · exact ⟨b + 8, n, hnew, by omega, by omega⟩

theorem call_realloc (h : Paired R c t bs D freed) (hcalm : (Call.realloc p n).Calm R freed c) :
    ∃ c' r t' bs', c.call R (.realloc p n) = some (c', r) ∧
      (⟨t, c.live⟩ : Client).call R (.realloc p n) = some (⟨t', c'.live⟩, r) ∧
      Paired R c' t' bs' ((Call.realloc p n).defined c c' D r)
        (freed || ((Call.realloc p n).freesAt R c).isSome) := by
  obtain ⟨⟨hp, hn⟩, hfrees⟩ := hcalm
  by_cases hn0 : n = 0
  · have hcalm' : p ≠ 0 → FreesCalmly R freed c p := fun hp0 =>
      hfrees c p (by rw [Call.freesAt, if_neg hp0, if_pos hn0])
    obtain ⟨s', t', bs', hs, ht, hpair⟩ := h.call_free hp hcalm'
    refine ⟨⟨s', dropPtr c.live p⟩, 0, t', bs', by simp [Client.call, realloc, hn0, hs],
      by simp [Client.call, realloc, hn0, ht], ?_⟩
    have hfreed : ((Call.realloc p n).freesAt R c).isSome = decide (p ≠ 0) := by
      rw [Call.freesAt]
      by_cases hp0 : p = 0
      · simp [hp0]
      · simp [hp0, hn0]
    rw [hfreed]
    exact hpair.mono fun x hx => ⟨hx.1.resolve_right fun hg => hg.1 rfl, hx.2⟩
  have hmod : n % 2 ^ 64 = n := Nat.mod_eq_of_lt (by omega)
  have hmalloc := h.malloc (n := n) (by omega)
  rw [hmod] at hmalloc
  by_cases hp0 : p = 0
  · subst hp0
    have hnot : ∀ k, (0, k) ∉ c.live := fun k hk => h.held.ptr_ne_zero hk rfl
    have hlive : dropPtr c.live 0 = c.live := dropPtr_of_not_mem hnot
    have hfreed : (freed || ((Call.realloc 0 n).freesAt R c).isSome) = freed := by
      simp [Call.freesAt]
    rw [hfreed]
    have hgives : ∀ (c' : Client) r x, (Call.realloc 0 n).defined c c' D r x → D x := by
      intro c' r x hx
      refine hx.1.resolve_right fun hg => ?_
      obtain ⟨-, k, i, hk, -⟩ := hg
      exact hnot k hk
    rcases hmalloc with ⟨hs, ht⟩ | ⟨s', t', b, bs', hs, ht, hpair⟩
    · exact ⟨c, 0, t, bs, by simp [Client.call, realloc, hn0, hs],
        by simp [Client.call, realloc, hn0, ht], h.mono (hgives c 0)⟩
    · exact ⟨⟨s', (b + 8, n) :: c.live⟩, b + 8, t', bs',
        by simp [Client.call, realloc, hn0, hs, hlive],
        by simp [Client.call, realloc, hn0, ht, hlive], hpair.mono (hgives _ _)⟩
  obtain ⟨k, hk⟩ := hp.resolve_left hp0
  rcases hmalloc with ⟨hs, ht⟩ | ⟨s₁, t₁, b, bs₁, hs, ht, hpair⟩
  · have hfreed : (freed || ((Call.realloc p n).freesAt R c).isSome) = freed := by
      simp [Call.freesAt, hp0, hn0, hs]
    rw [hfreed]
    exact ⟨c, 0, t, bs, by simp [Client.call, realloc, hn0, hp0, hs],
      by simp [Client.call, realloc, hn0, hp0, ht],
      h.mono fun x hx => hx.1.resolve_right fun hg => hg.1 rfl⟩
  -- the steps of a `realloc` that moves the block
  obtain ⟨len, hlen⟩ : ∃ len, len = if n < getSize s₁.mem (p - headerSize) then n
      else getSize s₁.mem (p - headerSize) := ⟨_, rfl⟩
  have hsize : getSize t₁.mem (p - headerSize) = getSize s₁.mem (p - headerSize) := by
    obtain ⟨d, hd, rfl, -⟩ := hpair.held.block p k (List.mem_cons_of_mem _ hk)
    exact (hpair.twin.sameTags hd).getSize
  have hcopy := hpair.copy h.covered hk hlen (by omega)
  have hcall : (Call.realloc p n).freesAt R c = some
      (⟨{ s₁ with mem := Mem.copy s₁.mem (b + 8) p len }, (b + 8, n) :: c.live⟩, p) := by
    simp [Call.freesAt, hp0, hn0, hs, hlen]
  obtain ⟨s', t', bs', hs', ht', hfinal⟩ :=
    hcopy.free (List.mem_cons_of_mem _ hk) (hfrees _ p hcall)
  have hb0 : b + 8 ≠ 0 := by omega
  rw [dropPtr_cons_of_ne (hpair.held.new_ne hk)] at hfinal
  refine ⟨⟨s', (b + 8, n) :: dropPtr c.live p⟩, b + 8, t', bs', ?_, ?_, ?_⟩
  · simp [Client.call, realloc, hn0, hp0, hs, ← hlen, hs']
  · simp [Client.call, realloc, hn0, hp0, ht, hsize, ← hlen, ht']
  · rw [hcall, Option.isSome_some, Bool.or_true]
    refine hfinal.mono fun x hx => ⟨?_, hx.2⟩
    rcases hx.1 with hD | ⟨-, k', i, hk', hik, hin, hx', hDi⟩
    · exact .inl hD
    · have hkk : k' = k := congrArg Prod.snd (List.inj_on_of_nodup_map h.held.nodup hk' hk rfl)
      rw [hkk] at hik
      exact .inr ⟨i, hik, hin, hx', hDi⟩

theorem call {call : Call} (h : Paired R c t bs D freed) (hcalm : call.Calm R freed c) :
    ∃ c' r t' bs', c.call R call = some (c', r) ∧
      (⟨t, c.live⟩ : Client).call R call = some (⟨t', c'.live⟩, r) ∧
      Paired R c' t' bs' (call.defined c c' D r) (freed || (call.freesAt R c).isSome) := by
  cases call with
  | malloc n =>
    obtain ⟨c', r, t', bs', hs, ht, hpair⟩ := h.call_malloc hcalm.fits
    refine ⟨c', r, t', bs', hs, ht, ?_⟩
    rw [Call.freesAt, Option.isSome_none, Bool.or_false]
    exact hpair.mono fun x hx => hx.1.resolve_right False.elim
  | calloc k n =>
    obtain ⟨c', r, t', bs', hs, ht, hpair⟩ := h.call_calloc hcalm.fits
    refine ⟨c', r, t', bs', hs, ht, ?_⟩
    rw [Call.freesAt, Option.isSome_none, Bool.or_false]
    exact hpair
  | realloc p n => exact h.call_realloc hcalm
  | free p =>
    obtain ⟨s', t', bs', hs, ht, hpair⟩ := h.call_free hcalm.fits
      fun hp0 => hcalm.frees c p (by rw [Call.freesAt, if_neg hp0])
    refine ⟨⟨s', dropPtr c.live p⟩, 0, t', bs', by simp [Client.call, hs],
      by simp [Client.call, ht], ?_⟩
    have hfreed : ((Call.free p).freesAt R c).isSome = decide (p ≠ 0) := by
      rw [Call.freesAt]
      by_cases hp0 : p = 0
      · simp [hp0]
      · simp [hp0]
    rw [hfreed]
    exact hpair.mono fun x hx => ⟨hx.1.resolve_right False.elim, hx.2⟩
  | write p off bytes =>
    obtain ⟨k, hk, hoff⟩ := hcalm.fits
    refine ⟨_, 0, _, bs, rfl, rfl, ?_⟩
    rw [Call.freesAt, Option.isSome_none, Bool.or_false]
    exact h.call_write hk hoff

end Paired

theorem mmInit_eq (R : Region) (s : State) :
    mmInit R s = (⟨s.mem, R.heap + 8, s.lastNode⟩, 0) := by
  have hmax : 8 ≤ maxHeap := by decide
  have hlow := R.low
  have hle : R.heap + 8 ≤ memMaxAddr R := Nat.add_le_add_left hmax _
  have hsbrk : memSbrk R ⟨s.mem, R.heap, s.lastNode⟩ 8 =
      (⟨s.mem, R.heap + 8, s.lastNode⟩, R.heap) := memSbrk_of_le (by decide) hle
  have hheap : ¬ 2 ^ 63 ≤ R.heap := by omega
  unfold mmInit memResetBrk alignment headerSize
  simp only [Nat.reduceSub, hsbrk, if_neg hheap]

theorem paired_init (R : Region) (s : State) (m : Mem) :
    Paired R ⟨(mmInit R s).1, []⟩ (mmInit R (freshProcess R m)).1 [] (fun _ => False) false := by
  have hmax : 8 ≤ maxHeap := by decide
  rw [mmInit_freshProcess, mmInit_eq]
  refine ⟨⟨⟨⟨firstBlock_eq R, by simp⟩, ?_⟩, by simp, by simp, List.nodup_nil⟩, ⟨rfl, ?_⟩,
    fun x hx => hx.elim, rfl⟩
  · unfold memMaxAddr
    exact Nat.add_le_add_left hmax _
  · rintro x (⟨d, hd, -⟩ | hx)
    · cases hd
    · exact hx.elim

theorem answers_cons {call : Call} {calls : List Call} {c' c'' : Client} {r : Nat} {rs : List Nat}
    (hcall : c.call R call = some (c', r)) (hrest : c'.answers R calls = some (c'', rs)) :
    c.answers R (call :: calls) = some (c'', r :: rs) := by
  simp [Client.answers, hcall, hrest]

theorem CalmRun.paired {c c' : Client} {freed freed' : Bool} {D D' : Nat → Prop}
    {calls : List Call} {rs : List Nat} (hrun : CalmRun R c freed D calls c' rs freed' D')
    (h : Paired R c t bs D freed) : ∃ t' bs',
      (⟨t, c.live⟩ : Client).answers R calls = some (⟨t', c'.live⟩, rs) ∧
        Paired R c' t' bs' D' freed' := by
  induction hrun generalizing t bs with
  | nil => exact ⟨t, bs, rfl, h⟩
  | cons hcalm hcall hrest ih =>
    obtain ⟨c₁, r, t₁, bs₁, hs, ht, hpair⟩ := h.call hcalm
    rw [hcall] at hs
    obtain ⟨rfl, rfl⟩ := Prod.mk.inj (Option.some.inj hs)
    obtain ⟨t', bs', hanswers, hpair'⟩ := ih hpair
    exact ⟨t', bs', answers_cons ht hanswers, hpair'⟩

/-- After any history a process that initialises the allocator again gives the answers of a fresh
process, and every byte that has a value has the same one, in every run of calm calls; every
further calm call returns. -/
theorem mmInit_forgets (R : Region) (s : State) (m : Mem) {c : Client} {calls : List Call}
    {rs : List Nat} (hrun : CalmRun R ⟨(mmInit R s).1, []⟩ false (fun _ => False) calls c rs
      freed D) :
    (∃ t, Client.answers R ⟨(mmInit R (freshProcess R m)).1, []⟩ calls = some (t, rs) ∧
      t.live = c.live ∧ ∀ x, D x → t.state.mem x = c.state.mem x) ∧
    ∀ call : Call, call.Calm R freed c → ∃ c' r, c.call R call = some (c', r) := by
  obtain ⟨t, bs, hanswers, hpair⟩ := hrun.paired (paired_init R s m)
  refine ⟨⟨⟨t, c.live⟩, hanswers, rfl, fun x hx => hpair.twin.agree x (.inr hx)⟩, ?_⟩
  intro call hcalm
  obtain ⟨c', r, t', bs', hs, -⟩ := hpair.call hcalm
  exact ⟨c', r, hs⟩

def usedProcess : State := ⟨fun _ => 7, 0x800000038, 0x800000010⟩

theorem StaleHarmless.of_tiles {ptr : Nat}
    (htiles : Tiles (getSize c.state.mem) (firstBlock R) bs c.state.memBrk)
    (hclear : LinkClear c.state bs) (hlive : ∀ e ∈ c.live, e.1 ≠ ptr →
      e.1 + e.2 % 2 ^ 64 ≤ c.state.lastNode + 8 ∨ c.state.lastNode + 16 ≤ e.1) :
    StaleHarmless R c ptr := by
  refine .inr ⟨fun bs' htiles' => ?_, fun p n hp hne => hlive (p, n) hp hne⟩
  rw [htiles'.unique htiles]
  exact hclear

theorem Call.calm_of_fits {call : Call} {freed : Bool} (hfits : call.Fits c.live)
    (hnone : call.freesAt R c = none) : call.Calm R freed c :=
  ⟨hfits, fun c' ptr he => by simp [hnone] at he⟩

/-- `a = malloc(4); b = malloc(24);` fill `a`; `free(b)`, whose link falls behind the bytes of
`a` that were asked for. -/
def smallFirst : List Call :=
  [.malloc 4, .malloc 24, .write 0x800000010 0 [1, 2, 3, 4], .free 0x800000030]

theorem second_block_calm (hlive : c.live = [(0x800000030, 24), (0x800000010, 4)])
    (hlast : c.state.lastNode = 0x800000010) (hbrk : c.state.memBrk = 0x800000058)
    (hsize₁ : getSize c.state.mem 0x800000008 = 32)
    (hsize₂ : getSize c.state.mem 0x800000028 = 48) :
    (Call.free 0x800000030).Calm suggestedRegion false c := by
  have hfirst : firstBlock suggestedRegion = 0x800000008 := firstBlock_eq suggestedRegion
  have htiles : Tiles (getSize c.state.mem) (firstBlock suggestedRegion)
      [0x800000008, 0x800000028] c.state.memBrk := by
    simp only [Tiles, hfirst, hsize₁, hsize₂, hbrk, Nat.reduceAdd, Nat.reduceLT, and_self]
  have hclear : LinkClear c.state [0x800000008, 0x800000028] := by
    simp only [LinkClear, List.forall_mem_cons, hlast, hsize₁, hsize₂]
    exact ⟨by decide, by decide, List.forall_mem_nil _⟩
  have hother : ∀ e ∈ c.live, e.1 ≠ 0x800000030 →
      e.1 + e.2 % 2 ^ 64 ≤ c.state.lastNode + 8 ∨ c.state.lastNode + 16 ≤ e.1 := by
    rw [hlive, hlast]
    decide
  refine ⟨.inr ⟨24, by simp [hlive]⟩, fun c' ptr he => ?_⟩
  obtain ⟨rfl, rfl⟩ := Prod.mk.inj (Option.some.inj he)
  exact ⟨.inl (hsize₂ ▸ by decide), .of_tiles htiles hclear hother⟩

theorem mmInit_forgets_small : ∃ c t rs,
    Client.answers suggestedRegion ⟨(mmInit suggestedRegion usedProcess).1, []⟩ smallFirst =
      some (c, rs) ∧
    Client.answers suggestedRegion ⟨(mmInit suggestedRegion (freshProcess suggestedRegion
      fun _ => 0)).1, []⟩ smallFirst = some (t, rs) ∧
    c.live = [(0x800000010, 4)] ∧ t.live = [(0x800000010, 4)] ∧
    ∀ i < 4, c.state.mem (0x800000010 + i) = UInt8.ofNat (i + 1) ∧
      t.state.mem (0x800000010 + i) = UInt8.ofNat (i + 1) := by
  have hrun : (Client.call suggestedRegion ⟨(mmInit suggestedRegion usedProcess).1, []⟩
      (.malloc 4)).any (fun a => (a.1.call suggestedRegion (.malloc 24)).any fun b =>
        (b.1.call suggestedRegion (.write 0x800000010 0 [1, 2, 3, 4])).any fun d =>
          (d.1.call suggestedRegion (.free 0x800000030)).any fun e =>
            (Call.malloc 24).Fits a.1.live ∧
            (Call.write 0x800000010 0 [1, 2, 3, 4]).Fits b.1.live ∧
            (d.1.live = [(0x800000030, 24), (0x800000010, 4)] ∧
              d.1.state.lastNode = 0x800000010 ∧ d.1.state.memBrk = 0x800000058 ∧
              getSize d.1.state.mem 0x800000008 = 32 ∧
              getSize d.1.state.mem 0x800000028 = 48) ∧
            e.1.live = [(0x800000010, 4)] ∧
            ∀ i < 4, e.1.state.mem (0x800000010 + i) = UInt8.ofNat (i + 1)) = true := by
    decide +kernel
  obtain ⟨⟨c₁, r₁⟩, h₁, hrun⟩ := (Option.any_eq_true _ _).mp hrun
  obtain ⟨⟨c₂, r₂⟩, h₂, hrun⟩ := (Option.any_eq_true _ _).mp hrun
  obtain ⟨⟨c₃, r₃⟩, h₃, hrun⟩ := (Option.any_eq_true _ _).mp hrun
  obtain ⟨⟨c, r⟩, h₄, hrun⟩ := (Option.any_eq_true _ _).mp hrun
  obtain ⟨hfits₂, hfits₃, ⟨hlive₃, hlast, hbrk, hsize₁, hsize₂⟩, hlive, hbytes⟩ :=
    of_decide_eq_true hrun
  dsimp only at hfits₂ hfits₃ hlive₃ hlast hbrk hsize₁ hsize₂ hlive hbytes
  have hfree := second_block_calm hlive₃ hlast hbrk hsize₁ hsize₂
  obtain ⟨⟨t, ht, htlive, hagree⟩, -⟩ := mmInit_forgets suggestedRegion usedProcess (fun _ => 0)
    (.cons (Call.calm_of_fits (by decide) rfl) h₁ (.cons (Call.calm_of_fits hfits₂ rfl) h₂
      (.cons (Call.calm_of_fits hfits₃ rfl) h₃ (.cons hfree h₄ .nil))))
  refine ⟨c, t, [r₁, r₂, r₃, r], ?_, ht, hlive, htlive.trans hlive, fun i hi => ?_⟩
  · exact answers_cons h₁ (answers_cons h₂ (answers_cons h₃ (answers_cons h₄ rfl)))
  · have hcovered : Covered c₃.live (0x800000010 + i) :=
      ⟨0x800000010, 4, by simp [hlive₃], Nat.le_add_right _ _, Nat.add_lt_add_left hi _⟩
    have hlast : Covered c.live (0x800000010 + i) :=
      ⟨0x800000010, 4, by simp [hlive], Nat.le_add_right _ _, Nat.add_lt_add_left hi _⟩
    have hwritten : (Call.write 0x800000010 0 [1, 2, 3, 4]).gives c₂.live
        ((Call.malloc 24).defined c₁ c₂ ((Call.malloc 4).defined
          ⟨(mmInit suggestedRegion usedProcess).1, []⟩ c₁ (fun _ => False) r₁) r₂) r₃
        (0x800000010 + i) := ⟨Nat.le_add_right _ _, Nat.add_lt_add_left hi _⟩
    rw [hagree _ ⟨.inl ⟨.inr hwritten, hcovered⟩, hlast⟩]
    exact ⟨hbytes i hi, hbytes i hi⟩

/-- `p = malloc(24); free(p)` -/
def freedBefore : List Call := [.malloc 24, .free 0x800000010]

/-- `a = malloc(24); b = malloc(24);` fill `a` with ones; `free(b)` -/
def freedAfter : List Call :=
  [.malloc 24, .malloc 24, .write 0x800000010 0 (List.replicate 24 1), .free 0x800000040]

/-- After `freedBefore` and `mm_init` the link of the last `free` is written into the block `a`. -/
theorem mmInit_keeps_last_node : ∃ h c t,
    freshClient.fitRun suggestedRegion freedBefore = some h ∧
    Client.fitRun suggestedRegion ⟨(mmInit suggestedRegion h.state).1, []⟩ freedAfter = some c ∧
    freshClient.fitRun suggestedRegion freedAfter = some t ∧
    (0x800000010, 24) ∈ c.live ∧ (0x800000010, 24) ∈ t.live ∧
    c.state.mem 0x800000018 = 0x40 ∧ t.state.mem 0x800000018 = 1 := by
  have hrun : (match freshClient.fitRun suggestedRegion freedBefore with
      | some h => match Client.fitRun suggestedRegion ⟨(mmInit suggestedRegion h.state).1, []⟩
          freedAfter, freshClient.fitRun suggestedRegion freedAfter with
        | some c, some t => decide ((0x800000010, 24) ∈ c.live ∧ (0x800000010, 24) ∈ t.live ∧
            c.state.mem 0x800000018 = 0x40 ∧ t.state.mem 0x800000018 = 1)
        | _, _ => false
      | none => false) = true := by decide +kernel
  cases hh : freshClient.fitRun suggestedRegion freedBefore with
  | none => simp [hh] at hrun
  | some h =>
    cases hc : Client.fitRun suggestedRegion ⟨(mmInit suggestedRegion h.state).1, []⟩
        freedAfter with
    | none => simp [hh, hc] at hrun
    | some c =>
      cases ht : freshClient.fitRun suggestedRegion freedAfter with
      | none => simp [hh, hc, ht] at hrun
      | some t =>
        simp only [hh, hc, ht, decide_eq_true_eq] at hrun
        exact ⟨h, c, t, rfl, hc, rfl, hrun⟩

end CS24.Malloc
