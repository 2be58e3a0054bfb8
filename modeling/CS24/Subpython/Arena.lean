import CS24.Machine.Pieces
import CS24.Machine.Program
import CS24.Machine.Resources
import CS24.Subpython.Ast

/-!
# The arena of the parser

`arena.c`, which hands out the memory of the syntax trees. The allocator of the C library is
a parameter. Over any run the objects in the arena are apart from each other, so that each
keeps its bytes until its owner changes them; and `arena_free` gives every block back once.
-/

namespace CS24.Subpython.Arena
open Machine

/-- `malloc`: the address for a request, when these ranges of addresses and sizes are in
use. -/
abbrev Allocator := List (Nat × Nat) → Nat → Option Nat

def RangesApart (r r' : Nat × Nat) : Prop := r.1 + r.2 ≤ r'.1 ∨ r'.1 + r'.2 ≤ r.1

/-- A null pointer, or memory that is aligned and not in use; its end is an address too. -/
structure Allocator.Conforms (malloc : Allocator) : Prop where
  nonnull : ∀ live n a, malloc live n = some a → 0 < a
  aligned : ∀ live n a, malloc live n = some a → a % 16 = 0
  bounded : ∀ live n a, malloc live n = some a → a + n < 2 ^ 64
  apart : ∀ live n a, malloc live n = some a → ∀ r ∈ live, RangesApart (a, n) r

def defaultBlockSize : Nat := 8192
def alignment : Nat := 8

/-- `arena_block_t`, at its address. -/
structure Block where
  address : Nat
  size : Nat
  allocated : Nat
  area : Nat

/-- The process: what it has from `malloc`, in which order it got and freed it, the memory,
and the arena with its blocks, the current one first. -/
structure Process where
  live : List (Nat × Nat)
  usages : List (Usage Nat)
  mem : Mem
  arena : Nat
  blocks : List Block

inductive Stop where
  | assertion
  | null

abbrev AM := StateT Process (Except Stop)

def blockBytes : Nat := 32
def arenaBytes : Nat := 8

section
variable (malloc : Allocator)

/-- `malloc`, and the assertion that it returned memory. -/
def cMalloc (size : Nat) : AM Nat := do
  match malloc (← reads Process.live) size with
  | none => throw .assertion
  | some a => do
    modify fun s => { s with live := (a, size) :: s.live, usages := s.usages ++ [.acquire a] }
    pure a

def cFree (a : Nat) : AM Unit := modify fun s =>
  { s with live := s.live.filter (·.1 ≠ a), usages := s.usages ++ [.release a] }

def blockNew (size : Nat) : AM Block := do
  let block ← cMalloc malloc blockBytes
  let area ← cMalloc malloc size
  pure ⟨block, size, 0, area⟩

def arenaNew : AM Unit := do
  let arena ← cMalloc malloc arenaBytes
  let block ← blockNew malloc defaultBlockSize
  modify fun s => { s with arena := arena, blocks := [block] }

/-- The size rounded up to the alignment, in 64 bits. -/
def roundUp (size : Nat) : Nat := (size + alignment - 1) % 2 ^ 64 / alignment * alignment

/-- The end of `arena_malloc`: the next bytes of the current block. -/
def take (size : Nat) : AM Nat := do
  match ← reads Process.blocks with
  | [] => throw .null
  | current :: prev => do
    modify fun s => { s with
      blocks := { current with allocated := (current.allocated + size) % 2 ^ 64 } :: prev }
    pure ((current.area + current.allocated) % 2 ^ 64)

def arenaMalloc (size : Nat) : AM Nat := do
  match ← reads Process.blocks with
  | [] => throw .null
  | current :: _ =>
    if current.size < (current.allocated + roundUp size) % 2 ^ 64 then do
      let block ← blockNew malloc
        (if defaultBlockSize < roundUp size then roundUp size else defaultBlockSize)
      modify fun s => { s with blocks := block :: s.blocks }
      take (roundUp size)
    else take (roundUp size)

def arenaStrdup (str : CString) : AM Nat := do
  let new ← arenaMalloc malloc ((str.bytes.length + 1) % 2 ^ 64)
  if new ≠ 0 then
    modify fun s => { s with
      mem := (s.mem.write (new + str.bytes.length) [0]).write new str.bytes }
  pure new

end

/-- `block_free` for the block and those before it. -/
def freeBlocks : List Block → AM Unit
  | [] => pure ()
  | block :: prev => do
    cFree block.area
    cFree block.address
    freeBlocks prev

def arenaFree : AM Unit := do
  freeBlocks (← reads Process.blocks)
  cFree (← reads Process.arena)

/-- What a block has from `malloc`. -/
def Block.ranges (b : Block) : List (Nat × Nat) := [(b.area, b.size), (b.address, blockBytes)]

/-- The bytes that the block has handed out are bytes of its area. -/
structure Block.Sound (b : Block) : Prop where
  allocated_le : b.allocated ≤ b.size
  multiple : b.allocated % alignment = 0
  aligned : b.area % alignment = 0
  nonnull : 0 < b.area
  bounded : b.area + b.size < 2 ^ 64

def addresses (live : List (Nat × Nat)) : Finset Nat := (live.map Prod.fst).toFinset

/-- What is known of all that the process has, starting from what it `held`. -/
structure Holding (held : Finset Nat) (s : Process) : Prop where
  apart : s.live.Pairwise RangesApart
  positive : ∀ r ∈ s.live, 0 < r.2
  disciplined : Disciplined held s.usages
  held : heldAfter held s.usages = addresses s.live

/-- The objects are in the parts of the blocks that have been handed out. The process has
the blocks and the arena besides what it was `given`, in the order of `arena_free`. -/
structure Sound (given : List (Nat × Nat)) (s : Process) (ps : List Piece) : Prop where
  holding : Holding (addresses given) s
  live : s.live = s.blocks.flatMap Block.ranges ++ (s.arena, arenaBytes) :: given
  nonempty : s.blocks ≠ []
  blocks : ∀ b ∈ s.blocks, b.Sound
  stored : Stored s.mem ps
  aligned : ∀ p ∈ ps, p.address % alignment = 0
  inside : ∀ p ∈ ps, ∃ b ∈ s.blocks, b.area ≤ p.address ∧ p.stop ≤ b.area + b.allocated

/-- The `n` bytes at `a` are handed out, and no object has any of them. -/
structure Room (s : Process) (ps : List Piece) (a n : Nat) : Prop where
  aligned : a % alignment = 0
  nonnull : 0 < a
  free : ∀ p ∈ ps, a + n ≤ p.address ∨ p.stop ≤ a
  inside : ∃ b ∈ s.blocks, b.area ≤ a ∧ a + n ≤ b.area + b.allocated

variable {malloc : Allocator} {given : List (Nat × Nat)} {s s' : Process} {ps : List Piece}
  {a n size : Nat} {b current : Block} {bs prev : List Block} {held : Finset Nat}
  {rest : List (Nat × Nat)} {p : Piece}

/-- The process after a call of `malloc`. -/
def Process.acquired (s : Process) (a n : Nat) : Process :=
  { s with live := (a, n) :: s.live, usages := s.usages ++ [.acquire a] }

def Process.released (s : Process) (a : Nat) (rest : List (Nat × Nat)) : Process :=
  { s with live := rest, usages := s.usages ++ [.release a] }

theorem cMalloc_spec (malloc : Allocator) (size : Nat) (s : Process) :
    wp (cMalloc malloc size) (· = .assertion)
      (fun a s' => malloc s.live size = some a ∧ s' = s.acquired a size) s := by
  rw [cMalloc, wp_bind_of_ok (show reads Process.live s = .ok (_, _) from rfl)]
  cases h : malloc s.live size with
  | none => exact rfl
  | some a => exact ⟨rfl, rfl⟩

theorem not_mem_addresses {live : List (Nat × Nat)} (hapart : ∀ r ∈ live, RangesApart (a, n) r)
    (hn : 0 < n) (hpos : ∀ r ∈ live, 0 < r.2) : a ∉ addresses live := by
  intro hmem
  obtain ⟨r, hr, rfl⟩ := List.mem_map.mp (List.mem_toFinset.mp hmem)
  have hr' := hpos r hr
  rcases hapart r hr with hlt | hgt
  · change r.1 + n ≤ r.1 at hlt
    omega
  · change r.1 + r.2 ≤ r.1 at hgt
    omega

theorem Holding.acquired (h : Holding held s) (hmalloc : malloc.Conforms)
    (ha : malloc s.live n = some a) (hn : 0 < n) : Holding held (s.acquired a n) := by
  have hapart := hmalloc.apart _ _ _ ha
  refine ⟨.cons hapart h.apart, List.forall_mem_cons.mpr ⟨hn, h.positive⟩, ?_, ?_⟩
  · refine disciplined_append.mpr ⟨h.disciplined, ?_, trivial⟩
    rw [h.held]
    exact not_mem_addresses hapart hn h.positive
  · change heldAfter held (s.usages ++ [.acquire a]) = addresses ((a, n) :: s.live)
    rw [heldAfter_append, h.held, addresses, addresses, List.map_cons, List.toFinset_cons]
    rfl

theorem cFree_spec (h : Holding held s) (hlive : s.live = (a, n) :: rest) :
    cFree a s = .ok ((), s.released a rest) ∧ Holding held (s.released a rest) := by
  have hapart := h.apart
  have hpos := h.positive
  rw [hlive] at hapart hpos
  obtain ⟨hhead, htail⟩ := List.pairwise_cons.mp hapart
  obtain ⟨hn, hrest⟩ := List.forall_mem_cons.mp hpos
  have hnot : a ∉ addresses rest := not_mem_addresses hhead hn hrest
  have hfilter : s.live.filter (·.1 ≠ a) = rest := by
    rw [hlive, List.filter_cons_of_neg (by simp), List.filter_eq_self]
    intro r hr
    refine decide_eq_true fun heq => hnot ?_
    exact heq ▸ List.mem_toFinset.mpr (List.mem_map_of_mem hr)
  have hadd : addresses s.live = insert a (addresses rest) := by
    rw [hlive, addresses, addresses, List.map_cons, List.toFinset_cons]
  refine ⟨?_, htail, hrest, ?_, ?_⟩
  · exact congrArg (fun live => Except.ok ((),
      { s with live := live, usages := s.usages ++ [Usage.release a] })) hfilter
  · refine disciplined_append.mpr ⟨h.disciplined, ?_, trivial⟩
    rw [h.held, hadd]
    exact Finset.mem_insert_self a _
  · change heldAfter held (s.usages ++ [.release a]) = addresses rest
    rw [heldAfter_append, h.held, hadd]
    exact Finset.erase_insert hnot

theorem blockNew_spec (malloc : Allocator) (size : Nat) (s : Process) :
    wp (blockNew malloc size) (· = .assertion) (fun b s' =>
      malloc s.live blockBytes = some b.address ∧
      malloc (s.acquired b.address blockBytes).live size = some b.area ∧ b.size = size ∧
      b.allocated = 0 ∧ s' = (s.acquired b.address blockBytes).acquired b.area size) s := by
  refine (cMalloc_spec malloc blockBytes s).bind fun address s₁ h₁ => ?_
  obtain ⟨haddress, rfl⟩ := h₁
  refine (cMalloc_spec malloc size _).bind fun area s₂ h₂ => ?_
  obtain ⟨harea, rfl⟩ := h₂
  exact ⟨haddress, harea, rfl, rfl, rfl⟩

theorem block_sound (hmalloc : malloc.Conforms) {live : List (Nat × Nat)}
    (harea : malloc live b.size = some b.area) (hallocated : b.allocated = 0) : b.Sound := by
  have haligned := hmalloc.aligned _ _ _ harea
  refine ⟨by omega, by rw [hallocated]; rfl, ?_, hmalloc.nonnull _ _ _ harea,
    hmalloc.bounded _ _ _ harea⟩
  rw [alignment]
  omega

theorem Sound.push (h : Sound given s ps) (hmalloc : malloc.Conforms)
    (haddress : malloc s.live blockBytes = some b.address)
    (harea : malloc (s.acquired b.address blockBytes).live b.size = some b.area)
    (hsize : 0 < b.size) (hallocated : b.allocated = 0) :
    Sound given { (s.acquired b.address blockBytes).acquired b.area b.size with
      blocks := b :: s.blocks } ps := by
  have hholding := (h.holding.acquired hmalloc haddress (by decide)).acquired hmalloc harea hsize
  refine ⟨⟨hholding.apart, hholding.positive, hholding.disciplined, hholding.held⟩, ?_,
    List.cons_ne_nil _ _, ?_, h.stored, h.aligned, fun p hp => ?_⟩
  · change (b.area, b.size) :: (b.address, blockBytes) :: s.live = _
    rw [h.live]
    rfl
  · exact List.forall_mem_cons.mpr ⟨block_sound hmalloc harea hallocated, h.blocks⟩
  · obtain ⟨b', hb', hinside⟩ := h.inside p hp
    exact ⟨b', List.mem_cons_of_mem _ hb', hinside⟩

theorem Sound.areas_apart (h : Sound given s ps) (hblocks : s.blocks = current :: prev)
    (hb : b ∈ prev) : RangesApart (current.area, current.size) (b.area, b.size) := by
  have hapart := h.holding.apart
  rw [h.live, hblocks, List.flatMap_cons, Block.ranges, List.append_assoc] at hapart
  have hmem : (b.area, b.size) ∈ prev.flatMap Block.ranges :=
    List.mem_flatMap.mpr ⟨b, hb, List.mem_cons_self⟩
  exact (List.pairwise_append.mp hapart).2.2 _ List.mem_cons_self _ (List.mem_append_left _ hmem)

theorem take_spec (h : Sound given s ps) (hblocks : s.blocks = current :: prev)
    (hfits : current.allocated + size ≤ current.size) (hsize : size % alignment = 0)
    (hn : n ≤ size) :
    wp (take size) (fun _ => False)
      (fun a s' => Sound given s' ps ∧ s'.mem = s.mem ∧ Room s' ps a n) s := by
  have hcurrent : current.Sound := h.blocks current (hblocks ▸ List.mem_cons_self)
  have hle := hcurrent.allocated_le
  have hmultiple := hcurrent.multiple
  have haligned := hcurrent.aligned
  have hnonnull := hcurrent.nonnull
  have hbounded := hcurrent.bounded
  have hadd : (current.allocated + size) % 2 ^ 64 = current.allocated + size := by omega
  have hstart : (current.area + current.allocated) % 2 ^ 64 = current.area + current.allocated := by
    omega
  rw [alignment] at hmultiple haligned hsize
  rw [take, wp_bind_of_ok (show reads Process.blocks s = .ok (_, _) from rfl), hblocks]
  dsimp only
  rw [hadd, hstart]
  refine ⟨⟨⟨h.holding.apart, h.holding.positive, h.holding.disciplined, h.holding.held⟩, ?_,
    List.cons_ne_nil _ _, ?_, h.stored, h.aligned, fun p hp => ?_⟩, rfl, ?_, by omega,
    fun p hp => ?_, ⟨_, List.mem_cons_self, ?_, ?_⟩⟩
  · change s.live = _
    rw [h.live, hblocks]
    rfl
  · refine List.forall_mem_cons.mpr ⟨⟨hfits, ?_, hcurrent.aligned, hnonnull, hbounded⟩, ?_⟩
    · change (current.allocated + size) % alignment = 0
      rw [alignment]
      omega
    · exact fun b hb => h.blocks b (hblocks ▸ List.mem_cons_of_mem _ hb)
  · obtain ⟨b, hb, hlo, hhi⟩ := h.inside p hp
    rw [hblocks] at hb
    rcases List.mem_cons.mp hb with rfl | hb
    · refine ⟨_, List.mem_cons_self, hlo, ?_⟩
      change p.stop ≤ b.area + (b.allocated + size)
      omega
    · exact ⟨b, List.mem_cons_of_mem _ hb, hlo, hhi⟩
  · rw [alignment]
    omega
  · obtain ⟨b, hb, hlo, hhi⟩ := h.inside p hp
    rw [hblocks] at hb
    rcases List.mem_cons.mp hb with rfl | hb
    · exact .inr hhi
    · have hb' := (h.blocks b (hblocks ▸ List.mem_cons_of_mem _ hb)).allocated_le
      rcases h.areas_apart hblocks hb with hlt | hgt
      · left
        change current.area + current.size ≤ b.area at hlt
        omega
      · right
        change b.area + b.size ≤ current.area at hgt
        omega
  · change current.area ≤ current.area + current.allocated
    omega
  · change current.area + current.allocated + n ≤ current.area + (current.allocated + size)
    omega

theorem roundUp_spec (h : n + 7 < 2 ^ 64) : roundUp n % alignment = 0 ∧ n ≤ roundUp n ∧
    roundUp n ≤ n + 7 := by
  simp only [roundUp, alignment]
  omega

/-- The sizes of the request and of the current block are such that no sum wraps around. -/
def Fits (s : Process) (n : Nat) : Prop :=
  ∀ b ∈ s.blocks.head?, b.allocated + n + 7 < 2 ^ 64

theorem arenaMalloc_spec (h : Sound given s ps) (hmalloc : malloc.Conforms) (hfits : Fits s n) :
    wp (arenaMalloc malloc n) (· = .assertion)
      (fun a s' => Sound given s' ps ∧ s'.mem = s.mem ∧ Room s' ps a n) s := by
  obtain ⟨current, prev, hblocks⟩ := List.exists_cons_of_ne_nil h.nonempty
  have hsum : current.allocated + n + 7 < 2 ^ 64 := hfits current (by rw [hblocks]; rfl)
  obtain ⟨hmultiple, hle, hge⟩ := roundUp_spec (n := n) (by omega)
  rw [arenaMalloc, wp_bind_of_ok (show reads Process.blocks s = .ok (_, _) from rfl), hblocks]
  have hmod : (current.allocated + roundUp n) % 2 ^ 64 = current.allocated + roundUp n := by omega
  dsimp only
  rw [hmod, wp_ite]
  refine ⟨fun _ => ?_, fun hroom => ?_⟩
  · refine (blockNew_spec malloc _ s).bind fun b s₁ hb => ?_
    obtain ⟨haddress, harea, hsize, hallocated, rfl⟩ := hb
    have hlarge : roundUp n ≤ b.size ∧ 0 < b.size := by
      rw [hsize]
      split_ifs
      · exact ⟨le_rfl, by omega⟩
      · exact ⟨by omega, by decide⟩
    rw [← hsize] at harea ⊢
    have hpush := h.push hmalloc haddress harea hlarge.2 hallocated
    rw [wp_bind, wp_modify]
    refine (take_spec hpush rfl (by omega) hmultiple hle).mono ?_ fun _ hfalse => hfalse.elim
    exact fun a s' hs' => hs'
  · refine (take_spec h hblocks (by omega) hmultiple hle).mono ?_ fun _ hfalse => hfalse.elim
    exact fun a s' hs' => hs'

theorem Sound.add {m : Mem} (h : Sound given s ps) (hroom : Room s ps p.address p.bytes.length)
    (hp : p.In m) (hm : Mem.ChangesOnly s.mem m p.address p.bytes.length) :
    Sound given { s with mem := m } (p :: ps) := by
  refine ⟨⟨h.holding.apart, h.holding.positive, h.holding.disciplined, h.holding.held⟩, h.live,
    h.nonempty, h.blocks, h.stored.cons hp hroom.free hm,
    List.forall_mem_cons.mpr ⟨hroom.aligned, h.aligned⟩, ?_⟩
  exact List.forall_mem_cons.mpr ⟨hroom.inside, h.inside⟩

/-- The object that `arena_strdup` makes. -/
def stringBytes (str : CString) : List UInt8 := str.bytes ++ [0]

theorem arenaStrdup_spec {str : CString} (h : Sound given s ps) (hmalloc : malloc.Conforms)
    (hfits : Fits s (str.bytes.length + 1)) :
    wp (arenaStrdup malloc str) (· = .assertion)
      (fun a s' => Sound given s' (⟨a, stringBytes str⟩ :: ps)) s := by
  obtain ⟨current, prev, hblocks⟩ := List.exists_cons_of_ne_nil h.nonempty
  have hsum := hfits current (by rw [hblocks]; rfl)
  have hlen : (str.bytes.length + 1) % 2 ^ 64 = str.bytes.length + 1 := by omega
  rw [arenaStrdup, hlen]
  refine (arenaMalloc_spec h hmalloc hfits).bind fun a s₁ hs₁ => ?_
  obtain ⟨hsound, -, hroom⟩ := hs₁
  rw [if_pos hroom.nonnull.ne']
  have hbytes : (stringBytes str).length = str.bytes.length + 1 := by
    rw [stringBytes, List.length_append, List.length_singleton]
  have hwrite := Piece.write_append s₁.mem a str.bytes [0]
  change Sound given { s₁ with
    mem := (s₁.mem.write (a + str.bytes.length) [0]).write a str.bytes } _
  rw [hwrite]
  have hroom' : Room s₁ ps a (stringBytes str).length := by
    rw [hbytes]
    exact hroom
  exact Sound.add (p := ⟨a, stringBytes str⟩) hsound hroom' (Piece.write_in _ _ _)
    (Mem.changesOnly_write _ _ _)

/-- Before the arena is made: the ranges in use are apart and not empty. -/
structure Fresh (s : Process) : Prop where
  usages : s.usages = []
  apart : s.live.Pairwise RangesApart
  positive : ∀ r ∈ s.live, 0 < r.2

theorem arenaNew_spec (hmalloc : malloc.Conforms) (hs : Fresh s) :
    wp (arenaNew malloc) (· = .assertion) (fun _ s' => Sound s.live s' []) s := by
  have hstart : Holding (addresses s.live) s := by
    refine ⟨hs.apart, hs.positive, ?_, ?_⟩
    · rw [hs.usages]
      trivial
    · rw [hs.usages]
      rfl
  refine (cMalloc_spec malloc arenaBytes s).bind fun arena s₁ h₁ => ?_
  obtain ⟨harena, rfl⟩ := h₁
  have h₁ := hstart.acquired hmalloc harena (by decide)
  refine (blockNew_spec malloc defaultBlockSize _).bind fun b s₂ h₂ => ?_
  obtain ⟨haddress, harea, hsize, hallocated, rfl⟩ := h₂
  have h₂ := (h₁.acquired hmalloc haddress (by decide)).acquired hmalloc harea (by decide)
  rw [← hsize] at harea h₂ ⊢
  refine ⟨⟨h₂.apart, h₂.positive, h₂.disciplined, h₂.held⟩, rfl, List.cons_ne_nil _ _, ?_,
    Stored.nil _, List.forall_mem_nil _, List.forall_mem_nil _⟩
  exact List.forall_mem_singleton.mpr (block_sound hmalloc harea hallocated)

theorem freeBlocks_spec (hs : Holding held s) (hlive : s.live = bs.flatMap Block.ranges ++ rest) :
    wp (freeBlocks bs) (fun _ => False)
      (fun _ s' => Holding held s' ∧ s'.live = rest ∧ s'.arena = s.arena) s := by
  induction bs generalizing s with
  | nil => exact ⟨hs, hlive, rfl⟩
  | cons b bs ih =>
    obtain ⟨harea, h₁⟩ := cFree_spec hs hlive
    have hnext : (s.released b.area ((b.address, blockBytes) :: (bs.flatMap Block.ranges ++
        rest))).live = (b.address, blockBytes) :: (bs.flatMap Block.ranges ++ rest) := rfl
    obtain ⟨haddress, h₂⟩ := cFree_spec h₁ hnext
    rw [freeBlocks, wp_bind_of_ok harea, wp_bind_of_ok haddress]
    exact ih h₂ rfl

theorem arenaFree_spec (h : Sound given s ps) :
    wp arenaFree (fun _ => False)
      (fun _ s' => Holding (addresses given) s' ∧ s'.live = given) s := by
  rw [arenaFree, wp_bind_of_ok (show reads Process.blocks s = .ok (_, _) from rfl)]
  refine (freeBlocks_spec h.holding h.live).bind fun _ s₁ h₁ => ?_
  obtain ⟨hholding, hlive, harena⟩ := h₁
  rw [wp_bind_of_ok (show reads Process.arena s₁ = .ok (_, _) from rfl), harena]
  obtain ⟨hfree, hreleased⟩ := cFree_spec hholding hlive
  exact wp_of_ok hfree ⟨hreleased, rfl⟩

/-- What the parser does with an arena, and the objects it has there: memory from
`arena_malloc` with whatever bytes it has, a copy of a string, and a write into an object. -/
inductive Run (malloc : Allocator) (s₀ : Process) : Process → List Piece → Prop
  | new {s : Process} : arenaNew malloc s₀ = .ok ((), s) → Run malloc s₀ s []
  | malloc {s s' : Process} {ps : List Piece} {n a : Nat} : Run malloc s₀ s ps → Fits s n →
      arenaMalloc malloc n s = .ok (a, s') → Run malloc s₀ s' (Piece.read s'.mem a n :: ps)
  | strdup {s s' : Process} {ps : List Piece} {str : CString} {a : Nat} : Run malloc s₀ s ps →
      Fits s (str.bytes.length + 1) → arenaStrdup malloc str s = .ok (a, s') →
      Run malloc s₀ s' (⟨a, stringBytes str⟩ :: ps)
  | store {s : Process} {xs ys : List Piece} {p : Piece} {offset : Nat} {bytes : List UInt8} :
      Run malloc s₀ s (xs ++ p :: ys) → offset + bytes.length ≤ p.bytes.length →
      Run malloc s₀ { s with mem := s.mem.write (p.address + offset) bytes }
        (xs ++ p.overwrite offset bytes :: ys)

theorem Sound.store {xs ys : List Piece} {offset : Nat} {bytes : List UInt8}
    (h : Sound given s (xs ++ p :: ys)) (hfits : offset + bytes.length ≤ p.bytes.length) :
    Sound given { s with mem := s.mem.write (p.address + offset) bytes }
      (xs ++ p.overwrite offset bytes :: ys) := by
  refine ⟨⟨h.holding.apart, h.holding.positive, h.holding.disciplined, h.holding.held⟩, h.live,
    h.nonempty, h.blocks, h.stored.overwrite hfits, ?_, ?_⟩
  · have haligned := h.aligned
    rw [List.forall_mem_append, List.forall_mem_cons] at haligned ⊢
    exact haligned
  · have hinside := h.inside
    rw [List.forall_mem_append, List.forall_mem_cons] at hinside ⊢
    rw [Piece.overwrite_stop hfits]
    exact hinside

theorem Run.sound {s₀ : Process} (hmalloc : malloc.Conforms) (hs : Fresh s₀)
    (h : Run malloc s₀ s ps) : Sound s₀.live s ps := by
  induction h with
  | new hnew => exact (arenaNew_spec hmalloc hs).ok hnew
  | malloc _ hfits hcall ih =>
    obtain ⟨hsound, -, hroom⟩ := (arenaMalloc_spec ih hmalloc hfits).ok hcall
    refine Sound.add hsound ?_ (Piece.read_in _ _ _) fun _ _ => rfl
    rw [Piece.read_length]
    exact hroom
  | strdup _ hfits hcall ih => exact (arenaStrdup_spec ih hmalloc hfits).ok hcall
  | store _ hfits ih => exact ih.store hfits

def stackAllocator : Allocator := fun live n =>
  let top := live.foldr (fun r top => max top ((r.1 + r.2 + 15) / 16 * 16)) 16
  if top + n < 2 ^ 64 then some top else none

theorem stackAllocator_conforms : stackAllocator.Conforms := by
  have htop : ∀ live : List (Nat × Nat),
      16 ≤ live.foldr (fun r top => max top ((r.1 + r.2 + 15) / 16 * 16)) 16 ∧
      live.foldr (fun r top => max top ((r.1 + r.2 + 15) / 16 * 16)) 16 % 16 = 0 ∧
      ∀ r ∈ live, r.1 + r.2 ≤
        live.foldr (fun r top => max top ((r.1 + r.2 + 15) / 16 * 16)) 16 := by
    intro live
    induction live with
    | nil => exact ⟨le_rfl, rfl, List.forall_mem_nil _⟩
    | cons r live ih =>
      obtain ⟨hge, hmod, hall⟩ := ih
      rw [List.foldr_cons]
      refine ⟨by omega, by omega, List.forall_mem_cons.mpr ⟨by omega, fun q hq => ?_⟩⟩
      exact (hall q hq).trans (le_max_left _ _)
  have hsome : ∀ live n a, stackAllocator live n = some a →
      a = live.foldr (fun r top => max top ((r.1 + r.2 + 15) / 16 * 16)) 16 ∧ a + n < 2 ^ 64 := by
    intro live n a h
    rw [stackAllocator] at h
    split_ifs at h with hlt
    obtain rfl := Option.some.inj h
    exact ⟨rfl, hlt⟩
  refine ⟨fun live n a h => ?_, fun live n a h => ?_, fun live n a h => (hsome live n a h).2,
    fun live n a h r hr => ?_⟩
  · obtain ⟨rfl, -⟩ := hsome live n a h
    exact Nat.lt_of_lt_of_le (by decide) (htop live).1
  · obtain ⟨rfl, -⟩ := hsome live n a h
    exact (htop live).2.1
  · obtain ⟨rfl, -⟩ := hsome live n a h
    exact .inr ((htop live).2.2 r hr)

def emptyProcess : Process := ⟨[], [], fun _ => 0, 0, []⟩

theorem emptyProcess_fresh : Fresh emptyProcess := ⟨rfl, .nil, List.forall_mem_nil _⟩

def ab : CString := ⟨[97, 98], by decide⟩

def newProcess : Process :=
  ⟨[(64, 8192), (32, 32), (16, 8)], [.acquire 16, .acquire 32, .acquire 64], fun _ => 0, 16,
    [⟨32, 8192, 0, 64⟩]⟩

/-- A node of 16 bytes with a pointer to its name, a copy of `ab`. -/
def namedProcess : Process :=
  { newProcess with
    mem := ((Mem.write (fun _ => 0) 82 [0]).write 80 [97, 98]).write 64 [80],
    blocks := [⟨32, 8192, 24, 64⟩] }

def grownProcess : Process :=
  { namedProcess with
    live := (8288, 8192) :: (8256, 32) :: newProcess.live,
    usages := newProcess.usages ++ [.acquire 8256] ++ [.acquire 8288],
    blocks := ⟨8256, 8192, 8192, 8288⟩ :: namedProcess.blocks }

def grownPieces : List Piece :=
  [Piece.read grownProcess.mem 8288 8192, ⟨80, [97, 98, 0]⟩,
    ⟨64, [80, 0, 0, 0, 0, 0, 0, 0, 0, 0, 0, 0, 0, 0, 0, 0]⟩]

theorem grown_run : Run stackAllocator emptyProcess grownProcess grownPieces := by
  have hnew : Run stackAllocator emptyProcess newProcess [] := .new rfl
  have hnode : Run stackAllocator emptyProcess
      { newProcess with blocks := [⟨32, 8192, 16, 64⟩] } [Piece.read (fun _ => 0) 64 16] := by
    refine .malloc (n := 16) hnew ?_ rfl
    rintro b ⟨⟩
    decide
  have hname : Run stackAllocator emptyProcess
      { newProcess with
        mem := (Mem.write (fun _ => 0) 82 [0]).write 80 [97, 98],
        blocks := [⟨32, 8192, 24, 64⟩] }
      [⟨80, stringBytes ab⟩, Piece.read (fun _ => 0) 64 16] := by
    refine .strdup hnode ?_ rfl
    rintro b ⟨⟩
    decide
  have hpointer : Run stackAllocator emptyProcess namedProcess
      [⟨80, [97, 98, 0]⟩, ⟨64, [80, 0, 0, 0, 0, 0, 0, 0, 0, 0, 0, 0, 0, 0, 0, 0]⟩] :=
    @Run.store stackAllocator emptyProcess _ [⟨80, stringBytes ab⟩] [] _ 0 [80] hname (by decide)
  refine .malloc (n := 8192) hpointer ?_ rfl
  rintro b ⟨⟩
  decide

/-- Whatever the parser does with its arena, every object has the bytes that were last put
there, is aligned, overlaps no other object, and lies inside memory from `malloc`. -/
theorem arena_keeps_objects {s₀ : Process} (hmalloc : malloc.Conforms) (hs : Fresh s₀)
    (h : Run malloc s₀ s ps) : Stored s.mem ps ∧ ∀ p ∈ ps, p.address % alignment = 0 ∧
      0 < p.address ∧ ∃ r ∈ s.live, r.1 ≤ p.address ∧ p.stop ≤ r.1 + r.2 := by
  have hsound := h.sound hmalloc hs
  refine ⟨hsound.stored, fun p hp => ⟨hsound.aligned p hp, ?_⟩⟩
  obtain ⟨b, hb, hlo, hhi⟩ := hsound.inside p hp
  have hblock := hsound.blocks b hb
  have hle := hblock.allocated_le
  have hpos := hblock.nonnull
  refine ⟨by omega, (b.area, b.size), ?_, hlo, ?_⟩
  · rw [hsound.live]
    exact List.mem_append_left _ (List.mem_flatMap.mpr ⟨b, hb, List.mem_cons_self⟩)
  · change p.stop ≤ b.area + b.size
    omega

theorem arena_keeps_objects_grown : Stored grownProcess.mem grownPieces ∧
    ∀ p ∈ grownPieces, p.address % alignment = 0 ∧ 0 < p.address ∧
      ∃ r ∈ grownProcess.live, r.1 ≤ p.address ∧ p.stop ≤ r.1 + r.2 :=
  arena_keeps_objects stackAllocator_conforms emptyProcess_fresh grown_run

/-- After any run `arena_free` returns, and over the whole life of the arena each address is
freed just as often as `malloc` returned it, never while it is not in use. -/
theorem arena_frees_once {s₀ : Process} (hmalloc : malloc.Conforms) (hs : Fresh s₀)
    (h : Run malloc s₀ s ps) : ∃ s', arenaFree s = .ok ((), s') ∧ s'.live = s₀.live ∧
      Disciplined (addresses s₀.live) s'.usages ∧
      ∀ a, s'.usages.count (.acquire a) = s'.usages.count (.release a) := by
  obtain ⟨_, s', hfree, hholding, hlive⟩ := (arenaFree_spec (h.sound hmalloc hs)).returns
  refine ⟨s', hfree, hlive, hholding.disciplined, fun a => ?_⟩
  have hcounts := hholding.disciplined.counts a
  rw [hholding.held, hlive] at hcounts
  omega

theorem arena_frees_once_grown :
    ∃ s', arenaFree grownProcess = .ok ((), s') ∧ s'.live = [] ∧
      Disciplined (addresses []) s'.usages ∧
      ∀ a, s'.usages.count (.acquire a) = s'.usages.count (.release a) :=
  arena_frees_once stackAllocator_conforms emptyProcess_fresh grown_run

end CS24.Subpython.Arena
