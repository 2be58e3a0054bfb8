import CS24.Proxy.Lookup

/-!
# The lock of the cache

`cache.c` with its locks. A lock that is passed by value is a copy, with the state that the
lock has at the call; the copy goes away when the call returns, so its last unlocking is left
out. POSIX leaves open whether a thread that asks for a lock it has write-locked waits for
itself or gets `EDEADLK`, a result that `cache.c` does not look at.
-/

namespace CS24.Proxy
open Machine Linked

/-- `pthread_rwlock_t` -/
inductive RwLock where
  | unlocked
  | readLocked (readers : Nat)
  | writeLocked

inductive Relock where
  | blocks
  | edeadlk

/-- `cache_t` -/
structure Guarded where
  cache : State
  lock : RwLock

inductive LockStop where
  | cache (stop : Stop)
  | blocked

abbrev LM := StateT Guarded (Except LockStop)

variable {α β : Type} {Q : α → Guarded → Prop} {R : α → State → Prop}

def lifted (c : M α) : LM α := fun s =>
  match c s.cache with
  | .ok (a, t) => .ok (a, { s with cache := t })
  | .error e => .error (.cache e)

namespace Locked

variable (relock : Relock)

/-- `pthread_rwlock_wrlock` -/
def wrlock : RwLock → LM RwLock
  | .unlocked => pure .writeLocked
  | .readLocked _ => throw .blocked
  | .writeLocked =>
    match relock with
    | .blocks => throw .blocked
    | .edeadlk => pure .writeLocked

/-- `pthread_rwlock_rdlock` -/
def rdlock : RwLock → LM RwLock
  | .unlocked => pure (.readLocked 1)
  | .readLocked readers => pure (.readLocked (readers + 1))
  | .writeLocked =>
    match relock with
    | .blocks => throw .blocked
    | .edeadlk => pure .writeLocked

/-- `pthread_rwlock_unlock` -/
def unlock : RwLock → RwLock
  | .readLocked (readers + 2) => .readLocked (readers + 1)
  | _ => .unlocked

/-- `pthread_rwlock_wrlock(&cache->lock)` -/
def lockCache : LM Unit := do
  let lock ← wrlock relock (← reads Guarded.lock)
  modify fun s => { s with lock := lock }

/-- `pthread_rwlock_unlock(&cache->lock)` -/
def unlockCache : LM Unit := modify fun s => { s with lock := unlock s.lock }

def getLock : LM RwLock := reads Guarded.lock

def dequeue (lock : RwLock) : LM Nat := do
  if (← lifted (reads State.back)) = 0 then pure 0
  else
    let _ ← wrlock relock lock
    lifted Proxy.dequeue

def queueUpdate (node : Nat) : LM Unit := do
  lockCache relock
  lifted (Proxy.queueUpdate node)
  unlockCache

def enqueue (node : Nat) (lock : RwLock) : LM Unit := do
  let _ ← wrlock relock lock
  lifted (Proxy.enqueue node)

def cacheRemove : LM Nat := do
  let back ← lifted (deref (← lifted (reads State.back)))
  let hashedKey := hash ((← lifted (reads State.strings)) back.key)
  let lock ← reads Guarded.lock
  let _ ← dequeue relock lock
  lifted (freeNode ((← lifted (reads State.arr)) hashedKey))
  lifted (modify fun s => { s with arr := Function.update s.arr hashedKey 0 })
  pure back.value

/-- The loop of `cache_insert` that evicts. -/
def evict (length : Nat) : Nat → LM Unit
  | 0 => throw (.cache .outOfFuel)
  | n + 1 => do
    if maxCacheSize ≤ ((← lifted (reads State.size)) + length) % 2 ^ 64 then
      let removed ← cacheRemove relock
      lifted (modify fun s =>
        { s with size := (s.size + (2 ^ 64 - (s.buffers removed).length)) % 2 ^ 64 })
      evict length n
    else pure ()

/-- `cache_insert`, where `malloc` returns `node` -/
def cacheInsert (n node key value : Nat) : LM Nat := do
  lockCache relock
  lifted (initNode node key value)
  let hashedKey := hash ((← lifted (reads State.strings)) key)
  let head := (← lifted (reads State.arr)) hashedKey
  let length := ((← lifted (reads State.buffers)) value).length
  if maxObjectSize ≤ length then pure 0
  else
    evict relock length n
    lifted (chainAppend n node hashedKey head)
    lifted (modify fun s => { s with size := (s.size + length) % 2 ^ 64 })
    unlockCache
    let lock ← reads Guarded.lock
    enqueue relock node lock
    pure node

def contains (n key : Nat) (lock : RwLock) : LM Nat := do
  let _ ← rdlock relock lock
  lifted (Proxy.contains n key)

end Locked

/-- The program `c` without its locks is `d`. -/
def Erases (c : LM α) (d : M α) : Prop :=
  ∀ s, wp c (fun e => e = .blocked ∨ ∃ stop, e = .cache stop ∧ d s.cache = .error stop)
    (fun a t => d s.cache = .ok (a, t.cache)) s

/-- The program `c` only asks for locks. -/
def OnlyLocks (c : LM α) : Prop := ∀ s, wp c (· = .blocked) (fun _ t => t.cache = s.cache) s

theorem wp_lifted {c : M α} {E : LockStop → Prop} {Q : α → Guarded → Prop} {s : Guarded} :
    wp (lifted c) E Q s ↔ wp c (fun e => E (.cache e)) (fun a t => Q a { s with cache := t })
      s.cache := by
  unfold wp lifted
  cases c s.cache with
  | ok p => rfl
  | error e => rfl

theorem lifted_eq {c : M α} {a : α} {s : Guarded} {t : State} (h : c s.cache = .ok (a, t)) :
    lifted c s = .ok (a, { s with cache := t }) := by
  rw [lifted, h]

theorem erases_lifted (c : M α) : Erases (lifted c) c := by
  intro s
  rw [wp_lifted]
  unfold wp
  cases h : c s.cache with
  | ok p => exact rfl
  | error e => exact .inr ⟨e, rfl, rfl⟩

theorem Erases.pure (a : α) : Erases (pure a) (pure a) := fun _ => rfl

theorem Erases.throw (stop : Stop) : Erases (throw (.cache stop) : LM α) (throw stop) :=
  fun _ => .inr ⟨stop, rfl, rfl⟩

theorem Erases.bind {c : LM α} {d : M α} {f : α → LM β} {g : α → M β} (h : Erases c d)
    (hf : ∀ a, Erases (f a) (g a)) : Erases (c >>= f) (d >>= g) := by
  intro s
  rw [wp_bind]
  refine (h s).mono (fun a t hd => ?_) fun e he => ?_
  · rw [bind_of_ok hd]
    exact hf a t
  · rcases he with he | ⟨stop, he, hd⟩
    · exact .inl he
    · exact .inr ⟨stop, he, bind_of_error hd⟩

theorem Erases.after {c : LM α} {f : α → LM β} {d : M β} (h : OnlyLocks c)
    (hf : ∀ a, Erases (f a) d) : Erases (c >>= f) d := by
  intro s
  rw [wp_bind]
  refine (h s).mono (fun a t ht => ?_) fun e he => .inl he
  rw [← ht]
  exact hf a t

theorem Erases.ite {p : Prop} [Decidable p] {c c' : LM α} {d d' : M α} (h : Erases c d)
    (h' : Erases c' d') : Erases (if p then c else c') (if p then d else d') := by
  split_ifs
  · exact h
  · exact h'

theorem Erases.returns {c : LM α} {d : M α} {s : Guarded} (h : Erases c d)
    (hblock : wp c (· ≠ .blocked) Q s) (hd : wp d (fun _ => False) R s.cache) :
    ∃ a t, c s = .ok (a, t) ∧ Q a t ∧ R a t.cache := by
  obtain ⟨a, t, hrun, hr⟩ := hd.returns
  have he := h s
  cases hc : c s with
  | ok p =>
    have hp := he.ok hc
    rw [hp] at hrun
    cases hrun
    exact ⟨p.1, p.2, rfl, hblock.ok hc, hr⟩
  | error e =>
    rcases he.error hc with heq | ⟨stop, -, hstop⟩
    · exact absurd heq (hblock.error hc)
    · rw [hstop] at hrun
      cases hrun

namespace Locked

variable {relock : Relock} {node key value n length : Nat} {lock : RwLock}

theorem onlyLocks_wrlock : OnlyLocks (wrlock relock lock) := by
  intro s
  cases lock with
  | unlocked => exact rfl
  | readLocked readers => exact rfl
  | writeLocked => cases relock <;> exact rfl

theorem onlyLocks_rdlock : OnlyLocks (rdlock relock lock) := by
  intro s
  cases lock with
  | unlocked => exact rfl
  | readLocked readers => exact rfl
  | writeLocked => cases relock <;> exact rfl

theorem onlyLocks_lockCache : OnlyLocks (lockCache relock) := by
  intro s
  rw [lockCache, wp_bind, wp_reads, wp_bind]
  exact (onlyLocks_wrlock s).post fun l t ht => ht

theorem onlyLocks_lock : OnlyLocks (reads Guarded.lock) := fun _ => rfl

theorem onlyLocks_unlockCache : OnlyLocks unlockCache := fun _ => rfl

theorem erases_dequeue : Erases (dequeue relock lock) Proxy.dequeue := by
  intro s
  rw [dequeue, wp_bind, wp_lifted, wp_reads]
  split_ifs with hback
  · have hrun : Proxy.dequeue s.cache = (if s.cache.back = 0 then pure 0 else
        if s.cache.front = s.cache.back then do
          modify fun s => { s with front := 0 }
          pure s.cache.front
        else do
          let temp := (← deref s.cache.back).prev
          (if temp ≠ 0 then assign temp fun n => { n with next := 0 } else pure ())
          modify fun s => { s with queueSize := (s.queueSize + (2 ^ 64 - 1)) % 2 ^ 64 }
          pure temp : M Nat) s.cache := rfl
    rw [wp_pure, hrun, if_pos hback]
    rfl
  · exact Erases.after onlyLocks_wrlock (fun _ => erases_lifted _) s

theorem erases_enqueue : Erases (enqueue relock node lock) (Proxy.enqueue node) :=
  .after onlyLocks_wrlock fun _ => erases_lifted _

theorem erases_queueUpdate : Erases (queueUpdate relock node) (Proxy.queueUpdate node) := by
  have hunlock : Erases unlockCache (pure () : M Unit) := fun _ => rfl
  have hbody := (erases_lifted (Proxy.queueUpdate node)).bind fun _ => hunlock
  rw [bind_pure_unit] at hbody
  exact .after onlyLocks_lockCache fun _ => hbody

theorem erases_cacheRemove : Erases (cacheRemove relock) Proxy.cacheRemove := by
  refine (erases_lifted _).bind fun back => (erases_lifted _).bind fun node => ?_
  refine (erases_lifted _).bind fun strings => .after onlyLocks_lock fun lock => ?_
  refine erases_dequeue.bind fun _ => (erases_lifted _).bind fun arr => ?_
  exact (erases_lifted _).bind fun _ => (erases_lifted _).bind fun _ => .pure node.value

theorem erases_evict : Erases (evict relock length n) (Proxy.evict length n) := by
  induction n with
  | zero => exact .throw .outOfFuel
  | succ n ih =>
    refine (erases_lifted _).bind fun size => .ite ?_ (.pure ())
    exact erases_cacheRemove.bind fun removed => (erases_lifted _).bind fun _ => ih

theorem erases_cacheInsert :
    Erases (cacheInsert relock n node key value) (Proxy.cacheInsert n node key value) := by
  refine .after onlyLocks_lockCache fun _ => (erases_lifted _).bind fun _ => ?_
  refine (erases_lifted _).bind fun strings => (erases_lifted _).bind fun arr => ?_
  refine (erases_lifted _).bind fun buffers => .ite (.pure 0) ?_
  refine erases_evict.bind fun _ => (erases_lifted _).bind fun _ => ?_
  refine (erases_lifted _).bind fun _ => .after onlyLocks_unlockCache fun _ => ?_
  exact .after onlyLocks_lock fun lock => erases_enqueue.bind fun _ => .pure node

theorem erases_contains : Erases (contains relock n key lock) (Proxy.contains n key) :=
  .after onlyLocks_rdlock fun _ => erases_lifted _

end Locked

/-- A call that a thread of the proxy makes. -/
inductive CacheCall where
  /-- `cache_insert(cache, key, value)`, where `malloc` returns `node` -/
  | insert (node key value : Nat)
  | contains (key : Nat)
  | update (node : Nat)

def CacheCall.run (relock : Relock) (n : Nat) : CacheCall → LM Unit
  | .insert node key value => do let _ ← Locked.cacheInsert relock n node key value
  | .contains key => do
    let lock ← Locked.getLock
    let _ ← Locked.contains relock n key lock
  | .update node => Locked.queueUpdate relock node

/-- `malloc` returns an address that is not in use. -/
def CacheCall.Answered (s : State) : CacheCall → Prop
  | .insert node _ _ => 0 < node ∧ node < 2 ^ 64 ∧ s.nodes node = none
  | .contains _ => True
  | .update _ => True

/-- The call never waits for a lock that it holds, and it returns with the lock free. -/
def CacheCall.Disciplined (relock : Relock) (s : State) (call : CacheCall) : Prop :=
  ∀ n, wp (call.run relock n) (· ≠ .blocked) (fun _ t => t.lock = .unlocked) ⟨s, .unlocked⟩

/-- The buffer is small enough, and if a thread that asks for its own lock waits, nothing has to
be evicted, or the eviction ends at a bad pointer to the end of the queue. -/
def CacheCall.AvoidsRelock (relock : Relock) (s : State) : CacheCall → Prop
  | .insert node _ value => (s.buffers value).length < maxObjectSize ∧
      (relock = .blocks → maxCacheSize ≤ (s.size + (s.buffers value).length) % 2 ^ 64 →
        s.back ≠ node ∧ s.nodes s.back = none)
  | .contains _ => True
  | .update _ => True

/-- From any cache with the lock in the state `l` the program does not block and leaves the
lock as it is. -/
def KeepsLock (l : RwLock) (c : LM α) : Prop :=
  ∀ cache, wp c (· ≠ .blocked) (fun _ t => t.lock = l) ⟨cache, l⟩

section
variable {l lock : RwLock} {relock : Relock} {c : LM α} {f : α → LM β} {node key value n : Nat}

theorem KeepsLock.bind (h : KeepsLock l c) (hf : ∀ a, KeepsLock l (f a)) :
    KeepsLock l (c >>= f) := by
  intro cache
  refine (h cache).bind fun a t ht => ?_
  obtain ⟨cache', lock'⟩ := t
  subst ht
  exact hf a cache'

theorem keepsLock_lifted (c : M α) : KeepsLock l (lifted c) := by
  intro cache
  rw [wp_lifted]
  apply wp_of_forall
  · intro a t
    rfl
  · intro e he
    cases he

theorem KeepsLock.pure (a : α) : KeepsLock l (pure a) := fun _ => rfl

theorem KeepsLock.reads_lock {f : RwLock → LM β} (h : KeepsLock l (f l)) :
    KeepsLock l (reads Guarded.lock >>= f) := fun cache => wp_bind.mpr (h cache)

theorem keepsLock_wrlock (h : lock = .unlocked ∨ relock = .edeadlk ∧ lock = .writeLocked) :
    KeepsLock l (Locked.wrlock relock lock) := by
  intro cache
  rcases h with rfl | ⟨rfl, rfl⟩
  · exact rfl
  · exact rfl

theorem keepsLock_dequeue (h : relock = .edeadlk) :
    KeepsLock l (Locked.dequeue relock .writeLocked) := by
  refine (keepsLock_lifted _).bind fun back => ?_
  split_ifs
  · exact .pure 0
  · exact (keepsLock_wrlock (.inr ⟨h, rfl⟩)).bind fun _ => keepsLock_lifted _

theorem keepsLock_cacheRemove (h : relock = .edeadlk) :
    KeepsLock .writeLocked (Locked.cacheRemove relock) := by
  refine (keepsLock_lifted _).bind fun back => (keepsLock_lifted _).bind fun node => ?_
  refine (keepsLock_lifted _).bind fun strings => .reads_lock ?_
  refine (keepsLock_dequeue h).bind fun _ => (keepsLock_lifted _).bind fun arr => ?_
  exact (keepsLock_lifted _).bind fun _ => (keepsLock_lifted _).bind fun _ => .pure _

theorem keepsLock_evict (h : relock = .edeadlk) (length : Nat) :
    KeepsLock .writeLocked (Locked.evict relock length n) := by
  induction n with
  | zero => exact fun _ he => by cases he
  | succ n ih =>
    refine (keepsLock_lifted _).bind fun size => ?_
    split_ifs
    · exact (keepsLock_cacheRemove h).bind fun removed => (keepsLock_lifted _).bind fun _ => ih
    · exact .pure ()

theorem keepsLock_enqueue : KeepsLock .unlocked (Locked.enqueue relock node .unlocked) :=
  (keepsLock_wrlock (.inl rfl)).bind fun _ => keepsLock_lifted _

theorem insert_end (s : State) (length hashedKey head : Nat) :
    wp (do
      lifted (chainAppend n node hashedKey head)
      lifted (modify fun s => { s with size := (s.size + length) % 2 ^ 64 })
      Locked.unlockCache
      let lock ← reads Guarded.lock
      Locked.enqueue relock node lock
      pure node) (· ≠ .blocked) (fun _ t => t.lock = .unlocked) ⟨s, .writeLocked⟩ := by
  refine (keepsLock_lifted _ s).bind fun _ t ht => ?_
  rw [wp_bind, wp_lifted, wp_modify, wp_bind, Locked.unlockCache, wp_modify, wp_bind, wp_reads, ht]
  exact keepsLock_enqueue.bind (fun _ => .pure node) _

theorem insert_start {s : State} {P : LockStop → Prop} {Q : Unit → Guarded → Prop}
    (h : (CacheCall.insert node key value).Answered s) :
    wp ((CacheCall.insert node key value).run relock n) P Q ⟨s, .unlocked⟩ ↔
      wp (if maxObjectSize ≤ (s.buffers value).length then pure 0 else do
        Locked.evict relock (s.buffers value).length n
        lifted (chainAppend n node (hash (s.strings key)) (s.arr (hash (s.strings key))))
        lifted (modify fun t => { t with size := (t.size + (s.buffers value).length) % 2 ^ 64 })
        Locked.unlockCache
        let lock ← reads Guarded.lock
        Locked.enqueue relock node lock
        pure node) P (fun _ => Q ()) ⟨s.set node ⟨0, 0, 0, key, value⟩, .writeLocked⟩ := by
  obtain ⟨h0, hlt, hnone⟩ := h
  rw [CacheCall.run, wp_bind, Locked.cacheInsert, wp_bind]
  change wp (lifted (initNode node key value) >>= _) _ _ ⟨s, .writeLocked⟩ ↔ _
  rw [wp_bind_of_ok (lifted_eq (initNode_eq hnone h0 hlt))]
  rfl

theorem wp_evict_blocks {s : State} {P : LockStop → Prop} {Q : Unit → Guarded → Prop}
    {length : Nat} (hover : maxCacheSize ≤ (s.size + length) % 2 ^ 64)
    (hnull : s.nodes 0 = none) :
    wp (Locked.evict .blocks length (n + 1)) P Q ⟨s, .writeLocked⟩ ↔
      P (if s.nodes s.back = none then .cache .badPointer else .blocked) := by
  rw [Locked.evict, wp_bind, wp_lifted, wp_reads, if_pos hover, wp_bind, Locked.cacheRemove,
    wp_bind, wp_lifted, wp_reads]
  cases hback : s.nodes s.back with
  | none => rw [wp_bind, wp_lifted, wp, deref_none hback, if_pos rfl]
  | some x =>
    have hne : s.back ≠ 0 := fun h0 => by
      rw [h0, hnull] at hback
      cases hback
    rw [wp_bind_of_ok (lifted_eq (deref_eq hback)), if_neg (Option.some_ne_none x), wp_bind,
      wp_lifted, wp_reads, wp_bind, wp_reads, wp_bind, Locked.dequeue, wp_bind, wp_lifted, wp_reads,
      if_neg hne, wp_bind]
    rfl

theorem CacheCall.disciplined_iff {s : State} {call : CacheCall} (hnull : s.nodes 0 = none)
    (hcall : call.Answered s) : call.Disciplined relock s ↔ call.AvoidsRelock relock s := by
  cases call with
  | contains key =>
    have hrun : ∀ n, KeepsLock .unlocked ((CacheCall.contains key).run relock n) := fun n =>
      .reads_lock <| .bind (.bind (fun _ => rfl) fun _ => keepsLock_lifted _) fun _ => .pure ()
    exact ⟨fun _ => trivial, fun _ n => hrun n s⟩
  | update node =>
    refine ⟨fun _ => trivial, fun _ n => ?_⟩
    change wp (lifted (Proxy.queueUpdate node) >>= fun _ => Locked.unlockCache) _ _ _
    refine (keepsLock_lifted (l := .writeLocked) (Proxy.queueUpdate node) s).bind fun _ t ht => ?_
    rw [Locked.unlockCache, wp_modify, ht]
    rfl
  | insert node key value =>
    have hset : (s.set node ⟨0, 0, 0, key, value⟩).nodes 0 = none :=
      (nodes_set_ne (Nat.ne_of_lt hcall.1)).trans hnull
    constructor
    · intro h
      have hlen : (s.buffers value).length < maxObjectSize := by
        by_contra hlen
        have hrun := (insert_start hcall).mp (h 0)
        rw [if_pos (Nat.le_of_not_lt hlen), wp_pure] at hrun
        cases hrun
      refine ⟨hlen, fun hblocks hover => ?_⟩
      subst hblocks
      have hrun := (insert_start hcall).mp (h 1)
      have hover' : maxCacheSize ≤ ((s.set node ⟨0, 0, 0, key, value⟩).size +
        (s.buffers value).length) % 2 ^ 64 := hover
      rw [if_neg (Nat.not_le_of_lt hlen), wp_bind, wp_evict_blocks hover' hset] at hrun
      have hnone : (s.set node ⟨0, 0, 0, key, value⟩).nodes s.back = none := by
        by_contra hsome
        exact hrun (if_neg hsome)
      have hne : s.back ≠ node := fun heq => by
        rw [heq, nodes_set_self] at hnone
        cases hnone
      exact ⟨hne, (nodes_set_ne hne).symm.trans hnone⟩
    · intro ⟨hlen, hevict⟩ n
      rw [insert_start hcall, if_neg (Nat.not_le_of_lt hlen)]
      by_cases hover : maxCacheSize ≤ (s.size + (s.buffers value).length) % 2 ^ 64
      · cases relock with
        | edeadlk =>
          refine (keepsLock_evict rfl _ _).bind fun _ t ht => ?_
          obtain ⟨cache, lock⟩ := t
          subst ht
          exact insert_end _ _ _ _
        | blocks =>
          obtain ⟨hne, hnone⟩ := hevict rfl hover
          rw [wp_bind]
          cases n with
          | zero => exact fun he => by cases he
          | succ n =>
            have hover' : maxCacheSize ≤ ((s.set node ⟨0, 0, 0, key, value⟩).size +
              (s.buffers value).length) % 2 ^ 64 := hover
            rw [wp_evict_blocks hover' hset]
            change (if (s.set node ⟨0, 0, 0, key, value⟩).nodes s.back = none then _ else _) ≠ _
            rw [if_pos ((nodes_set_ne hne).trans hnone)]
            exact fun he => by cases he
      · rw [wp_bind]
        cases n with
        | zero => exact fun he => by cases he
        | succ n =>
          have hfits : ¬ maxCacheSize ≤ ((s.set node ⟨0, 0, 0, key, value⟩).size +
            (s.buffers value).length) % 2 ^ 64 := hover
          rw [Locked.evict, wp_bind, wp_lifted, wp_reads]
          change wp (if maxCacheSize ≤ ((s.set node ⟨0, 0, 0, key, value⟩).size +
            (s.buffers value).length) % 2 ^ 64 then _ else _) _ _ _
          rw [if_neg hfits]
          exact insert_end _ _ _ _

/-- Only nodes in the cache are updated. -/
def CacheCall.Allowed (s : State) : CacheCall → Prop
  | .insert node key value => (Op.insert node key value).Allowed s
  | .contains _ => True
  | .update node => (Op.update node).Allowed s

theorem CacheCall.erases_op (op : Op) :
    Erases ((match op with
      | .insert node key value => CacheCall.insert node key value
      | .update node => CacheCall.update node).run relock n) (op.run n) := by
  cases op with
  | insert node key value => exact Locked.erases_cacheInsert.bind fun _ => .pure ()
  | update node => exact Locked.erases_queueUpdate

theorem WellFormed.fits {s : State} (h : WellFormed s)
    (hcall : (CacheCall.insert node key value).AvoidsRelock .blocks s) :
    ¬ (Op.insert node key value).Evicts s := by
  intro ⟨hlen, hover⟩
  obtain ⟨queue, chains, hrep⟩ := h
  have hmod : maxCacheSize ≤ (s.size + (s.buffers value).length) % 2 ^ 64 := by
    have hlt := hrep.size_lt
    unfold maxObjectSize maxCacheSize at *
    omega
  obtain ⟨x, hx, -⟩ := WellFormed.back ⟨queue, chains, hrep⟩ (hrep.back_ne_zero hlen hover)
  rw [(hcall.2 rfl hmod).2] at hx
  cases hx

theorem CacheCall.returns {s : State} {call : CacheCall} (h : WellFormed s)
    (hcall : call.Allowed s) (havoids : call.AvoidsRelock .blocks s) :
    ∃ enough, ∀ n ≥ enough, ∃ t, call.run relock n ⟨s, .unlocked⟩ = .ok ((), t) ∧
      t.lock = .unlocked := by
  have hnull : s.nodes 0 = none := by
    obtain ⟨queue, chains, hrep⟩ := h
    by_contra hsome
    exact absurd (hrep.address 0 (Option.isSome_iff_ne_none.mpr hsome)).1 (by omega)
  have hkeeps : call.Answered s → ∀ n, wp (call.run relock n) (· ≠ .blocked)
      (fun _ t => t.lock = .unlocked) ⟨s, .unlocked⟩ := by
    intro hanswered n
    refine (CacheCall.disciplined_iff hnull hanswered).mpr ?_ n
    cases call with
    | insert node key value => exact ⟨havoids.1, fun _ => havoids.2 rfl⟩
    | contains key => trivial
    | update node => trivial
  cases call with
  | insert node key value =>
    have hop : (Op.insert node key value).Allowed s := hcall
    obtain ⟨enough, hspec⟩ := Op.run_spec h hop (h.fits havoids) fun _ => False
    refine ⟨enough, fun n hn => ?_⟩
    obtain ⟨_, t, hrun, hlock, -⟩ := (CacheCall.erases_op (.insert node key value)).returns
      (hkeeps hcall n) (hspec n (.inr hn))
    exact ⟨t, hrun, hlock⟩
  | update node =>
    have hop : (Op.update node).Allowed s := hcall
    obtain ⟨enough, hspec⟩ := Op.run_spec h hop False.elim fun _ => False
    refine ⟨enough, fun n hn => ?_⟩
    obtain ⟨_, t, hrun, hlock, -⟩ := (CacheCall.erases_op (.update node)).returns
      (hkeeps trivial n) (hspec n (.inr hn))
    exact ⟨t, hrun, hlock⟩
  | contains key =>
    obtain ⟨queue, chains, hrep⟩ := h
    refine ⟨(chains (hash (s.strings key))).length + 1, fun n hn => ?_⟩
    have hspec : wp (Proxy.contains n key) (fun _ => False) (fun _ _ => True) s :=
      wp_of_ok (containsFrom_spec (hrep.chain (hash (s.strings key))) hn) trivial
    have herases : Erases ((CacheCall.contains key).run relock n)
        (Proxy.contains n key >>= fun _ => pure ()) :=
      .after Locked.onlyLocks_lock fun lock => Locked.erases_contains.bind fun _ => .pure ()
    have hreturns : wp (Proxy.contains n key >>= fun _ => pure ()) (fun _ => False)
        (fun _ _ => True) s := hspec.bind fun _ _ _ => trivial
    obtain ⟨_, t, hrun, hlock, -⟩ := herases.returns (hkeeps trivial n) hreturns
    exact ⟨t, hrun, hlock⟩

/-- A call made while the lock is free never waits for a lock that it holds and leaves the lock
free, exactly if it avoids asking for the lock again; if it does and the cache is
well-formed, it returns. -/
theorem cache_lock_discipline {s : State} {call : CacheCall} (hnull : s.nodes 0 = none)
    (hcall : call.Answered s) :
    (call.Disciplined relock s ↔ call.AvoidsRelock relock s) ∧
      (WellFormed s → call.Allowed s → call.AvoidsRelock .blocks s → ∃ enough, ∀ n ≥ enough,
        ∃ t, call.run relock n ⟨s, .unlocked⟩ = .ok ((), t) ∧ t.lock = .unlocked) :=
  ⟨CacheCall.disciplined_iff hnull hcall, CacheCall.returns⟩

theorem cache_lock_discipline_insert :
    (CacheCall.insert 16 1 0).Disciplined .blocks (initCache sameString smallBuffers) := by
  have hcall : (CacheCall.insert 16 1 0).Answered (initCache sameString smallBuffers) :=
    ⟨by decide, by decide, rfl⟩
  exact (cache_lock_discipline rfl hcall).1.mpr
    ⟨by decide, fun _ hover => absurd hover (by decide)⟩

def hugeBuffers (_ : Nat) : Buffer := ⟨fun _ => 0, 102400, 102400⟩

/-- A buffer of 100 KiB is not inserted, and the lock is not given back. -/
theorem oversized_insert_keeps_lock :
    ¬ (CacheCall.insert 16 1 0).Disciplined .blocks (initCache sameString hugeBuffers) ∧
      ¬ (CacheCall.insert 16 1 0).Disciplined .edeadlk (initCache sameString hugeBuffers) := by
  have hcall : (CacheCall.insert 16 1 0).Answered (initCache sameString hugeBuffers) :=
    ⟨by decide, by decide, rfl⟩
  have hlen : ¬ 102400 < maxObjectSize := by decide
  exact ⟨fun h => hlen ((CacheCall.disciplined_iff rfl hcall).mp h).1,
    fun h => hlen ((CacheCall.disciplined_iff rfl hcall).mp h).1⟩

end

end CS24.Proxy
