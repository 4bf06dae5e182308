import Mathlib.Logic.Function.Basic
import Neonix.Mutex
import Neonix.Runs

/-! # `kernel/buffer.c`: the buffer cache and the tasks that use it

    A step is the code one task runs up to the next point where it can be
    switched away from: `lock_acquire`, `device_request`, the `task_block` of
    `get_free_buffer`, and the yield of `mutex_unlock` when it woke a waiter.
    `pc` says where a task stands.  A device request moves the sectors one after
    the other and the task can be switched away from before each and after the
    last; the request queue only delays it further.

    `refs` is the discipline of the callers: the pairs of a task and a buffer it
    got from `getblk` and has not passed to `brelse`. -/

namespace NeonixBufferCache

open NeonixMachine NeonixMutex NeonixRuns

def HASH_COUNT : Nat := 31
def BLOCK_SECS : Nat := 2

instance : NeZero BLOCK_SECS := ⟨by decide⟩

/-- The contents of a block, sector by sector. -/
abbrev Data (σ : Type) := Fin BLOCK_SECS → σ

/-- `buffer_t`; the list nodes are the lists of the cache. -/
structure Buffer (σ : Type) where
  data : Data σ
  dev : Nat
  block : Nat
  count : Int
  dirty : Bool
  valid : Bool
  lock : Lock

/-- Where a task stands. -/
inductive Pc where
  /-- outside the buffer cache -/
  | user
  /-- in the loop of `get_free_buffer` -/
  | getFree (dev block : Nat)
  /-- in the loop of `mutex_lock`, called by `bread` -/
  | lockWait (bf : Nat)
  /-- in the `device_request` of `bread`, with so many sectors read -/
  | reading (bf sectors : Nat)
  /-- `bread` after its `lock_release` -/
  | unlocked (bf : Nat)
  /-- in the `device_request` of `bwrite`, with so many sectors written;
      called by `brelse` or by the user -/
  | writing (bf sectors : Nat) (release : Bool)
  deriving DecidableEq

structure Cache (σ : Type) where
  buffers : Nat → Buffer σ
  buffer_count : Nat
  hash_table : Nat → List Nat
  free_list : List Nat
  wait_list : List Nat
  disk : Nat → Nat → Data σ
  pc : Nat → Pc
  refs : List (Nat × Nat)

variable {σ : Type}

/-- Store to a buffer. -/
def Cache.setBuf (s : Cache σ) (b : Nat) (f : Buffer σ → Buffer σ) : Cache σ :=
  { s with buffers := Function.update s.buffers b (f (s.buffers b)) }

def Cache.setPc (s : Cache σ) (t : Nat) (p : Pc) : Cache σ :=
  { s with pc := Function.update s.pc t p }

section Stores

variable (s : Cache σ) (t b : Nat) (p : Pc) (f : Buffer σ → Buffer σ)

@[simp] theorem setBuf_self : (s.setBuf b f).buffers b = f (s.buffers b) :=
  Function.update_self ..

theorem setBuf_other {b' : Nat} (h : b' ≠ b) : (s.setBuf b f).buffers b' = s.buffers b' :=
  Function.update_of_ne h ..

@[simp] theorem setPc_self : (s.setPc t p).pc t = p := Function.update_self ..

theorem setPc_other {t' : Nat} (h : t' ≠ t) : (s.setPc t p).pc t' = s.pc t' :=
  Function.update_of_ne h ..

@[simp] theorem setPc_buffers : (s.setPc t p).buffers = s.buffers := rfl

end Stores

/-- `hash`. -/
def hash (dev block : Nat) : Nat := (dev ^^^ block) % HASH_COUNT

/-- The list of the hash table a buffer belongs on. -/
def Buffer.bucket (b : Buffer σ) : Nat := hash b.dev b.block

/-- The search of `get_from_hash_table`. -/
def hashSearch (s : Cache σ) (dev block : Nat) : Option Nat :=
  (s.hash_table (hash dev block)).find? fun b =>
    (s.buffers b).dev = dev ∧ (s.buffers b).block = block

/-- `hash_locate`. -/
def hashLocate (s : Cache σ) (b : Nat) : Res (Cache σ) := do
  let idx := (s.buffers b).bucket
  check (b ∉ s.hash_table idx)
  return { s with hash_table := Function.update s.hash_table idx (b :: s.hash_table idx) }

/-- `hash_remove`. -/
def hashRemove (s : Cache σ) (b : Nat) : Res (Cache σ) := do
  let idx := (s.buffers b).bucket
  check (b ∈ s.hash_table idx)
  return { s with hash_table := Function.update s.hash_table idx ((s.hash_table idx).erase b) }

/-- `get_new_buffer`, where the memory of the cache has room for one more. -/
def getNewBuffer (s : Cache σ) : Cache σ :=
  let s' := s.setBuf s.buffer_count fun bf =>
    { bf with count := 0, dirty := false, valid := false, lock := lockInit }
  { s' with buffer_count := s.buffer_count + 1 }

/-- One turn of the loop of `get_free_buffer`; `none` where the task has to wait.
    `buffer_max` is the number of buffers the memory of the cache holds. -/
def getFreeBuffer (buffer_max : Nat) (s : Cache σ) : Res (Option (Nat × Cache σ)) :=
  if s.buffer_count < buffer_max then .ok (some (s.buffer_count, getNewBuffer s))
  else match s.free_list.getLast? with
    | some b => do
        let s ← hashRemove { s with free_list := s.free_list.dropLast } b
        return some (b, s.setBuf b fun bf => { bf with valid := false })
    | none => .ok none

/-- The end of `bread`. -/
def breadReturn (s : Cache σ) (t b : Nat) : Cache σ :=
  (s.setBuf b fun bf => { bf with dirty := false, valid := true }).setPc t .user

/-- `bread` from its `lock_release` on. -/
def breadRelease (s : Cache σ) (t b : Nat) : Res (Cache σ) := do
  let (lock, woken) ← lockRelease (s.buffers b).lock t
  let s := s.setBuf b fun bf => { bf with lock := lock }
  match woken with
  | some _ => return s.setPc t (.unlocked b)
  | none => return breadReturn s t b

/-- `bread` after a turn of `lock_acquire`. -/
def breadLocked (s : Cache σ) (t b : Nat) (lock : Lock) (turn : Turn) : Res (Cache σ) :=
  let s := s.setBuf b fun bf => { bf with lock := lock }
  match turn with
  | .waits => .ok (s.setPc t (.lockWait b))
  | .acquired =>
      if (s.buffers b).valid then breadRelease s t b else .ok (s.setPc t (.reading b 0))

/-- `bread` once `getblk` has returned the buffer. -/
def breadAt (s : Cache σ) (t b : Nat) : Res (Cache σ) :=
  if (s.buffers b).valid then .ok (s.setPc t .user)
  else do
    let (lock, turn) ← lockAcquire (s.buffers b).lock t
    breadLocked s t b lock turn

/-- `getblk` from its call of `get_free_buffer` on, and the rest of `bread`. -/
def breadFree (buffer_max : Nat) (s : Cache σ) (t dev block : Nat) : Res (Cache σ) := do
  match ← getFreeBuffer buffer_max s with
  | none => return { s.setPc t (.getFree dev block) with wait_list := t :: s.wait_list }
  | some (b, s) =>
      check ((s.buffers b).count = 0)
      check ((s.buffers b).dirty = false)
      let s := s.setBuf b fun bf => { bf with count := 1, dev := dev, block := block }
      let s ← hashLocate s b
      breadAt { s with refs := (t, b) :: s.refs } t b

/-- `getblk` for a buffer the hash table has: it leaves the free list and is
    referenced once more. -/
def getblkFound (s : Cache σ) (t b : Nat) : Cache σ :=
  let s := { s with free_list := s.free_list.erase b, refs := (t, b) :: s.refs }
  s.setBuf b fun bf => { bf with count := bf.count + 1 }

/-- `bread` up to its first blocking point. -/
def bread (buffer_max : Nat) (s : Cache σ) (t dev block : Nat) : Res (Cache σ) :=
  match hashSearch s dev block with
  | some b => breadAt (getblkFound s t b) t b
  | none => breadFree buffer_max s t dev block

/-- The end of `brelse`. -/
def putBuffer (s : Cache σ) (t b : Nat) : Res (Cache σ) := do
  let s := (s.setBuf b fun bf => { bf with count := bf.count - 1 }).setPc t .user
  let s := { s with refs := s.refs.erase (t, b) }
  check (0 ≤ (s.buffers b).count)
  if (s.buffers b).count ≠ 0 then return s
  else
    check (b ∉ s.free_list)
    return { s with free_list := b :: s.free_list, wait_list := s.wait_list.dropLast }

/-- `bwrite` up to its request. -/
def bwrite (s : Cache σ) (t b : Nat) : Cache σ :=
  if (s.buffers b).dirty then s.setPc t (.writing b 0 false) else s

/-- `brelse` up to the request of its `bwrite`. -/
def brelse (s : Cache σ) (t b : Nat) : Res (Cache σ) :=
  if (s.buffers b).dirty then .ok (s.setPc t (.writing b 0 true)) else putBuffer s t b

/-- The caller changes the data of a buffer it holds and sets `dirty`. -/
def modifyData (s : Cache σ) (b : Nat) (data : Data σ) : Cache σ :=
  s.setBuf b fun bf => { bf with data := data, dirty := true }

/-- The `device_request` of `bread` reads a sector, or is done. -/
def readTurn (s : Cache σ) (t b k : Nat) : Res (Cache σ) :=
  if h : k < BLOCK_SECS then
    let bf := s.buffers b
    let sector := s.disk bf.dev bf.block ⟨k, h⟩
    let s := s.setBuf b fun bf => { bf with data := Function.update bf.data ⟨k, h⟩ sector }
    .ok (s.setPc t (.reading b (k + 1)))
  else breadRelease (s.setBuf b fun bf => { bf with dirty := false, valid := true }) t b

/-- The sector a request writes. -/
def writeSector (s : Cache σ) (b : Nat) (k : Fin BLOCK_SECS) : Cache σ :=
  let bf := s.buffers b
  let old := s.disk bf.dev bf.block
  { s with
    disk := Function.update s.disk bf.dev
      (Function.update (s.disk bf.dev) bf.block (Function.update old k (bf.data k))) }

/-- The `device_request` of `bwrite` writes a sector, or is done. -/
def writeTurn (s : Cache σ) (t b k : Nat) (release : Bool) : Res (Cache σ) :=
  if h : k < BLOCK_SECS then .ok ((writeSector s b ⟨k, h⟩).setPc t (.writing b (k + 1) release))
  else
    let s := (s.setBuf b fun bf => { bf with dirty := false, valid := true }).setPc t .user
    if release then putBuffer s t b else .ok s

inductive Event (σ : Type) where
  | bread (t dev block : Nat)
  | modify (t b : Nat) (data : Data σ)
  | bwrite (t b : Nat)
  | brelse (t b : Nat)
  /-- the task goes on from where it stands -/
  | resume (t : Nat)

/-- The step of an event that can happen. -/
def exec (buffer_max : Nat) (s : Cache σ) : Event σ → Res (Cache σ)
  | .bread t dev block => bread buffer_max s t dev block
  | .modify _ b data => .ok (modifyData s b data)
  | .bwrite t b => .ok (bwrite s t b)
  | .brelse t b => brelse s t b
  | .resume t =>
      match s.pc t with
      | .user => .ok s
      | .getFree dev block => breadFree buffer_max s t dev block
      | .lockWait b => do
          let (lock, turn) ← mutexTurn (s.buffers b).lock t
          breadLocked s t b lock turn
      | .reading b k => readTurn s t b k
      | .unlocked b => .ok (breadReturn s t b)
      | .writing b k release => writeTurn s t b k release

/-- A task that stands there is not blocked. -/
def ReadyAt (s : Cache σ) (t : Nat) : Pc → Prop
  | .getFree _ _ => t ∉ s.wait_list
  | .lockWait b => t ∉ (s.buffers b).lock.waiters
  | .user | .reading _ _ | .unlocked _ | .writing _ _ _ => True

instance (s : Cache σ) (t : Nat) : (p : Pc) → Decidable (ReadyAt s t p)
  | .getFree _ _ | .lockWait _ => inferInstanceAs (Decidable (_ ∉ _))
  | .user | .reading _ _ | .unlocked _ | .writing _ _ _ => inferInstanceAs (Decidable True)

/-- When an event can happen: a call comes from a task outside the cache, and
    acts on a buffer the task holds. -/
def Enabled (s : Cache σ) : Event σ → Prop
  | .bread t _ _ => s.pc t = .user
  | .modify t b _ | .bwrite t b | .brelse t b => s.pc t = .user ∧ (t, b) ∈ s.refs
  | .resume t => ReadyAt s t (s.pc t)

instance (s : Cache σ) : (e : Event σ) → Decidable (Enabled s e)
  | .bread _ _ _ => inferInstanceAs (Decidable (_ = _))
  | .modify _ _ _ | .bwrite _ _ | .brelse _ _ => inferInstanceAs (Decidable (_ ∧ _))
  | .resume t => inferInstanceAs (Decidable (ReadyAt s t (s.pc t)))

/-- `buffer_init`, with no task inside the cache and no buffer in use. -/
structure Init (s : Cache σ) : Prop where
  buffers : ∀ b, (s.buffers b).valid = false ∧ (s.buffers b).count = 0
  lock : ∀ b, (s.buffers b).lock.Unheld
  buffer_count : s.buffer_count = 0
  hash_table : ∀ i, s.hash_table i = []
  free_list : s.free_list = []
  refs : s.refs = []
  pc : ∀ t, s.pc t = .user

/-- The cache with room for `buffer_max` buffers. -/
def system (σ : Type) (buffer_max : Nat) : System (Cache σ) (Event σ) :=
  execSystem Init Enabled (exec buffer_max)

end NeonixBufferCache
