import Neonix.Allocators
import Neonix.BufferRefs
import Neonix.FileSystem
import Neonix.Task

/-! # `fs/inode.c`: the inodes in memory, shared by the tasks

    `iget` puts an inode on the list of its device before it reads the block the
    descriptor is in, and `iput` writes that block before it gives the inode up;
    a task can be switched away from in both.  A step is the code of one task up
    to the next blocking point of the buffer cache, which `place` tells apart.

    `holds` is the discipline of the callers: who has been given which inode and
    has not put it back; `none` stands for the mount table.  In `cache.refs` an
    inode refers to its buffer under a number no task has. -/

namespace NeonixInodeTable

open NeonixMachine NeonixBufferCache NeonixBufferRefs NeonixRuns
open NeonixAllocators (oneMapDesc)
open NeonixBufferDirty (emptyCache emptyCache_init)
open NeonixFileSystem (INODE_NR inodeBlock decr)
open NeonixVolume (SuperDesc BLOCK_INODES)
open NeonixTask (TASK_NR)

variable {σ : Type}

/-- The part of `inode_t` these functions use; `dev` is none for `EOF`, `mount` for 0, `buf`
    and `desc` for a null pointer.  `desc` is an entry of a block. -/
structure Inode where
  desc : Option (Nat × Nat)
  buf : Option Nat
  dev : Option Nat
  nr : Nat
  count : Nat
  mount : Option Nat
  deriving DecidableEq

/-- The part of `super_block_t` these functions use. -/
structure SuperBlock where
  desc : SuperDesc
  iroot : Option Nat

/-- Where in `inode.c` a task stands. -/
inductive Place where
  /-- outside -/
  | user
  /-- in the `bread` of `iget` -/
  | reading (i : Nat)
  /-- in the `bwrite` of `iput`, called by `fit_inode` for the device `fit` or by the user -/
  | putting (i : Nat) (fit : Option Nat)
  /-- in the `brelse` of `iput` -/
  | releasing (i : Nat) (fit : Option Nat)
  deriving DecidableEq

structure State (σ : Type) where
  cache : Cache σ
  inode_table : Nat → Inode
  /-- the `inode_list` of a device -/
  inode_list : Nat → List Nat
  /-- `get_super` -/
  super_table : Nat → Option SuperBlock
  place : Nat → Place
  holds : List (Option Nat × Nat)

def State.setInode (s : State σ) (i : Nat) (f : Inode → Inode) : State σ :=
  { s with inode_table := Function.update s.inode_table i (f (s.inode_table i)) }

def State.setPlace (s : State σ) (t : Nat) (p : Place) : State σ :=
  { s with place := Function.update s.place t p }

/-- `inode->count++` by a task that is given the inode. -/
def State.hold (s : State σ) (t i : Nat) : State σ :=
  { s.setInode i fun inode => { inode with count := inode.count + 1 } with
    holds := (some t, i) :: s.holds }

/-- `inode->count--` by a task that gives the inode back. -/
def State.drop (s : State σ) (t i : Nat) : State σ :=
  { s.setInode i fun inode => { inode with count := decr inode.count } with
    holds := s.holds.erase (some t, i) }

/-- A pointer that is followed. -/
def deref {α : Type} : Option α → Res α
  | some a => .ok a
  | none => .error .outOfBounds

/-- `sb = get_super(dev); assert(sb);` -/
def theSuper (s : State σ) (dev : Nat) : Res SuperBlock :=
  match s.super_table dev with
  | some sb => .ok sb
  | none => .error .assertion

/-- The number under which an inode refers to its buffer. -/
def slotRef (i : Nat) : Nat := TASK_NR + i

/-- A reference changes its owner. -/
def moveRef (c : Cache σ) (old new : Nat × Nat) : Cache σ :=
  { c with refs := new :: c.refs.erase old }

/-- `find_inode`. -/
def findInode (s : State σ) (dev nr : Nat) : Res (Option Nat) := do
  let _ ← theSuper s dev
  return (s.inode_list dev).find? fun i => (s.inode_table i).nr = nr

/-- `get_free_inode`. -/
def getFreeInode (s : State σ) : Res Nat :=
  match (List.range INODE_NR).find? fun i => (s.inode_table i).dev = none with
  | some i => .ok i
  | none => .error .panic

/-- `put_free_inode`; slot 0 is the root inode. -/
def putFreeInode (s : State σ) (i : Nat) : Res (State σ) := do
  check (i ≠ 0)
  check ((s.inode_table i).count = 0)
  return s.setInode i fun inode => { inode with dev := none }

/-- The return of `fit_inode` with the root of a device, or of `iput` to the user. -/
def fitDone (s : State σ) (t : Nat) : (fit : Option Nat) → Res (State σ)
  | none => .ok s
  | some dev => do
      let sb ← theSuper s dev
      let iroot ← deref sb.iroot
      return s.hold t iroot

/-- `iput` from its `list_remove` on. -/
def iputFree (s : State σ) (t i : Nat) (fit : Option Nat) : Res (State σ) := do
  let dev ← deref (s.inode_table i).dev
  check (i ∈ s.inode_list dev)
  let s := { s with
    inode_list := Function.update s.inode_list dev ((s.inode_list dev).erase i) }
  let s ← putFreeInode s i
  fitDone s t fit

/-- `iput` behind its `bwrite`. -/
def iputFinish (s : State σ) (t i : Nat) (fit : Option Nat) : Res (State σ) := do
  let s := s.drop t i
  if (s.inode_table i).count ≠ 0 then fitDone s t fit
  else
    let b ← deref (s.inode_table i).buf
    let cache ← brelse (moveRef s.cache (slotRef i, b) (t, b)) t b
    let s := { s with cache := cache }
    if s.cache.pc t = .user then iputFree s t i fit
    else return s.setPlace t (.releasing i fit)

/-- `iput`. -/
def iput (s : State σ) (t i : Nat) (fit : Option Nat) : Res (State σ) := do
  let b ← deref (s.inode_table i).buf
  let s := { s with cache := bwrite s.cache t b }
  if s.cache.pc t = .user then iputFinish s t i fit
  else return s.setPlace t (.putting i fit)

/-- `fit_inode`. -/
def fitInode (s : State σ) (t i : Nat) : Res (State σ) :=
  match (s.inode_table i).mount with
  | none => .ok s
  | some dev => do
      let _ ← theSuper s dev
      iput s t i (some dev)

/-- `iget` behind its `bread`, which returned buffer `b`. -/
def igetRead (s : State σ) (t i b : Nat) : State σ :=
  let s := s.setInode i fun inode =>
    { inode with
      buf := some b
      desc := some (b, (inode.nr + (2 ^ 32 - 1)) % 2 ^ 32 % BLOCK_INODES) }
  { s with cache := moveRef s.cache (t, b) (slotRef i, b) }.setPlace t .user

/-- The buffer `bread` returns: the one the task worked on, or the one it has just got. -/
def gotBuffer (before after : Cache σ) (t : Nat) : Option Nat :=
  match before.pc t with
  | .lockWait b | .reading b _ | .unlocked b => some b
  | .user | .getFree _ _ | .writing _ _ _ => after.refs.head?.map Prod.snd

/-- `iget` goes on when its `bread` has returned. -/
def igetTurn (s : State σ) (t i : Nat) (cache : Cache σ) : Res (State σ) :=
  if cache.pc t = .user then do
    let b ← deref (gotBuffer s.cache cache t)
    return igetRead { s with cache := cache } t i b
  else .ok { s with cache := cache }

/-- `iget` of an inode that is not in memory. -/
def igetNew (buffer_max : Nat) (s : State σ) (t dev nr : Nat) : Res (State σ) := do
  let sb ← theSuper s dev
  check (nr ≤ sb.desc.inodes)
  let i ← getFreeInode s
  let s := s.setInode i fun inode =>
    { inode with dev := some dev, nr := nr, count := inode.count + 1 }
  check (i ∉ s.inode_list dev)
  let s := { s with
    inode_list := Function.update s.inode_list dev (i :: s.inode_list dev)
    holds := (some t, i) :: s.holds }
  let s := s.setPlace t (.reading i)
  let cache ← bread buffer_max s.cache t dev (inodeBlock sb.desc nr)
  igetTurn s t i cache

/-- `iget`. -/
def iget (buffer_max : Nat) (s : State σ) (t dev nr : Nat) : Res (State σ) := do
  match ← findInode s dev nr with
  | some i => fitInode (s.hold t i) t i
  | none => igetNew buffer_max s t dev nr

inductive Event (σ : Type) where
  | iget (t dev nr : Nat)
  | iput (t i : Nat)
  /-- the descriptor is changed and `dirty` set -/
  | touch (t i : Nat) (data : Data σ)
  /-- `sb->iroot` of a device is set, by `mount_root` or `sys_mount` -/
  | root (t dev i : Nat)
  /-- a device is mounted on an inode, by `mount_root` or `sys_mount` -/
  | cover (t i dev : Nat)
  /-- a call of the buffer cache from elsewhere -/
  | call (e : NeonixBufferCache.Event σ)
  /-- the task goes on from where it stands -/
  | resume (t : Nat)

def exec (buffer_max : Nat) (s : State σ) : Event σ → Res (State σ)
  | .iget t dev nr => iget buffer_max s t dev nr
  | .iput t i => iput s t i none
  | .touch _ i data => do
      let b ← deref (s.inode_table i).buf
      return { s with cache := modifyData s.cache b data }
  | .root t dev i => do
      let sb ← theSuper s dev
      return { s with
        super_table := Function.update s.super_table dev (some { sb with iroot := some i })
        holds := (none, i) :: s.holds.erase (some t, i) }
  | .cover t i dev =>
      let s := s.setInode i fun inode => { inode with mount := some dev }
      .ok { s with holds := (none, i) :: s.holds.erase (some t, i) }
  | .call e => do
      let cache ← NeonixBufferCache.exec buffer_max s.cache e
      return { s with cache := cache }
  | .resume t => do
      let cache ← NeonixBufferCache.exec buffer_max s.cache (.resume t)
      match s.place t with
      | .user => return { s with cache := cache }
      | .reading i => igetTurn s t i cache
      | .putting i fit =>
          let s := { s with cache := cache }
          if cache.pc t = .user then iputFinish (s.setPlace t .user) t i fit else return s
      | .releasing i fit =>
          let s := { s with cache := cache }
          if cache.pc t = .user then iputFree (s.setPlace t .user) t i fit else return s

/-- A call of a task that is not inside one already. -/
def Calls (s : State σ) (t : Nat) : Prop :=
  t < TASK_NR ∧ s.place t = .user ∧ s.cache.pc t = .user

instance (s : State σ) (t : Nat) : Decidable (Calls s t) :=
  inferInstanceAs (Decidable (_ ∧ _ ∧ _))

/-- When an event can happen: what is done with an inode is done by a task that holds it. -/
def Enabled (s : State σ) : Event σ → Prop
  | .iget t _ _ => Calls s t
  | .iput t i | .touch t i _ | .root t _ i | .cover t i _ => Calls s t ∧ (some t, i) ∈ s.holds
  | .call e => Calls s (taskOf e) ∧ NeonixBufferCache.Enabled s.cache e
  | .resume t => t < TASK_NR ∧ ReadyAt s.cache t (s.cache.pc t)

instance (s : State σ) : (e : Event σ) → Decidable (Enabled s e)
  | .iget _ _ _ => inferInstanceAs (Decidable (Calls _ _))
  | .iput _ _ | .touch _ _ _ | .root _ _ _ | .cover _ _ _ => inferInstanceAs (Decidable (_ ∧ _))
  | .call _ => inferInstanceAs (Decidable (_ ∧ _))
  | .resume _ => inferInstanceAs (Decidable (_ ∧ _))

/-- `inode_init`, with the super blocks of the devices read and nothing mounted. -/
structure Init (s : State σ) : Prop where
  cache : NeonixBufferCache.Init s.cache
  inode : ∀ i, (s.inode_table i).dev = none ∧ (s.inode_table i).count = 0
  inode_list : ∀ d, s.inode_list d = []
  iroot : ∀ d sb, s.super_table d = some sb → sb.iroot = none
  place : ∀ t, s.place t = .user
  holds : s.holds = []

def system (σ : Type) (buffer_max : Nat) : System (State σ) (Event σ) :=
  execSystem Init Enabled (exec buffer_max)

/-! ## One slot for each inode -/

variable {s s' : State σ} {t i j d dev nr buffer_max : Nat} {fit : Option Nat}

/-- The list of a device has its inodes, once each. -/
structure Tables (s : State σ) : Prop where
  listed : ∀ d i, i ∈ s.inode_list d ↔ (s.inode_table i).dev = some d
  nodup : ∀ d, (s.inode_list d).Nodup
  apart : ∀ i j d, (s.inode_table i).dev = some d → (s.inode_table j).dev = some d →
    (s.inode_table i).nr = (s.inode_table j).nr → i = j
  below : ∀ i d, (s.inode_table i).dev = some d → i < INODE_NR

/-- The lists and the numbers of the inodes are as they were. -/
structure SameSlots (s s' : State σ) : Prop where
  list : s'.inode_list = s.inode_list
  dev : ∀ i, (s'.inode_table i).dev = (s.inode_table i).dev
  nr : ∀ i, (s'.inode_table i).nr = (s.inode_table i).nr

theorem SameSlots.refl (s : State σ) : SameSlots s s := ⟨rfl, fun _ => rfl, fun _ => rfl⟩

theorem SameSlots.trans {m : State σ} (h : SameSlots s m) (h' : SameSlots m s') :
    SameSlots s s' :=
  ⟨h'.list.trans h.list, fun i => (h'.dev i).trans (h.dev i), fun i => (h'.nr i).trans (h.nr i)⟩

theorem SameSlots.tables (h : SameSlots s s') (hs : Tables s) : Tables s' := by
  refine ⟨fun d i => ?_, fun d => ?_, fun i j d hi hj hnr => ?_, fun i d hi => ?_⟩
  · rw [h.list, h.dev]
    exact hs.listed d i
  · rw [h.list]
    exact hs.nodup d
  · rw [h.dev] at hi hj
    rw [h.nr, h.nr] at hnr
    exact hs.apart i j d hi hj hnr
  · rw [h.dev] at hi
    exact hs.below i d hi

/-- Nothing of the table has changed. -/
theorem Tables.of_eq (hs : Tables s) (hlist : s'.inode_list = s.inode_list)
    (htable : s'.inode_table = s.inode_table) : Tables s' :=
  SameSlots.tables ⟨hlist, fun _ => by rw [htable], fun _ => by rw [htable]⟩ hs

@[simp] theorem setInode_self (f : Inode → Inode) :
    (s.setInode i f).inode_table i = f (s.inode_table i) := Function.update_self ..

theorem setInode_other (f : Inode → Inode) (h : j ≠ i) :
    (s.setInode i f).inode_table j = s.inode_table j := Function.update_of_ne h ..

/-- A store that leaves the device and the number alone. -/
theorem sameSlots_setInode {f : Inode → Inode}
    (hf : ∀ inode, (f inode).dev = inode.dev ∧ (f inode).nr = inode.nr) :
    SameSlots s (s.setInode i f) := by
  have heq : ∀ j, ((s.setInode i f).inode_table j).dev = (s.inode_table j).dev ∧
      ((s.setInode i f).inode_table j).nr = (s.inode_table j).nr := fun j => by
    by_cases hj : j = i
    · subst hj
      rw [setInode_self]
      exact hf _
    · rw [setInode_other f hj]
      exact ⟨rfl, rfl⟩
  exact ⟨rfl, fun j => (heq j).1, fun j => (heq j).2⟩

theorem sameSlots_hold : SameSlots s (s.hold t i) := by
  have hset : SameSlots s (s.setInode i fun inode => { inode with count := inode.count + 1 }) :=
    sameSlots_setInode fun _ => ⟨rfl, rfl⟩
  exact ⟨hset.list, hset.dev, hset.nr⟩

theorem sameSlots_drop : SameSlots s (s.drop t i) := by
  have hset : SameSlots s (s.setInode i fun inode => { inode with count := decr inode.count }) :=
    sameSlots_setInode fun _ => ⟨rfl, rfl⟩
  exact ⟨hset.list, hset.dev, hset.nr⟩

theorem sameSlots_fitDone (h : fitDone s t fit = .ok s') : SameSlots s s' := by
  cases fit with
  | none =>
      rw [← Except.ok.inj h]
      exact .refl s
  | some dev =>
      obtain ⟨sb, -, h⟩ := bind_eq_ok h
      obtain ⟨iroot, -, h⟩ := bind_eq_ok h
      rw [← Except.ok.inj h]
      exact sameSlots_hold

theorem deref_ok {α : Type} {x : Option α} {a : α} (h : deref x = .ok a) : x = some a := by
  cases x with
  | none => cases h
  | some b => rw [Except.ok.inj h]

theorem theSuper_ok {sb : SuperBlock} (h : theSuper s d = .ok sb) : s.super_table d = some sb := by
  rw [theSuper] at h
  cases hsb : s.super_table d with
  | none =>
      rw [hsb] at h
      cases h
  | some sb' =>
      rw [hsb] at h
      rw [Except.ok.inj h]

/-- The state without one inode. -/
def dropInode (s : State σ) (i dev : Nat) : State σ :=
  { s with
    inode_list := Function.update s.inode_list dev ((s.inode_list dev).erase i) }.setInode i
    fun inode => { inode with dev := none }

theorem iputFree_spec (h : iputFree s t i fit = .ok s') : ∃ dev,
    (s.inode_table i).dev = some dev ∧ fitDone (dropInode s i dev) t fit = .ok s' := by
  obtain ⟨dev, hdev, h⟩ := bind_eq_ok h
  obtain ⟨_, -, h⟩ := bind_eq_ok h
  obtain ⟨m, hm, h⟩ := bind_eq_ok h
  obtain ⟨_, -, hm⟩ := bind_eq_ok hm
  obtain ⟨_, -, hm⟩ := bind_eq_ok hm
  obtain rfl := Except.ok.inj hm
  exact ⟨dev, deref_ok hdev, h⟩

theorem tables_dropInode (hs : Tables s) (hdev : (s.inode_table i).dev = some dev) :
    Tables (dropInode s i dev) := by
  have hself : ((dropInode s i dev).inode_table i).dev = none := by
    rw [dropInode, setInode_self]
  have hother : ∀ j, j ≠ i → (dropInode s i dev).inode_table j = s.inode_table j :=
    fun j hj => setInode_other _ hj
  have hne : ∀ j d, ((dropInode s i dev).inode_table j).dev = some d → j ≠ i := by
    rintro j d hj rfl
    rw [hself] at hj
    cases hj
  refine ⟨fun d j => ?_, fun d => ?_, fun j k d hj hk hnr => ?_, fun j d hj => ?_⟩
  · show j ∈ Function.update s.inode_list dev ((s.inode_list dev).erase i) d ↔ _
    by_cases hj : j = i
    · subst hj
      rw [hself]
      refine iff_of_false (fun hmem => ?_) (by rintro ⟨⟩)
      by_cases hd : d = dev
      · subst hd
        rw [Function.update_self] at hmem
        exact (hs.nodup d).not_mem_erase hmem
      · rw [Function.update_of_ne hd] at hmem
        have hlisted := (hs.listed d j).mp hmem
        exact hd (Option.some.inj (hlisted.symm.trans hdev))
    · rw [hother j hj, ← hs.listed d j]
      by_cases hd : d = dev
      · subst hd
        rw [Function.update_self]
        exact List.mem_erase_of_ne hj
      · rw [Function.update_of_ne hd]
  · show (Function.update s.inode_list dev ((s.inode_list dev).erase i) d).Nodup
    by_cases hd : d = dev
    · subst hd
      rw [Function.update_self]
      exact (hs.nodup d).erase i
    · rw [Function.update_of_ne hd]
      exact hs.nodup d
  · have hji := hne j d hj
    have hki := hne k d hk
    rw [hother j hji] at hj hnr
    rw [hother k hki] at hk hnr
    exact hs.apart j k d hj hk hnr
  · rw [hother j (hne j d hj)] at hj
    exact hs.below j d hj

theorem tables_iputFree (hs : Tables s) (h : iputFree s t i fit = .ok s') : Tables s' := by
  obtain ⟨dev, hdev, h⟩ := iputFree_spec h
  exact (sameSlots_fitDone h).tables (tables_dropInode hs hdev)

/-- The two ways `iput` ends. -/
theorem iputFinish_spec (h : iputFinish s t i fit = .ok s') :
    decr (s.inode_table i).count ≠ 0 ∧ fitDone (s.drop t i) t fit = .ok s' ∨
    decr (s.inode_table i).count = 0 ∧ ∃ b c, (s.inode_table i).buf = some b ∧
      brelse (moveRef s.cache (slotRef i, b) (t, b)) t b = .ok c ∧
      (c.pc t = .user ∧ iputFree { s.drop t i with cache := c } t i fit = .ok s' ∨
        c.pc t ≠ .user ∧ s' = { s.drop t i with cache := c }.setPlace t (.releasing i fit)) := by
  have hself : (s.drop t i).inode_table i =
      { s.inode_table i with count := decr (s.inode_table i).count } := Function.update_self ..
  have hcount : ((s.drop t i).inode_table i).count = decr (s.inode_table i).count := by
    rw [hself]
  have hbuf : ((s.drop t i).inode_table i).buf = (s.inode_table i).buf := by
    rw [hself]
  rw [iputFinish] at h
  simp only [hcount, hbuf] at h
  by_cases hleft : decr (s.inode_table i).count ≠ 0
  · rw [if_pos hleft] at h
    exact Or.inl ⟨hleft, h⟩
  · rw [if_neg hleft] at h
    obtain ⟨b, hb, h⟩ := bind_eq_ok h
    obtain ⟨c, hc, h⟩ := bind_eq_ok h
    refine Or.inr ⟨not_not.mp hleft, b, c, deref_ok hb, hc, ?_⟩
    by_cases hpc : c.pc t = .user
    · rw [if_pos hpc] at h
      exact Or.inl ⟨hpc, h⟩
    · rw [if_neg hpc] at h
      exact Or.inr ⟨hpc, (Except.ok.inj h).symm⟩

theorem tables_iputFinish (hs : Tables s) (h : iputFinish s t i fit = .ok s') : Tables s' := by
  have hdrop : Tables (s.drop t i) := sameSlots_drop.tables hs
  rcases iputFinish_spec h with ⟨-, h⟩ | ⟨-, b, c, -, -, ⟨-, h⟩ | ⟨-, rfl⟩⟩
  · exact (sameSlots_fitDone h).tables hdrop
  · refine tables_iputFree ?_ h
    exact hdrop.of_eq rfl rfl
  · exact hdrop.of_eq rfl rfl

theorem tables_iput (hs : Tables s) (h : iput s t i fit = .ok s') : Tables s' := by
  obtain ⟨b, -, h⟩ := bind_eq_ok h
  dsimp only at h
  split at h
  · refine tables_iputFinish ?_ h
    exact hs.of_eq rfl rfl
  · rw [← Except.ok.inj h]
    exact hs.of_eq rfl rfl

theorem tables_igetTurn {cache : Cache σ} (hs : Tables s) (h : igetTurn s t i cache = .ok s') :
    Tables s' := by
  rw [igetTurn] at h
  split at h
  · obtain ⟨b, -, h⟩ := bind_eq_ok h
    rw [← Except.ok.inj h]
    have hset : SameSlots s (s.setInode i fun inode =>
        { inode with
          buf := some b
          desc := some (b, (inode.nr + (2 ^ 32 - 1)) % 2 ^ 32 % BLOCK_INODES) }) :=
      sameSlots_setInode fun _ => ⟨rfl, rfl⟩
    exact SameSlots.tables ⟨hset.list, hset.dev, hset.nr⟩ hs
  · rw [← Except.ok.inj h]
    exact hs.of_eq rfl rfl

/-- The state with one inode more, which a task is about to read. -/
def addInode (s : State σ) (t i dev nr : Nat) : State σ :=
  let s := s.setInode i fun inode =>
    { inode with dev := some dev, nr := nr, count := inode.count + 1 }
  { s with
    inode_list := Function.update s.inode_list dev (i :: s.inode_list dev)
    holds := (some t, i) :: s.holds }.setPlace t (.reading i)

theorem addInode_self : (addInode s t i dev nr).inode_table i =
    { s.inode_table i with dev := some dev, nr := nr, count := (s.inode_table i).count + 1 } :=
  Function.update_self ..

theorem addInode_other (h : j ≠ i) : (addInode s t i dev nr).inode_table j = s.inode_table j :=
  Function.update_of_ne h ..

theorem igetNew_spec (h : igetNew buffer_max s t dev nr = .ok s') : ∃ sb i cache,
    s.super_table dev = some sb ∧ i < INODE_NR ∧ (s.inode_table i).dev = none ∧
      bread buffer_max s.cache t dev (inodeBlock sb.desc nr) = .ok cache ∧
      igetTurn (addInode s t i dev nr) t i cache = .ok s' := by
  obtain ⟨sb, hsb, h⟩ := bind_eq_ok h
  obtain ⟨_, -, h⟩ := bind_eq_ok h
  obtain ⟨i, hi, h⟩ := bind_eq_ok h
  obtain ⟨_, -, h⟩ := bind_eq_ok h
  obtain ⟨cache, hc, h⟩ := bind_eq_ok h
  have hfree : i < INODE_NR ∧ (s.inode_table i).dev = none := by
    rw [getFreeInode] at hi
    split at hi
    · rename_i k hk
      obtain rfl := Except.ok.inj hi
      have hfree := List.find?_some hk
      exact ⟨List.mem_range.mp (List.mem_of_find?_eq_some hk), of_decide_eq_true hfree⟩
    · cases hi
  exact ⟨sb, i, cache, theSuper_ok hsb, hfree.1, hfree.2, hc, h⟩

theorem tables_addInode (hs : Tables s) (hlt : i < INODE_NR) (hi : (s.inode_table i).dev = none)
    (hnone : ∀ j, (s.inode_table j).dev = some dev → (s.inode_table j).nr ≠ nr) :
    Tables (addInode s t i dev nr) := by
  have hself : ((addInode s t i dev nr).inode_table i).dev = some dev ∧
      ((addInode s t i dev nr).inode_table i).nr = nr := by
    rw [addInode_self]
    exact ⟨rfl, rfl⟩
  have hother : ∀ j, j ≠ i → (addInode s t i dev nr).inode_table j = s.inode_table j :=
    fun j hj => addInode_other hj
  have hunlisted : ∀ d, i ∉ s.inode_list d := fun d hmem => by
    rw [hs.listed, hi] at hmem
    cases hmem
  refine ⟨fun d j => ?_, fun d => ?_, fun j k d hj hk hnr => ?_, fun j d hj => ?_⟩
  · show j ∈ Function.update s.inode_list dev (i :: s.inode_list dev) d ↔ _
    by_cases hd : d = dev
    · subst hd
      rw [Function.update_self, List.mem_cons]
      by_cases hj : j = i
      · subst hj
        rw [hself.1]
        exact iff_of_true (Or.inl rfl) rfl
      · rw [hother j hj, ← hs.listed d j]
        exact or_iff_right hj
    · rw [Function.update_of_ne hd]
      by_cases hj : j = i
      · subst hj
        rw [hself.1]
        exact iff_of_false (hunlisted d) fun heq => hd (Option.some.inj heq).symm
      · rw [hother j hj, ← hs.listed d j]
  · show (Function.update s.inode_list dev (i :: s.inode_list dev) d).Nodup
    by_cases hd : d = dev
    · subst hd
      rw [Function.update_self]
      exact List.nodup_cons.mpr ⟨hunlisted d, hs.nodup d⟩
    · rw [Function.update_of_ne hd]
      exact hs.nodup d
  · by_cases hji : j = i
    · subst hji
      by_cases hkj : k = j
      · exact hkj.symm
      · rw [hself.1] at hj
        rw [hself.2, hother k hkj] at hnr
        rw [hother k hkj, ← Option.some.inj hj] at hk
        exact absurd hnr.symm (hnone k hk)
    · by_cases hki : k = i
      · subst hki
        rw [hself.1] at hk
        rw [hself.2, hother j hji] at hnr
        rw [hother j hji, ← Option.some.inj hk] at hj
        exact absurd hnr (hnone j hj)
      · rw [hother j hji] at hj hnr
        rw [hother k hki] at hk hnr
        exact hs.apart j k d hj hk hnr
  · by_cases hji : j = i
    · subst hji
      exact hlt
    · rw [hother j hji] at hj
      exact hs.below j d hj

/-- What the search along the list finds. -/
theorem findInode_spec {r : Option Nat} (hs : Tables s) (h : findInode s dev nr = .ok r) :
    r = (s.inode_list dev).find? (fun i => (s.inode_table i).nr = nr) ∧
    match r with
    | some i => (s.inode_table i).dev = some dev ∧ (s.inode_table i).nr = nr
    | none => ∀ j, (s.inode_table j).dev = some dev → (s.inode_table j).nr ≠ nr := by
  obtain ⟨sb, -, h⟩ := bind_eq_ok h
  have hr := Except.ok.inj h
  refine ⟨hr.symm, ?_⟩
  cases r with
  | some i =>
      have hnr := List.find?_some hr
      exact ⟨(hs.listed dev i).mp (List.mem_of_find?_eq_some hr), of_decide_eq_true hnr⟩
  | none =>
      intro j hj hnr
      have hall := List.find?_eq_none.mp hr j ((hs.listed dev j).mpr hj)
      exact hall (decide_eq_true hnr)

theorem tables_iget (hs : Tables s) (h : iget buffer_max s t dev nr = .ok s') : Tables s' := by
  obtain ⟨r, hr, h⟩ := bind_eq_ok h
  obtain ⟨-, hspec⟩ := findInode_spec hs hr
  cases r with
  | some i =>
      have hhold : Tables (s.hold t i) := sameSlots_hold.tables hs
      dsimp only at h
      rw [fitInode] at h
      split at h
      · rw [← Except.ok.inj h]
        exact hhold
      · obtain ⟨_, -, h⟩ := bind_eq_ok h
        exact tables_iput hhold h
  | none =>
      obtain ⟨sb, i, cache, -, hlt, hi, -, h⟩ := igetNew_spec h
      exact tables_igetTurn (tables_addInode hs hlt hi hspec) h

theorem tables_exec {e : Event σ} (hs : Tables s) (h : exec buffer_max s e = .ok s') :
    Tables s' := by
  cases e with
  | iget t dev nr => exact tables_iget hs h
  | iput t i => exact tables_iput hs h
  | touch t i data =>
      obtain ⟨b, -, h⟩ := bind_eq_ok h
      rw [← Except.ok.inj h]
      exact hs.of_eq rfl rfl
  | root t dev i =>
      obtain ⟨sb, -, h⟩ := bind_eq_ok h
      rw [← Except.ok.inj h]
      exact hs.of_eq rfl rfl
  | cover t i dev =>
      rw [← Except.ok.inj h]
      have hset : SameSlots s (s.setInode i fun inode => { inode with mount := some dev }) :=
        sameSlots_setInode fun _ => ⟨rfl, rfl⟩
      exact SameSlots.tables ⟨hset.list, hset.dev, hset.nr⟩ hs
  | call e =>
      obtain ⟨cache, -, h⟩ := bind_eq_ok h
      rw [← Except.ok.inj h]
      exact hs.of_eq rfl rfl
  | resume t =>
      obtain ⟨cache, -, h⟩ := bind_eq_ok h
      have hcache : Tables { s with cache := cache } :=
        hs.of_eq rfl rfl
      cases hp : s.place t with
      | user =>
          rw [hp] at h
          rw [← Except.ok.inj h]
          exact hcache
      | reading i =>
          rw [hp] at h
          exact tables_igetTurn hs h
      | putting i fit =>
          rw [hp] at h
          dsimp only at h
          split at h
          · refine tables_iputFinish ?_ h
            exact hcache.of_eq rfl rfl
          · rw [← Except.ok.inj h]
            exact hcache
      | releasing i fit =>
          rw [hp] at h
          dsimp only at h
          split at h
          · refine tables_iputFree ?_ h
            exact hcache.of_eq rfl rfl
          · rw [← Except.ok.inj h]
            exact hcache

theorem tables_init (h : Init s) : Tables s := by
  refine ⟨fun d i => ?_, fun d => ?_, fun i j d hi => ?_, fun i d hi => ?_⟩
  · rw [h.inode_list, (h.inode i).1]
    exact iff_of_false List.not_mem_nil (by rintro ⟨⟩)
  · rw [h.inode_list]
    exact List.nodup_nil
  · rw [(h.inode i).1] at hi
    cases hi
  · rw [(h.inode i).1] at hi
    cases hi

/-- **ONE SLOT FOR EACH INODE**: in every state of every run, however the tasks are switched, no
    two slots of the table stand for the same inode of a device. -/
theorem inode_once (h : Reach (system σ buffer_max) free s)
    (hi : (s.inode_table i).dev = some d) (hj : (s.inode_table j).dev = some d)
    (hnr : (s.inode_table i).nr = (s.inode_table j).nr) : i = j := by
  have hstep : ∀ (m : State σ) (e : Event σ) (n : State σ),
      Tables m → free m e → (system σ buffer_max).step m e n → Tables n :=
    fun _ _ _ hm _ hst => tables_exec hm hst.2
  have hs : Tables s := h.invariant (fun _ => tables_init) hstep
  exact hs.apart i j d hi hj hnr

/-- One device with a small volume, and no inode in use. -/
def bootState : State Nat where
  cache := emptyCache
  inode_table := fun _ =>
    { desc := none, buf := none, dev := none, nr := 0, count := 0, mount := none }
  inode_list := fun _ => []
  super_table := fun d => if d = 0 then some { desc := oneMapDesc, iroot := none } else none
  place := fun _ => .user
  holds := []

theorem bootState_init : Init bootState := by
  refine ⟨emptyCache_init, fun _ => ⟨rfl, rfl⟩, fun _ => rfl, fun d sb hsb => ?_, fun _ => rfl, rfl⟩
  have hsb : (if d = 0 then some { desc := oneMapDesc, iroot := none } else none) = some sb := hsb
  split at hsb
  · rw [← Option.some.inj hsb]
  · cases hsb

/-- A second task asks for an inode that is being read, and gets the same slot. -/
theorem inode_once_second : ∃ s : State Nat, (s.inode_table 0).count = 2 ∧
    ∀ j, (s.inode_table j).dev = some 0 → (s.inode_table 0).nr = (s.inode_table j).nr → 0 = j := by
  have hrun : (follow free Enabled (exec 2) bootState [.iget 1 0 1, .iget 2 0 1]).map
      (fun s => ((s.inode_table 0).count, (s.inode_table 0).dev)) = some (2, some 0) := by
    decide
  obtain ⟨s, hs, hobs⟩ := Option.map_eq_some_iff.mp hrun
  simp only [Prod.mk.injEq] at hobs
  obtain ⟨hcount, hdev⟩ := hobs
  exact ⟨s, hcount, fun j hj hnr =>
    inode_once (Reach.follow _ (.start bootState_init) hs) hdev hj hnr⟩

end NeonixInodeTable
