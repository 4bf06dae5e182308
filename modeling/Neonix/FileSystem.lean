import Neonix.Calls
import Neonix.Volume
import Neonix.Words

/-! # The tables of the file system

    `inode_table`, `super_table`, `file_table` and the fields of the tasks that
    point into them, and the contents of the devices as the buffer cache shows
    them: `disk dev b` is what `bread(dev, b)` returns.  Slots of a table are
    numbers; a pointer that may be null is an `Option`.  The calls here are run
    one after the other, so `brelse` and `bwrite` do nothing that shows.

    A pointer into a C string is the list of the bytes from it to the end of the
    string, so two pointers into one string are the same pointer if and only if
    the lists are equal. -/

namespace NeonixFileSystem

open NeonixMachine NeonixByteBits NeonixWords NeonixVolume NeonixCalls

def INODE_NR : Nat := 64
def SUPER_NR : Nat := 16
def FILE_NR : Nat := 128
def TASK_NR : Nat := 64
def TASK_FILE_NR : Nat := 16
def NAME_LEN : Nat := 14
/-- `BLOCK_SIZE / sizeof(dentry_t)`. -/
def BLOCK_DENTRIES : Nat := 64
/-- `BLOCK_SIZE / sizeof(u16)`. -/
def BLOCK_INDEXES : Nat := 512
def DIRECT_BLOCK : Nat := 7
def INDIRECT1_BLOCK : Nat := BLOCK_INDEXES
def INDIRECT2_BLOCK : Nat := INDIRECT1_BLOCK * INDIRECT1_BLOCK
def TOTAL_BLOCK : Nat := DIRECT_BLOCK + INDIRECT1_BLOCK + INDIRECT2_BLOCK

def EOF : Int := -1

/-- `dev_t`; `EOF` is the device of a free slot, `-2` that of a pipe. -/
abbrev Dev : Type := Int

/-- `EOF` as an `idx_t`. -/
def EOF_IDX : Nat := 2 ^ 32 - 1

/-- A pointer into a C string. -/
abbrev Str : Type := List Byte

/-- A pointer into the data of a buffer. -/
structure Place where
  dev : Dev
  block : Nat
  off : Nat
  deriving DecidableEq

/-- `inode_t`; `buf` is the buffer `desc` points into. -/
structure Inode where
  desc : Place
  dev : Dev
  nr : Nat
  count : Nat
  mount : Dev
  pipe : Bool

/-- `super_block_t`; `imaps` and `zmaps` are the blocks behind block 1. -/
structure SuperBlock where
  desc : SuperDesc
  dev : Dev
  count : Nat
  inode_list : List Nat
  iroot : Option Nat
  imount : Option Nat

/-- `file_t`. -/
structure File where
  inode : Option Nat
  count : Nat
  offset : Int
  flags : BitVec 32
  mode : BitVec 16

/-- The fields of `task_t` the file system reads. -/
structure Task where
  uid : Nat
  gid : Nat
  umask : BitVec 16
  ipwd : Nat
  iroot : Nat
  iexec : Option Nat
  files : Nat → Option Nat
  /-- the state is `TASK_DIED` -/
  died : Bool

structure Kernel where
  inode_table : Nat → Inode
  super_table : Nat → SuperBlock
  /-- the slot of the root file system's super block -/
  root : Nat
  file_table : Nat → File
  task_table : Nat → Option Task
  current : Nat
  disk : Dev → Nat → Bytes
  /-- what `time` returns -/
  time : BitVec 32

/-- Why a call did not return. -/
inductive Halt where
  | stopped (why : Stop)
  /-- a loop without a bound of its own is not over after all its turns -/
  | outOfFuel
  deriving DecidableEq, Repr

/-- A kernel call. -/
abbrev Fs (α : Type) : Type := Call Kernel Halt α

def halt {α : Type} (why : Stop) : Fs α := stop (.stopped why)

/-- A function that reads no state. -/
def ofRes {α : Type} : Res α → Fs α
  | .ok a => pure a
  | .error why => halt why

/-- `assert(p)`. -/
def assert (p : Prop) [Decidable p] : Fs Unit := if p then pure () else halt .assertion

/-- The object behind a pointer that may be null. -/
def deref {α : Type} : Option α → Fs α
  | none => halt .outOfBounds
  | some a => pure a

/-! ## Memory behind pointers -/

def Place.add (p : Place) (k : Nat) : Place := { p with off := p.off + k }

/-- The bytes from a pointer on. -/
def Kernel.bytes (s : Kernel) (p : Place) : Bytes := fun k => s.disk p.dev p.block (p.off + k)

/-- The contents of one block. -/
def Kernel.setBlock (s : Kernel) (dev : Dev) (block : Nat) (data : Bytes) : Kernel :=
  { s with disk := Function.update s.disk dev (Function.update (s.disk dev) block data) }

def Kernel.putU8 (s : Kernel) (p : Place) (x : Byte) : Kernel :=
  s.setBlock p.dev p.block (NeonixWords.putU8 (s.disk p.dev p.block) p.off x)

def Kernel.putU16 (s : Kernel) (p : Place) (x : BitVec 16) : Kernel :=
  s.setBlock p.dev p.block (NeonixWords.putU16 (s.disk p.dev p.block) p.off x)

def Kernel.putU32 (s : Kernel) (p : Place) (x : BitVec 32) : Kernel :=
  s.setBlock p.dev p.block (NeonixWords.putU32 (s.disk p.dev p.block) p.off x)

/-- A store to the bytes from a pointer on. -/
def Kernel.setBytes (s : Kernel) (p : Place) (f : Bytes → Bytes) : Kernel :=
  s.setBlock p.dev p.block fun k =>
    if k < p.off then s.disk p.dev p.block k else f (s.bytes p) (k - p.off)

/-! ### The fields of `inode_desc_t` behind an in-memory inode -/

/-- `inode->desc`. -/
def Kernel.desc (s : Kernel) (i : Nat) : Place := (s.inode_table i).desc

def Kernel.mode (s : Kernel) (i : Nat) : BitVec 16 := u16At (s.bytes (s.desc i)) 0
def Kernel.uid (s : Kernel) (i : Nat) : BitVec 16 := u16At (s.bytes (s.desc i)) 2
def Kernel.size (s : Kernel) (i : Nat) : Nat := (u32At (s.bytes (s.desc i)) 4).toNat
def Kernel.mtime (s : Kernel) (i : Nat) : BitVec 32 := u32At (s.bytes (s.desc i)) 8
def Kernel.gid (s : Kernel) (i : Nat) : Byte := s.bytes (s.desc i) 12
def Kernel.nlinks (s : Kernel) (i : Nat) : Byte := s.bytes (s.desc i) 13
/-- `inode->desc->zone`. -/
def Kernel.zone (s : Kernel) (i : Nat) : Place := (s.desc i).add 14

def Kernel.setMode (s : Kernel) (i : Nat) (x : BitVec 16) : Kernel := s.putU16 (s.desc i) x
def Kernel.setUid (s : Kernel) (i : Nat) (x : BitVec 16) : Kernel := s.putU16 ((s.desc i).add 2) x
def Kernel.setSize (s : Kernel) (i : Nat) (x : Nat) : Kernel :=
  s.putU32 ((s.desc i).add 4) (BitVec.ofNat 32 x)
def Kernel.setMtime (s : Kernel) (i : Nat) (x : BitVec 32) : Kernel :=
  s.putU32 ((s.desc i).add 8) x
def Kernel.setGid (s : Kernel) (i : Nat) (x : Byte) : Kernel := s.putU8 ((s.desc i).add 12) x
def Kernel.setNlinks (s : Kernel) (i : Nat) (x : Byte) : Kernel := s.putU8 ((s.desc i).add 13) x

/-- `array[index]` of a `u16 *`. -/
def Kernel.index (s : Kernel) (array : Place) (index : Nat) : BitVec 16 :=
  u16At (s.bytes array) (2 * index)

def Kernel.setIndex (s : Kernel) (array : Place) (index : Nat) (x : BitVec 16) : Kernel :=
  s.putU16 (array.add (2 * index)) x

/-! ### The fields of `dentry_t` -/

/-- `entry->nr`. -/
def Kernel.entryNr (s : Kernel) (entry : Place) : Nat := (u16At (s.bytes entry) 0).toNat

def Kernel.setEntryNr (s : Kernel) (entry : Place) (nr : Nat) : Kernel :=
  s.putU16 entry (BitVec.ofNat 16 nr)

/-! ## Stores to the tables -/

def Kernel.setInode (s : Kernel) (i : Nat) (f : Inode → Inode) : Kernel :=
  { s with inode_table := Function.update s.inode_table i (f (s.inode_table i)) }

def Kernel.setSuper (s : Kernel) (k : Nat) (f : SuperBlock → SuperBlock) : Kernel :=
  { s with super_table := Function.update s.super_table k (f (s.super_table k)) }

def Kernel.setFile (s : Kernel) (k : Nat) (f : File → File) : Kernel :=
  { s with file_table := Function.update s.file_table k (f (s.file_table k)) }

/-- `task_table[i] = task`. -/
def Kernel.putTask (s : Kernel) (i : Nat) (task : Option Task) : Kernel :=
  { s with task_table := Function.update s.task_table i task }

/-- A store to the running task. -/
def Kernel.setTask (s : Kernel) (f : Task → Task) : Kernel :=
  s.putTask s.current ((s.task_table s.current).map f)

/-- `count++` of an in-memory inode. -/
def Kernel.hold (s : Kernel) (i : Nat) : Kernel :=
  s.setInode i fun inode => { inode with count := inode.count + 1 }

/-- `running_task`. -/
def runningTask : Fs Task := do
  let s ← get
  deref (s.task_table s.current)

/-- `get_super`. -/
def getSuper (s : Kernel) (dev : Dev) : Option Nat :=
  (List.range SUPER_NR).find? fun k => (s.super_table k).dev = dev

/-! ## `fs/bmap.c` -/

/-- A call of the volume of a device. -/
def onVolume {α : Type} (dev : Dev) (f : Volume → Res (α × Volume)) : Fs α := do
  let s ← get
  match getSuper s dev with
  | none => halt .assertion
  | some k =>
      match f { desc := (s.super_table k).desc, disk := s.disk dev } with
      | .error e => halt e
      | .ok (a, v) =>
          set { s with disk := Function.update s.disk dev v.disk }
          return a

def balloc (dev : Dev) : Fs Nat := do
  let bit ← onVolume dev NeonixVolume.balloc
  return bit.getD EOF_IDX

def bfree (dev : Dev) (idx : Nat) : Fs Unit :=
  onVolume dev fun v => do return ((), ← NeonixVolume.bfree v idx)

def ialloc (dev : Dev) : Fs Nat := do
  let bit ← onVolume dev NeonixVolume.ialloc
  return bit.getD EOF_IDX

def ifree (dev : Dev) (idx : Nat) : Fs Unit :=
  onVolume dev fun v => do return ((), ← NeonixVolume.ifree v idx)

/-- `array[index]`, allocated first if it is 0 and `create` is true. -/
def slot (dev : Dev) (create : Bool) (array : Place) (index : Nat) : Fs Nat := do
  let s ← get
  onlyIf (s.index array index = 0 ∧ create = true) do
    let nr ← balloc dev
    modify fun s => s.setIndex array index (BitVec.ofNat 16 nr)
  return ((← get).index array index).toNat

/-- The loop of `bmap` behind `reckon`, with `level + 1` turns. -/
def reckon (dev : Dev) (create : Bool) :
    (level : Nat) → (array : Place) → (index block divider : Nat) → Fs Nat
  | 0, array, index, _, _ => slot dev create array index
  | level + 1, array, index, block, divider => do
      let nr ← slot dev create array index
      if nr = 0 then return 0
      else
        reckon dev create level { dev := dev, block := nr, off := 0 } (block / divider)
          (block % divider) (divider / BLOCK_INDEXES)

/-- `bmap`. -/
def bmap (inode block : Nat) (create : Bool) : Fs Nat := do
  assert (block < TOTAL_BLOCK)
  let s ← get
  let dev := (s.inode_table inode).dev
  if block < DIRECT_BLOCK then reckon dev create 0 (s.zone inode) block block 1
  else
    let block := block - DIRECT_BLOCK
    if block < INDIRECT1_BLOCK then reckon dev create 1 (s.zone inode) DIRECT_BLOCK block 1
    else
      let block := block - INDIRECT1_BLOCK
      assert (block < INDIRECT2_BLOCK)
      reckon dev create 2 (s.zone inode) (DIRECT_BLOCK + 1) block BLOCK_INDEXES

/-! ## `fs/inode.c` -/

/-- `get_free_inode`. -/
def getFreeInode : Fs Nat := do
  let s ← get
  match (List.range INODE_NR).find? fun i => (s.inode_table i).dev = EOF with
  | none => halt .panic
  | some i => return i

/-- `put_free_inode`; slot 0 is the root inode. -/
def putFreeInode (i : Nat) : Fs Unit := do
  assert (i ≠ 0)
  assert (((← get).inode_table i).count = 0)
  modify fun s => s.setInode i fun inode => { inode with dev := EOF }

/-- `count--`, which wraps at 0. -/
def decr (count : Nat) : Nat := if count = 0 then 2 ^ 32 - 1 else count - 1

/-- `get_pipe_inode`; the queue behind `desc` and the page behind `buf` are left
    out. -/
def getPipeInode : Fs Nat := do
  let i ← getFreeInode
  modify fun s => s.setInode i fun inode => { inode with dev := -2, count := 2, pipe := true }
  return i

/-- `put_pipe_inode`. -/
def putPipeInode (i : Nat) : Fs Unit := do
  modify fun s => s.setInode i fun inode => { inode with count := decr inode.count }
  if ((← get).inode_table i).count ≠ 0 then return ()
  else
    modify fun s => s.setInode i fun inode => { inode with pipe := false }
    putFreeInode i

/-- `inode_block`, in the arithmetic of `idx_t`. -/
def inodeBlock (sb : SuperDesc) (nr : Nat) : Nat :=
  2 + sb.imap_blocks + sb.zmap_blocks + (nr + (2 ^ 32 - 1)) % 2 ^ 32 / BLOCK_INODES

/-- `&((inode_desc_t *) buf->data)[(nr - 1) % BLOCK_INODES]` in `inode_block`. -/
def inodeDesc (sb : SuperDesc) (dev : Dev) (nr : Nat) : Place where
  dev := dev
  block := inodeBlock sb nr
  off := 32 * ((nr + (2 ^ 32 - 1)) % 2 ^ 32 % BLOCK_INODES)

/-- `get_super` and the assertion behind it. -/
def theSuper (dev : Dev) : Fs Nat := do
  match getSuper (← get) dev with
  | none => halt .assertion
  | some k => return k

/-- `find_inode`. -/
def findInode (dev : Dev) (nr : Nat) : Fs (Option Nat) := do
  let k ← theSuper dev
  let s ← get
  return (s.super_table k).inode_list.find? fun i => (s.inode_table i).nr = nr

/-- `list_remove(&inode->node)`: the node is on the list of one super block. -/
def listRemove (i : Nat) : Fs Unit := do
  let s ← get
  assert (∃ k < SUPER_NR, i ∈ (s.super_table k).inode_list)
  modify fun s => { s with super_table := fun k =>
    { s.super_table k with inode_list := (s.super_table k).inode_list.erase i } }

/-- `iput`. -/
def iput : Option Nat → Fs Unit
  | none => return ()
  | some i => do
      if ((← get).inode_table i).pipe = true then putPipeInode i
      else
        modify fun s => s.setInode i fun inode => { inode with count := decr inode.count }
        if ((← get).inode_table i).count ≠ 0 then return ()
        else
          listRemove i
          putFreeInode i

/-- `fit_inode`. -/
def fitInode (i : Nat) : Fs Nat := do
  let mount := ((← get).inode_table i).mount
  if mount = 0 then return i
  else
    let k ← theSuper mount
    iput (some i)
    let iroot ← deref ((← get).super_table k).iroot
    modify fun s => s.hold iroot
    return iroot

/-- `iget`. -/
def iget (dev : Dev) (nr : Nat) : Fs Nat := do
  match ← findInode dev nr with
  | some i =>
      modify fun s => s.hold i
      fitInode i
  | none =>
      let k ← theSuper dev
      assert (nr ≤ ((← get).super_table k).desc.inodes)
      let i ← getFreeInode
      modify fun s => s.setInode i fun inode =>
        { inode with dev := dev, nr := nr, count := inode.count + 1 }
      assert (i ∉ ((← get).super_table k).inode_list)
      modify fun s => s.setSuper k fun sb => { sb with inode_list := i :: sb.inode_list }
      modify fun s => s.setInode i fun inode =>
        { inode with desc := inodeDesc (s.super_table k).desc dev nr }
      return i

/-- `new_inode`, which leaves the zones as they are. -/
def newInode (dev : Dev) (nr : Nat) : Fs Nat := do
  let task ← runningTask
  let i ← iget dev nr
  modify fun s => s.setMode i (0o777 &&& ~~~ task.umask)
  modify fun s => s.setUid i (BitVec.ofNat 16 task.uid)
  modify fun s => s.setSize i 0
  modify fun s => s.setMtime i s.time
  modify fun s => s.setGid i (BitVec.ofNat 8 task.gid)
  modify fun s => s.setNlinks i 1
  return i

def IFMT : BitVec 16 := 0o170000
def IFREG : BitVec 16 := 0o100000
def IFBLK : BitVec 16 := 0o060000
def IFDIR : BitVec 16 := 0o040000
def IFCHR : BitVec 16 := 0o020000
def ISVTX : BitVec 16 := 0o001000

def ISDIR (m : BitVec 16) : Prop := m &&& IFMT = IFDIR
def ISFILE (m : BitVec 16) : Prop := m &&& IFMT = IFREG
def ISBLK (m : BitVec 16) : Prop := m &&& IFMT = IFBLK
def ISCHR (m : BitVec 16) : Prop := m &&& IFMT = IFCHR

instance (m : BitVec 16) : Decidable (ISDIR m) := inferInstanceAs (Decidable (_ = _))
instance (m : BitVec 16) : Decidable (ISFILE m) := inferInstanceAs (Decidable (_ = _))
instance (m : BitVec 16) : Decidable (ISBLK m) := inferInstanceAs (Decidable (_ = _))
instance (m : BitVec 16) : Decidable (ISCHR m) := inferInstanceAs (Decidable (_ = _))

/-- `inode_bfree`. -/
def inodeBfree (dev : Dev) : (level : Nat) → (array : Place) → (index : Nat) → Fs Unit
  | 0, array, index => do
      let nr := (← get).index array index
      if nr = 0 then return () else bfree dev nr.toNat
  | level + 1, array, index => do
      let nr := (← get).index array index
      if nr = 0 then return ()
      else
        loop (inodeBfree dev level { dev := dev, block := nr.toNat, off := 0 }) 0 BLOCK_INDEXES
        bfree dev ((← get).index array index).toNat

/-- A zone slot of `inode_truncate`. -/
def releaseZone (dev : Dev) (zone : Place) (level i : Nat) : Fs Unit := do
  inodeBfree dev level zone i
  modify fun s => s.setIndex zone i 0

/-- `inode_truncate`. -/
def inodeTruncate (inode : Nat) : Fs Unit := do
  let s ← get
  if ¬ ISFILE (s.mode inode) ∧ ¬ ISDIR (s.mode inode) then return ()
  else
    let dev := (s.inode_table inode).dev
    loop (releaseZone dev (s.zone inode) 0) 0 DIRECT_BLOCK
    releaseZone dev (s.zone inode) 1 DIRECT_BLOCK
    releaseZone dev (s.zone inode) 2 (DIRECT_BLOCK + 1)
    modify fun s => s.setSize inode 0
    modify fun s => s.setMtime inode s.time

end NeonixFileSystem
