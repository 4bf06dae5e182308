import Neonix.FileSystem

/-! # `fs/namei.c`: the path walk and the calls on directories

    `next` is an in-out parameter of `match_name` and `find_entry`: it is passed
    and returned.  `find_entry` also returns what it leaves in `*dir`. -/

namespace NeonixNamei

open NeonixMachine NeonixByteBits NeonixWords NeonixVolume NeonixCalls NeonixFileSystem

def KERNEL_USER : Nat := 0

def P_EXEC : BitVec 16 := 1
def P_WRITE : BitVec 16 := 2

/-- `permission`. -/
def permission (inode : Nat) (mask : BitVec 16) : Fs Bool := do
  let s ← get
  if s.nlinks inode = 0 then return false
  else
    let task ← runningTask
    if task.uid = KERNEL_USER then return true
    else
      let mode := s.mode inode
      let mode :=
        if task.uid = (s.uid inode).toNat then mode >>> 6
        else if task.gid = (s.gid inode).toNat then mode >>> 3
        else mode
      return decide (mode &&& mask &&& 0b111 = mask)

def SEPARATOR1 : Byte := 0x2F
def SEPARATOR2 : Byte := 0x5C

/-- `IS_SEPARATOR`. -/
def isSeparator (c : Byte) : Prop := c = SEPARATOR1 ∨ c = SEPARATOR2

instance (c : Byte) : Decidable (isSeparator c) := inferInstanceAs (Decidable (_ ∨ _))

/-- `match_name`, with `room` bytes from the entry's name to the end of the
    buffer; the result is what it leaves in `*next`. -/
def matchName : (name : Str) → (entry_name : Bytes) → (room : Nat) → Res (Option Str)
  | _, _, 0 => .error .outOfBounds
  | [], rhs, _ + 1 => .ok (if rhs 0 ≠ 0 then none else some [])
  | lhs :: rest, rhs, room + 1 =>
      if lhs = rhs 0 ∧ rhs 0 ≠ 0 then matchName rest (fun k => rhs (k + 1)) room
      else if rhs 0 ≠ 0 then .ok none
      else if ¬ isSeparator lhs then .ok none
      else .ok (some rest)

/-- `".."`. -/
def DOTDOT : Bytes := fun k => if k < 2 then 0x2E else 0

/-- The entry of a turn of a loop over a directory: the next one of the buffer, or
    the first one of the next block. -/
def entryAt (dir i : Nat) (create : Bool) (entry : Option Place) : Fs Place := do
  match entry.filter fun entry => entry.off < BLOCK_SIZE with
  | some entry => return entry
  | none =>
      let block ← bmap dir (i / BLOCK_DENTRIES) create
      assert (block ≠ 0)
      return { dev := ((← get).inode_table dir).dev, block := block, off := 0 }

/-- `entry->name` against `name`. -/
def matchEntry (name : Str) (entry : Place) : Fs (Option Str) := do
  ofRes (matchName name ((← get).bytes (entry.add 2)) (BLOCK_SIZE - (entry.off + 2)))

/-- The loop of `find_entry`, with `left` turns to go from entry `i` on. -/
def findLoop (dir : Nat) (name : Str) :
    (left i : Nat) → (entry : Option Place) → (next : Str) → Fs (Option Place × Str)
  | 0, _, _, next => return (none, next)
  | left + 1, i, entry, next => do
      let entry ← entryAt dir i false entry
      let m ← matchEntry name entry
      let next := m.getD next
      if m.isSome ∧ (← get).entryNr entry ≠ 0 then return (some entry, next)
      else findLoop dir name left (i + 1) (some (entry.add 16)) next

/-- From the root directory of a device to where it is mounted. -/
def crossUp (dir : Nat) : Fs Nat := do
  let k ← deref (getSuper (← get) ((← get).inode_table dir).dev)
  let imount ← deref ((← get).super_table k).imount
  modify fun s => s.hold imount
  iput (some dir)
  return imount

/-- The directory `find_entry` looks in; `up` says that the name is `..`. -/
def startDir (dir : Nat) (up : Bool) : Fs Nat := do
  if up = true ∧ ((← get).inode_table dir).nr = 1 then crossUp dir else return dir

/-- `find_entry`: the entry, `*dir` and `*next`. -/
def findEntry (dir : Nat) (name next : Str) : Fs (Option Place × Nat × Str) := do
  assert (ISDIR ((← get).mode dir))
  let up ← ofRes (matchName name DOTDOT 3)
  let next := up.getD next
  let dir ← startDir dir up.isSome
  let (entry, next) ← findLoop dir name ((← get).size dir / 16) 0 none next
  return (entry, dir, next)

/-- `strncpy(dest, src, count)`. -/
def strncpy (dest : Bytes) (src : Str) (count : Nat) : Bytes := fun k =>
  if k < count ∧ k < src.length then if k + 1 = count then 0 else src.getD k 0
  else if k < count ∧ k = src.length then 0
  else dest k

/-- `strcpy(dest, src)`. -/
def strcpy (dest : Bytes) (src : Str) : Bytes := fun k =>
  if k < src.length then src.getD k 0 else if k = src.length then 0 else dest k

/-- The loop of `add_entry`, for at most `fuel` turns. -/
def addLoop (dir : Nat) (name : Str) : (fuel i : Nat) → (entry : Option Place) → Fs Place
  | 0, _, _ => stop .outOfFuel
  | fuel + 1, i, entry => do
      let entry ← entryAt dir i true entry
      onlyIf (i * 16 ≥ (← get).size dir) do
        modify fun s => s.setEntryNr entry 0
        modify fun s => s.setSize dir ((i + 1) * 16)
      if (← get).entryNr entry ≠ 0 then addLoop dir name fuel (i + 1) (some (entry.add 16))
      else
        modify fun s => s.setBytes (entry.add 2) fun old => strncpy old name NAME_LEN
        modify fun s => s.setMtime dir s.time
        return entry

/-- `add_entry`; `dir` is its own variable. -/
def addEntry (dir : Nat) (name : Str) : Fs Place := do
  let (entry, dir, _) ← findEntry dir name []
  match entry with
  | some entry => return entry
  | none =>
      assert (∀ c ∈ name.take NAME_LEN, ¬ isSeparator c)
      addLoop dir name (← fuel) 0 none

/-- `strrsep`: the string from its last separator on. -/
def strrsep : Str → Option Str
  | [] => none
  | c :: rest =>
      match strrsep rest with
      | some last => some last
      | none => if isSeparator c then some (c :: rest) else none

/-- The loop of `named`, for at most `fuel` turns. -/
def namedLoop (right : Str) : (fuel inode : Nat) → (left next : Str) → Fs (Option Nat × Str)
  | 0, _, _, _ => stop .outOfFuel
  | fuel + 1, inode, left, next => do
      let (entry, inode, next) ← findEntry inode left next
      match entry with
      | none =>
          iput (some inode)
          return (none, next)
      | some entry =>
          let dev := ((← get).inode_table inode).dev
          iput (some inode)
          let inode ← iget dev ((← get).entryNr entry)
          if ¬ ISDIR ((← get).mode inode) then
            iput (some inode)
            return (none, next)
          else if ¬ (← permission inode P_EXEC) then
            iput (some inode)
            return (none, next)
          else if right = next then return (some inode, next)
          else namedLoop right fuel inode next next

/-- `named` from the first directory on. -/
def namedFrom (inode : Nat) (left : Str) : Fs (Option Nat × Str) := do
  modify fun s => s.hold inode
  if left = [] then return (some inode, left)
  else
    match strrsep left with
    | none => return (some inode, left)
    | some right => namedLoop right.tail (← fuel) inode left left

/-- `named`: the directory and `*next`. -/
def named (pathname : Str) : Fs (Option Nat × Str) := do
  let task ← runningTask
  match pathname with
  | [] => return (none, [])
  | c :: rest =>
      if isSeparator c then namedFrom task.iroot rest else namedFrom task.ipwd (c :: rest)

/-- `namei`. -/
def namei (pathname : Str) : Fs (Option Nat) := do
  match ← named pathname with
  | (none, _) => return none
  | (some dir, []) => return some dir
  | (some dir, next) =>
      let (entry, dir, _) ← findEntry dir next next
      match entry with
      | none =>
          iput (some dir)
          return none
      | some entry =>
          let s ← get
          let inode ← iget (s.inode_table dir).dev (s.entryNr entry)
          iput (some dir)
          return some inode

/-- `rollback`: the references of a call that failed. -/
def rollback : List Nat → Fs Int
  | [] => return EOF
  | i :: rest => do
      iput (some i)
      rollback rest

/-- `sys_mkdir`. -/
def sysMkdir (pathname : Str) (mode : BitVec 32) : Fs Int := do
  match ← named pathname with
  | (none, _) => rollback []
  | (some dir, []) => rollback [dir]
  | (some dir, name) =>
      if ¬ (← permission dir P_WRITE) then rollback [dir]
      else
        let (entry, dir, _) ← findEntry dir name name
        if entry.isSome then rollback [dir]
        else
          let entry ← addEntry dir name
          let nr ← ialloc ((← get).inode_table dir).dev
          modify fun s => s.setEntryNr entry nr
          let task ← runningTask
          let s ← get
          let inode ← newInode (s.inode_table dir).dev (s.entryNr entry)
          modify fun s => s.setMode inode
            ((mode &&& 0o777 &&& ~~~ task.umask.setWidth 32).setWidth 16 ||| IFDIR)
          modify fun s => s.setSize inode 32
          modify fun s => s.setNlinks inode 2
          modify fun s => s.setNlinks dir (s.nlinks dir + 1)
          let block ← bmap inode 0 true
          let entry := { dev := ((← get).inode_table inode).dev, block := block, off := 0 }
          modify fun s => s.setBytes (entry.add 2) fun old => strcpy old [0x2E]
          modify fun s => s.setEntryNr entry (s.inode_table inode).nr
          let entry := entry.add 16
          modify fun s => s.setBytes (entry.add 2) fun old => strcpy old [0x2E, 0x2E]
          modify fun s => s.setEntryNr entry (s.inode_table dir).nr
          iput (some inode)
          iput (some dir)
          return 0

/-- The loop of `is_empty`, with `left` turns to go from entry `i` on. -/
def countLoop (inode : Nat) : (left i : Nat) → (entry : Option Place) → (count : Nat) → Fs Nat
  | 0, _, _, count => return count
  | left + 1, i, entry, count => do
      let entry ← entryAt inode i false entry
      let count := if (← get).entryNr entry ≠ 0 then count + 1 else count
      countLoop inode left (i + 1) (some (entry.add 16)) count

/-- `is_empty`. -/
def isEmpty (inode : Nat) : Fs Bool := do
  assert (ISDIR ((← get).mode inode))
  let s ← get
  let entries := s.size inode / 16
  if entries < 2 ∨ s.index (s.zone inode) 0 = 0 then return false
  else
    let count ← countLoop inode entries 0 none 0
    return decide (count = 2)

/-- `sys_rmdir`. -/
def sysRmdir (pathname : Str) : Fs Int := do
  match ← named pathname with
  | (none, _) => rollback []
  | (some dir, []) => rollback [dir]
  | (some dir, name) =>
      if ¬ (← permission dir P_WRITE) then rollback [dir]
      else
        let (entry, dir, _) ← findEntry dir name name
        match entry with
        | none => rollback [dir]
        | some entry =>
            let s ← get
            let inode ← iget (s.inode_table dir).dev (s.entryNr entry)
            let s ← get
            if inode = dir then rollback [inode, dir]
            else if ¬ ISDIR (s.mode inode) then rollback [inode, dir]
            else
              let task ← runningTask
              if s.mode dir &&& ISVTX ≠ 0 ∧ task.uid ≠ (s.uid inode).toNat then
                rollback [inode, dir]
              else if (s.inode_table dir).dev ≠ (s.inode_table inode).dev ∨
                  (s.inode_table inode).count > 1 then
                rollback [inode, dir]
              else if ¬ (← isEmpty inode) then rollback [inode, dir]
              else
                assert ((← get).nlinks inode = 2)
                inodeTruncate inode
                let s ← get
                ifree (s.inode_table inode).dev (s.inode_table inode).nr
                modify fun s => s.setNlinks inode 0
                modify fun s => s.setInode inode fun inode => { inode with nr := 0 }
                modify fun s => s.setNlinks dir (s.nlinks dir - 1)
                modify fun s => s.setMtime dir s.time
                assert ((← get).nlinks dir ≠ 0)
                modify fun s => s.setEntryNr entry 0
                iput (some inode)
                iput (some dir)
                return 0

/-- `sys_link`. -/
def sysLink (oldname newname : Str) : Fs Int := do
  match ← namei oldname with
  | none => rollback []
  | some inode =>
      if ISDIR ((← get).mode inode) then rollback [inode]
      else
        match ← named newname with
        | (none, _) => rollback [inode]
        | (some dir, []) => rollback [inode, dir]
        | (some dir, name) =>
            let s ← get
            if (s.inode_table dir).dev ≠ (s.inode_table inode).dev then rollback [inode, dir]
            else if ¬ (← permission dir P_WRITE) then rollback [inode, dir]
            else
              let (entry, dir, _) ← findEntry dir name name
              if entry.isSome then rollback [inode, dir]
              else
                let entry ← addEntry dir name
                modify fun s => s.setEntryNr entry (s.inode_table inode).nr
                modify fun s => s.setNlinks inode (s.nlinks inode + 1)
                iput (some inode)
                iput (some dir)
                return 0

/-- `sys_unlink`. -/
def sysUnlink (filename : Str) : Fs Int := do
  match ← named filename with
  | (none, _) => rollback []
  | (some dir, []) => rollback [dir]
  | (some dir, name) =>
      if ¬ (← permission dir P_WRITE) then rollback [dir]
      else
        let (entry, dir, _) ← findEntry dir name name
        match entry with
        | none => rollback [dir]
        | some entry =>
            let s ← get
            let inode ← iget (s.inode_table dir).dev (s.entryNr entry)
            let s ← get
            if ISDIR (s.mode inode) then rollback [inode, dir]
            else
              let task ← runningTask
              if s.mode inode &&& ISVTX ≠ 0 ∧ task.uid ≠ (s.uid inode).toNat then
                rollback [inode, dir]
              else
                modify fun s => s.setEntryNr entry 0
                modify fun s => s.setNlinks inode (s.nlinks inode - 1)
                onlyIf ((← get).nlinks inode = 0) do
                  inodeTruncate inode
                  let s ← get
                  ifree (s.inode_table inode).dev (s.inode_table inode).nr
                iput (some inode)
                iput (some dir)
                return 0

def O_RDONLY : BitVec 32 := 0
def O_WRONLY : BitVec 32 := 1
def O_RDWR : BitVec 32 := 2
def O_ACCMODE : BitVec 32 := 3
def O_CREAT : BitVec 32 := 0o100
def O_TRUNC : BitVec 32 := 0o1000
def O_APPEND : BitVec 32 := 0o2000

/-- `ACC_MODE`: a byte of a string, widened with its sign. -/
def ACC_MODE (x : BitVec 32) : BitVec 16 :=
  if x &&& O_ACCMODE = O_RDONLY then 0o4
  else if x &&& O_ACCMODE = O_WRONLY then 0o2
  else if x &&& O_ACCMODE = O_RDWR then 0o6
  else 0xFFFF

/-- `inode_open` from `makeup` on. -/
def makeup (dir inode : Nat) (flag : BitVec 32) : Fs (Option Nat) := do
  if ¬ (← permission inode (ACC_MODE (flag &&& O_ACCMODE))) then
    iput (some dir)
    iput (some inode)
    return none
  else if ISDIR ((← get).mode inode) ∧ flag &&& O_ACCMODE ≠ O_RDONLY then
    iput (some dir)
    iput (some inode)
    return none
  else
    onlyIf (flag &&& O_TRUNC ≠ 0) (inodeTruncate inode)
    iput (some dir)
    return some inode

/-- `inode_open`. -/
def inodeOpen (pathname : Str) (flag mode : BitVec 32) : Fs (Option Nat) := do
  match ← named pathname with
  | (none, _) => return none
  | (some dir, []) => return some dir
  | (some dir, name) =>
      let flag :=
        if flag &&& O_TRUNC ≠ 0 ∧ flag &&& O_ACCMODE = O_RDONLY then flag ||| O_RDWR else flag
      let (entry, dir, _) ← findEntry dir name name
      match entry with
      | some entry =>
          let s ← get
          let inode ← iget (s.inode_table dir).dev (s.entryNr entry)
          makeup dir inode flag
      | none =>
          if flag &&& O_CREAT = 0 then
            iput (some dir)
            return none
          else if ¬ (← permission dir P_WRITE) then
            iput (some dir)
            return none
          else
            let entry ← addEntry dir name
            let nr ← ialloc ((← get).inode_table dir).dev
            modify fun s => s.setEntryNr entry nr
            let s ← get
            let inode ← newInode (s.inode_table dir).dev (s.entryNr entry)
            let task ← runningTask
            modify fun s => s.setMode inode
              ((mode &&& (0o777 &&& ~~~ task.umask.setWidth 32)).setWidth 16 ||| IFREG)
            makeup dir inode flag

/-- `sys_chdir`, less the string `pwd`. -/
def sysChdir (pathname : Str) : Fs Int := do
  match ← namei pathname with
  | none => rollback []
  | some inode =>
      let task ← runningTask
      if ¬ ISDIR ((← get).mode inode) ∨ inode = task.ipwd then rollback [inode]
      else
        iput (some task.ipwd)
        modify fun s => s.setTask fun task => { task with ipwd := inode }
        return 0

/-- `sys_chroot`. -/
def sysChroot (pathname : Str) : Fs Int := do
  match ← namei pathname with
  | none => rollback []
  | some inode =>
      let task ← runningTask
      if ¬ ISDIR ((← get).mode inode) ∨ inode = task.iroot then rollback [inode]
      else
        iput (some task.iroot)
        modify fun s => s.setTask fun task => { task with iroot := inode }
        return 0

/-- `sys_mknod`. -/
def sysMknod (filename : Str) (mode dev : BitVec 32) : Fs Int := do
  match ← named filename with
  | (none, _) => rollback []
  | (some dir, []) => rollback [dir]
  | (some dir, name) =>
      if ¬ (← permission dir P_WRITE) then rollback [dir]
      else
        let (entry, dir, _) ← findEntry dir name name
        if entry.isSome then rollback [dir]
        else
          let entry ← addEntry dir name
          let nr ← ialloc ((← get).inode_table dir).dev
          modify fun s => s.setEntryNr entry nr
          let s ← get
          let inode ← newInode (s.inode_table dir).dev (s.entryNr entry)
          modify fun s => s.setMode inode (mode.setWidth 16)
          onlyIf (ISBLK (mode.setWidth 16) ∨ ISCHR (mode.setWidth 16)) do
            modify fun s => s.setIndex (s.zone inode) 0 (dev.setWidth 16)
          iput (some inode)
          iput (some dir)
          return 0

end NeonixNamei
