import Neonix.Files

/-! # Reading and writing the data of files

    `inode_read` and `inode_write`, and above them `sys_read`, `sys_write` and
    `sys_lseek`.  An offset is an `off_t`, signed, and a size is unsigned: `int32` and
    `u32` stand where C converts between them.  A `memcpy` that would leave the block
    buffer it is given stops the call. -/

namespace NeonixFileData

open NeonixMachine NeonixByteBits NeonixVolume NeonixCalls NeonixFileSystem NeonixNamei NeonixFiles
  NeonixRuns

/-- A value stored to a `u32`. -/
def u32 (x : Int) : Nat := (x % 2 ^ 32).toNat

/-- A value stored to an `int32`. -/
def int32 (x : Int) : Int := (x + 2 ^ 31) % 2 ^ 32 - 2 ^ 31

/-- `start = offset % BLOCK_SIZE`. -/
def startOf (offset : Int) : Nat := u32 (offset.tmod BLOCK_SIZE)

/-- `chars = MIN(BLOCK_SIZE - start, left)`. -/
def charsOf (offset : Int) (left : Nat) : Nat := min (u32 (BLOCK_SIZE - startOf offset)) left

/-- `offset / BLOCK_SIZE` as an `idx_t`. -/
def blockIn (offset : Int) : Nat := u32 (offset.tdiv BLOCK_SIZE)

/-! ## `fs/inode.c` -/

/-- `memcpy(buf, ptr, chars)` out of a block buffer. -/
def copyOut (dev : Dev) (nr start chars : Nat) : Fs (List Byte) := do
  if start + chars ≤ BLOCK_SIZE then
    let s ← get
    return (List.range chars).map fun k => s.disk dev nr (start + k)
  else halt .outOfBounds

/-- A block with `chars` bytes of `buf` from `start` on. -/
def patch (data : Bytes) (start chars : Nat) (buf : Nat → Byte) : Bytes := fun k =>
  if start ≤ k ∧ k < start + chars then buf (k - start) else data k

/-- `memcpy(ptr, buf, chars)` into a block buffer. -/
def copyIn (dev : Dev) (nr start chars : Nat) (buf : Nat → Byte) : Fs Unit := do
  if start + chars ≤ BLOCK_SIZE then
    modify fun s => s.setBlock dev nr (patch (s.disk dev nr) start chars buf)
  else halt .outOfBounds

/-- The loop of `inode_read`.  A turn takes at least one byte, so it is over after
    `left` turns; `buf` is what has been stored so far. -/
def readLoop (inode : Nat) :
    (turns : Nat) → (offset : Int) → (left : Nat) → (buf : List Byte) → Fs (Int × List Byte)
  | 0, offset, _, buf => return (offset, buf)
  | turns + 1, offset, left, buf => do
      if left = 0 then return (offset, buf)
      else
        let nr ← bmap inode (blockIn offset) false
        assert (nr ≠ 0)
        let dev := ((← get).inode_table inode).dev
        let chars := charsOf offset left
        let bytes ← copyOut dev nr (startOf offset) chars
        readLoop inode turns (int32 (offset + chars)) (left - chars) (buf ++ bytes)

/-- `inode_read`: what it returns, and the bytes it stores to `buf`. -/
def inodeRead (inode len : Nat) (offset : Int) : Fs (Int × List Byte) := do
  let s ← get
  assert (ISFILE (s.mode inode) ∨ ISDIR (s.mode inode))
  if u32 offset ≥ s.size inode then return (EOF, [])
  else
    let left := min len (u32 (s.size inode - offset))
    let (last, bytes) ← readLoop inode left offset left []
    return (int32 (last - offset), bytes)

/-- The loop of `inode_write`. -/
def writeLoop (inode : Nat) :
    (turns : Nat) → (offset : Int) → (left : Nat) → (buf : Nat → Byte) → Fs Int
  | 0, offset, _, _ => return offset
  | turns + 1, offset, left, buf => do
      if left = 0 then return offset
      else
        let nr ← bmap inode (blockIn offset) true
        assert (nr ≠ 0)
        let dev := ((← get).inode_table inode).dev
        let chars := charsOf offset left
        let next := int32 (offset + chars)
        onlyIf (u32 next > (← get).size inode) (modify fun s => s.setSize inode (u32 next))
        copyIn dev nr (startOf offset) chars buf
        writeLoop inode turns next (left - chars) fun k => buf (k + chars)

/-- `inode_write`. -/
def inodeWrite (inode : Nat) (buf : Nat → Byte) (len : Nat) (offset : Int) : Fs Int := do
  assert (ISFILE ((← get).mode inode))
  let last ← writeLoop inode len offset len buf
  modify fun s => s.setMtime inode s.time
  return int32 (last - offset)

/-! ## `fs/file.c` -/

/-- `whence_t`, and the values that are none of it. -/
inductive Whence where
  | set
  | cur
  | end
  | other

/-- `task->files[fd]` and the assertion behind it; nothing has checked `fd`. -/
def openFile (fd : Int) : Fs Nat := do
  if fd ≥ TASK_FILE_NR then halt .outOfBounds
  else
    match ← getFd fd with
    | none => halt .assertion
    | some file => return file

/-- The inode has no blocks of its own: a pipe or a device. -/
def Special (s : Kernel) (inode : Nat) : Prop :=
  (s.inode_table inode).pipe = true ∨ ISCHR (s.mode inode) ∨ ISBLK (s.mode inode)

instance (s : Kernel) (inode : Nat) : Decidable (Special s inode) :=
  inferInstanceAs (Decidable (_ ∨ _))

section Calls

-- what `pipe_read` and `device_read` do, and `pipe_write` and `device_write`
variable (specialRead : Nat → Int → Fs (Int × List Byte))
  (specialWrite : Nat → (Nat → Byte) → Int → Fs Int)

/-- `sys_read`: what it returns, and the bytes it stores. -/
def sysRead (fd : Int) (count : Int) : Fs (Int × List Byte) := do
  let file ← openFile fd
  assert (count > 0)
  let f := (← get).file_table file
  if f.flags &&& O_ACCMODE = O_WRONLY then return (EOF, [])
  else
    let inode ← deref f.inode
    if Special (← get) inode then specialRead inode count
    else
      let (len, bytes) ← inodeRead inode count.toNat f.offset
      onlyIf (len ≠ EOF) (modify fun s =>
        s.setFile file fun f => { f with offset := int32 (f.offset + len) })
      return (len, bytes)

/-- `sys_write`. -/
def sysWrite (fd : Int) (buf : Nat → Byte) (count : Int) : Fs Int := do
  let file ← openFile fd
  assert (count > 0)
  let f := (← get).file_table file
  if f.flags &&& O_ACCMODE = O_RDONLY then return EOF
  else
    assert f.inode.isSome
    let inode ← deref f.inode
    if Special (← get) inode then specialWrite inode buf count
    else
      let len ← inodeWrite inode buf count.toNat f.offset
      onlyIf (len ≠ EOF) (modify fun s =>
        s.setFile file fun f => { f with offset := int32 (f.offset + len) })
      return len

/-- `sys_lseek`.  The sum asserted for `SEEK_END` is unsigned. -/
def sysLseek (fd : Int) (offset : Int) (whence : Whence) : Fs Int := do
  assert (fd < TASK_FILE_NR)
  let file ← openFile fd
  assert ((← get).file_table file).inode.isSome
  let s ← get
  let inode ← deref (s.file_table file).inode
  match whence with
  | .set =>
      assert (offset ≥ 0)
      modify fun s => s.setFile file fun f => { f with offset := offset }
  | .cur =>
      assert (int32 ((s.file_table file).offset + offset) ≥ 0)
      modify fun s => s.setFile file fun f => { f with offset := int32 (f.offset + offset) }
  | .end =>
      assert (u32 (s.size inode + offset) ≥ 0)
      modify fun s => s.setFile file fun f => { f with offset := int32 (s.size inode + offset) }
  | .other => halt .panic
  return ((← get).file_table file).offset

end Calls

end NeonixFileData
