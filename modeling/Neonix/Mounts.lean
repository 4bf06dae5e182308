import Neonix.Umount

/-! # `fs/super.c`: mounting and formatting

    `sys_mount` takes its super block with `read_super`, which looks for the device
    first; `devmkfs` takes one with `get_free_super`, which does not.  The buffers of
    a super block are the blocks behind block 1 of its device, as in `Volume`. -/

namespace NeonixMounts

open NeonixMachine NeonixByteBits NeonixWords NeonixVolume NeonixCalls NeonixFileSystem
  NeonixNamei NeonixUmount

def MINIX1_MAGIC : BitVec 16 := 0x137F

/-- `div_round_up`, in the arithmetic of `u32`. -/
def divRoundUp (num size : Nat) : Nat := (num + size - 1) % 2 ^ 32 / size

/-- `get_free_super`. -/
def getFreeSuper : Fs Nat := do
  match getSuper (← get) EOF with
  | none => halt .panic
  | some k => return k

/-- A super block descriptor with the counts of its fields; the two map counts are
    the numbers of buffers a super block has room for. -/
def makeDesc (inodes zones imap_blocks zmap_blocks firstdatazone : BitVec 16) : Option SuperDesc :=
  if h : imap_blocks.toNat ≤ IMAP_NR ∧ zmap_blocks.toNat ≤ ZMAP_NR then
    some
      { inodes := inodes.toNat
        zones := zones.toNat
        imap_blocks := imap_blocks.toNat
        zmap_blocks := zmap_blocks.toNat
        firstdatazone := max firstdatazone.toNat
          (2 + imap_blocks.toNat + zmap_blocks.toNat + (inodes.toNat + 31) / BLOCK_INODES)
        inodes_le := Nat.lt_succ_iff.mp inodes.isLt
        zones_le := Nat.lt_succ_iff.mp zones.isLt
        imap_le := h.1
        zmap_le := h.2
        layout := Nat.le_max_right _ _ }
  else none

/-- The descriptor in block 1.  `firstdatazone`, which only the allocators read, is
    behind the inodes on every formatted device. -/
def readDesc (b : Bytes) : Option SuperDesc :=
  makeDesc (u16At b 0) (u16At b 2) (u16At b 4) (u16At b 6) (u16At b 8)

/-- `read_super`. -/
def readSuper (dev : Dev) : Fs Nat := do
  match getSuper (← get) dev with
  | some k =>
      modify fun s => s.setSuper k fun sb => { sb with count := sb.count + 1 }
      return k
  | none =>
      let k ← getFreeSuper
      let s ← get
      assert (u16At (s.disk dev 1) 16 = MINIX1_MAGIC)
      match readDesc (s.disk dev 1) with
      | none => halt .assertion
      | some desc =>
          modify fun s => s.setSuper k fun sb => { sb with desc := desc, dev := dev, count := 1 }
          return k

/-- `rollback` of `sys_mount`. -/
def mountFails (sb devinode dirinode : Option Nat) : Fs Int := do
  putSuper sb
  iput devinode
  iput dirinode
  return EOF

/-- `sys_mount` behind the tests of the directory. -/
def mountOn (dev : Dev) (devinode dirinode : Nat) : Fs Int := do
  let k ← readSuper dev
  if ((← get).super_table k).imount.isSome then mountFails (some k) (some devinode) (some dirinode)
  else
    let iroot ← iget dev 1
    modify fun s => s.setSuper k fun sb => { sb with iroot := some iroot }
    modify fun s => s.setSuper k fun sb => { sb with imount := some dirinode }
    modify fun s => s.setInode dirinode fun inode => { inode with mount := dev }
    iput (some devinode)
    return 0

/-- `sys_mount` behind `namei(devname)`; a device number is the first zone of its
    file. -/
def mountDevice (devinode : Nat) (dirname : Str) : Fs Int := do
  let s ← get
  if ¬ ISBLK (s.mode devinode) then mountFails none (some devinode) none
  else
    let dev : Dev := (s.index (s.zone devinode) 0).toNat
    match ← namei dirname with
    | none => mountFails none (some devinode) none
    | some dirinode =>
        let s ← get
        if ¬ ISDIR (s.mode dirinode) then mountFails none (some devinode) (some dirinode)
        else if (s.inode_table dirinode).count ≠ 1 ∨ (s.inode_table dirinode).mount ≠ 0 then
          mountFails none (some devinode) (some dirinode)
        else mountOn dev devinode dirinode

/-- `sys_mount`. -/
def sysMount (devname dirname : Str) : Fs Int := do
  match ← namei devname with
  | none => mountFails none none none
  | some devinode => mountDevice devinode dirname

/-! ## Formatting -/

/-- The sizes `devmkfs` computes for a device of `total` blocks, each a `u16` of the
    descriptor. -/
structure Sizes where
  inodes : BitVec 16
  zones : BitVec 16
  imap_blocks : BitVec 16
  zmap_blocks : BitVec 16
  firstdatazone : BitVec 16
  /-- `int zcount` -/
  zcount : Int

def sizes (total icount : Nat) : Sizes :=
  let inode_blocks := divRoundUp (icount * 32 % 2 ^ 32) BLOCK_SIZE
  let imap_blocks := BitVec.ofNat 16 (divRoundUp icount BLOCK_BITS)
  let zcount : Int := total - imap_blocks.toNat - inode_blocks - 2
  let zmap_blocks := BitVec.ofNat 16 (divRoundUp (zcount % 2 ^ 32).toNat BLOCK_BITS)
  { inodes := BitVec.ofNat 16 icount
    zones := BitVec.ofNat 16 total
    imap_blocks := imap_blocks
    zmap_blocks := zmap_blocks
    firstdatazone := BitVec.ofNat 16 (2 + imap_blocks.toNat + zmap_blocks.toNat + inode_blocks)
    zcount := zcount }

/-- The stores to the super block descriptor; `log_zone_size`, `max_size` and `magic`
    are constants. -/
def putDesc (b : Bytes) (z : Sizes) : Bytes :=
  let b := putU16 b 0 z.inodes
  let b := putU16 b 2 z.zones
  let b := putU16 b 4 z.imap_blocks
  let b := putU16 b 6 z.zmap_blocks
  let b := putU16 b 8 z.firstdatazone
  let b := putU16 b 10 0
  let b := putU32 b 12 (BitVec.ofNat 32 (BLOCK_SIZE * TOTAL_BLOCK))
  putU16 b 16 MINIX1_MAGIC

/-- The loop over the bits of the byte where the tail of a bitmap begins. -/
def tailByte : (remain : Nat) → (bits data : Byte) → Byte
  | 0, _, data => data
  | remain + 1, bits, data => tailByte remain (bits >>> 1) (data ||| bits)

/-- The tail of the last block of a bitmap of `count` bits. -/
def fillTail (b : Bytes) (count : Nat) : Bytes :=
  let offset := count % BLOCK_BITS
  let start := offset / 8
  fun k => if start < k ∧ k < BLOCK_SIZE then 0xFF
    else if k = start then tailByte (8 - offset % 8) 0x80 0 else b k

/-- A block all zero. -/
def zeroBlock (dev : Dev) (block : Nat) : Fs Unit :=
  modify fun s => s.setBlock dev block fun _ => 0

/-- The body of the loop over the last blocks of the two bitmaps; there is a last
    block, the allocators have looked at the first. -/
def fillLast (dev : Dev) (first blocks : Nat) (count : Nat) : Fs Unit := do
  if blocks = 0 then halt .outOfBounds
  else
    let block := first + (blocks - 1)
    modify fun s => s.setBlock dev block (fillTail (s.disk dev block) count)

/-- The descriptor of a device; its super blocks all point into the buffer of block 1. -/
def redescribe (s : Kernel) (dev : Dev) (desc : SuperDesc) : Kernel :=
  let table := fun k =>
    let sb := s.super_table k
    if sb.dev = dev then { sb with desc := desc } else sb
  { s with super_table := table }

/-- `devmkfs` up to the root directory: the descriptor and the bitmaps. -/
def formatMaps (dev : Dev) (z : Sizes) (icount : Nat) : Fs Unit := do
  modify fun s => s.setBlock dev 1 (putDesc (s.disk dev 1) z)
  match makeDesc z.inodes z.zones z.imap_blocks z.zmap_blocks z.firstdatazone with
  | none => halt .outOfBounds
  | some desc =>
      modify fun s => redescribe s dev desc
      loop (zeroBlock dev) 2 desc.imap_blocks
      loop (zeroBlock dev) (2 + desc.imap_blocks) desc.zmap_blocks
      let _ ← NeonixFileSystem.balloc dev
      let _ ← NeonixFileSystem.ialloc dev
      let _ ← NeonixFileSystem.ialloc dev
      fillLast dev 2 desc.imap_blocks (icount + 1)
      fillLast dev (2 + desc.imap_blocks) desc.zmap_blocks z.zcount.toNat

/-- `devmkfs` from the root directory on, for the super block `k`. -/
def formatRoot (dev : Dev) (k : Nat) : Fs Unit := do
  let task ← runningTask
  let iroot ← newInode dev 1
  modify fun s => s.setSuper k fun sb => { sb with iroot := some iroot }
  modify fun s => s.setMode iroot (0o777 &&& ~~~ task.umask ||| IFDIR)
  modify fun s => s.setSize iroot 32
  modify fun s => s.setNlinks iroot 2
  let block ← bmap iroot 0 true
  zeroBlock dev block
  let entry : Place := { dev := dev, block := block, off := 0 }
  modify fun s => s.setBytes (entry.add 2) fun old => strcpy old [0x2E]
  modify fun s => s.setEntryNr entry (s.inode_table iroot).nr
  let entry := entry.add 16
  modify fun s => s.setBytes (entry.add 2) fun old => strcpy old [0x2E, 0x2E]
  modify fun s => s.setEntryNr entry (s.inode_table iroot).nr

/-- `devmkfs`, for a device of `total` blocks. -/
def devmkfs (total : Nat) (dev : Dev) (icount : Nat) : Fs Int := do
  assert (total ≠ 0)
  assert (icount < total)
  let icount := if icount = 0 then total / 3 else icount
  let k ← getFreeSuper
  modify fun s => s.setSuper k fun sb => { sb with dev := dev, count := 1 }
  formatMaps dev (sizes total icount) icount
  formatRoot dev k
  putSuper (some k)
  return 0

/-- `sys_mkfs` behind `namei`. -/
def mkfsInode (blocks : Dev → Nat) (inode icount : Nat) : Fs Int := do
  let s ← get
  if ¬ ISBLK (s.mode inode) then
    iput (some inode)
    return EOF
  else
    let dev : Dev := (s.index (s.zone inode) 0).toNat
    assert (dev ≠ 0)
    let ret ← devmkfs (blocks dev) dev icount
    iput (some inode)
    return ret

/-- `sys_mkfs`; `blocks` is what `device_ioctl` says of a device, in blocks. -/
def sysMkfs (blocks : Dev → Nat) (devname : Str) (icount : Nat) : Fs Int := do
  match ← namei devname with
  | none => return EOF
  | some inode => mkfsInode blocks inode icount

end NeonixMounts
