import Neonix.Bitmap

/-! # A mounted volume and its two bitmaps

    A volume is a mounted device as the buffer cache shows it: `disk b` is what
    `bread(dev, b)` returns, so `bwrite` and `brelse`, which move data between
    the cache and the device, do not change it.  The super block's bitmap
    buffers are the cached blocks behind the super block: `imaps[i]` is block
    `2 + i`, `zmaps[i]` is block `2 + imap_blocks + i`, and the pointers past
    the counts in the descriptor are null (`read_super`).

    This module is the first half of `fs/bmap.c`: `balloc`, `bfree`, `ialloc`
    and `ifree`. -/

namespace NeonixVolume

open NeonixMachine NeonixByteBits NeonixBitmap

def BLOCK_SIZE : Nat := 1024
def BLOCK_BITS : Nat := BLOCK_SIZE * 8
def IMAP_NR : Nat := 8
def ZMAP_NR : Nat := 8
/-- `BLOCK_SIZE / sizeof(inode_desc_t)`. -/
def BLOCK_INODES : Nat := 32

/-- `super_desc_t`, the fields the allocators read.  `read_super` asserts the
    bounds on the two map counts; the other fields are `u16`.  The layout is
    that of every formatted volume: boot block, super block, inode bitmap, zone
    bitmap, inode blocks, data zones. -/
structure SuperDesc where
  inodes : Nat
  zones : Nat
  imap_blocks : Nat
  zmap_blocks : Nat
  firstdatazone : Nat
  inodes_le : inodes ≤ 65535
  zones_le : zones ≤ 65535
  imap_le : imap_blocks ≤ IMAP_NR
  zmap_le : zmap_blocks ≤ ZMAP_NR
  layout : 2 + imap_blocks + zmap_blocks + (inodes + 31) / BLOCK_INODES ≤ firstdatazone

structure Volume where
  desc : SuperDesc
  disk : Nat → Bytes

/-- Replace the contents of one cached block. -/
def Volume.setBlock (v : Volume) (b : Nat) (data : Bytes) : Volume :=
  { v with disk := Function.update v.disk b data }

@[simp] theorem Volume.setBlock_desc (v : Volume) (b : Nat) (data : Bytes) :
    (v.setBlock b data).desc = v.desc := rfl

@[simp] theorem Volume.setBlock_disk (v : Volume) (b : Nat) (data : Bytes) :
    (v.setBlock b data).disk = Function.update v.disk b data := rfl

/-! ## `fs/bmap.c`: one bitmap spread over several blocks

    `balloc` and `ialloc` are one loop over different buffers, lengths, offsets
    and limits, and so are `bfree` and `ifree`. -/

/-- What tells the zone bitmap from the inode bitmap: the bound of the loops,
    how many buffer pointers are not null, the block behind each, the length and
    offset handed to `bitmap_make`, and the asserted upper limit. -/
structure BlockMap where
  nr : Nat
  blocks : Nat
  block : Nat → Nat
  length : Nat
  offset : Nat → Nat
  limit : Nat

/-- The buffer pointer of index `i` with the `assert(buf)` behind it. -/
def mapBuf (v : Volume) (m : BlockMap) (i : Nat) : Res Bytes :=
  if i < m.blocks then .ok (v.disk (m.block i)) else .error .assertion

/-- The loop of `balloc` and `ialloc`; `none` is `EOF`. -/
def mapAlloc (v : Volume) (m : BlockMap) : Nat → Nat → Res (Option Nat × Volume)
  | 0, _ => .ok (none, v)
  | left + 1, i => do
      let data ← mapBuf v m i
      let map := bitmapMake data BLOCK_SIZE m.length (m.offset i)
      match ← bitmapScan map 1 with
      | (some bit, map) =>
          check (bit < m.limit)
          return (some bit, v.setBlock (m.block i) map.bits)
      | (none, _) => mapAlloc v m left (i + 1)

/-- The body of the loop of `bfree` and `ifree` for the buffer it settles on. -/
def mapClear (v : Volume) (m : BlockMap) (idx i : Nat) : Res Volume := do
  let data ← mapBuf v m i
  let map := bitmapMake data BLOCK_SIZE m.length (m.offset i)
  let used ← bitmapTest map idx
  check (used = true)
  let map ← bitmapSet map idx false
  return v.setBlock (m.block i) map.bits

/-- The loop of `bfree` and `ifree`: it settles on the first `i` with
    `idx ≤ BLOCK_BITS * (i + 1)`.  Running off the end leaves `buf`
    uninitialised for the `bwrite` behind the loop. -/
def mapFree (v : Volume) (m : BlockMap) (idx : Nat) : Nat → Nat → Res Volume
  | 0, _ => .error .outOfBounds
  | left + 1, i =>
      if idx > BLOCK_BITS * (i + 1) then mapFree v m idx left (i + 1)
      else mapClear v m idx i

/-- `sb->zmaps`: block `2 + imap_blocks + i`, the whole buffer as a bitmap. -/
def zmaps (sb : SuperDesc) : BlockMap where
  nr := ZMAP_NR
  blocks := sb.zmap_blocks
  block := fun i => 2 + sb.imap_blocks + i
  length := BLOCK_SIZE
  offset := fun i => i * BLOCK_BITS + sb.firstdatazone - 1
  limit := sb.zones

/-- `sb->imaps`: block `2 + i`.  The length is `BLOCK_BITS`, eight times the
    bytes of the buffer. -/
def imaps (sb : SuperDesc) : BlockMap where
  nr := IMAP_NR
  blocks := sb.imap_blocks
  block := fun i => 2 + i
  length := BLOCK_BITS
  offset := fun i => i * BLOCK_BITS
  limit := sb.inodes

/-- `balloc`; `none` is its `EOF`. -/
def balloc (v : Volume) : Res (Option Nat × Volume) :=
  mapAlloc v (zmaps v.desc) (zmaps v.desc).nr 0

/-- `bfree`. -/
def bfree (v : Volume) (idx : Nat) : Res Volume := do
  check (idx < v.desc.zones)
  mapFree v (zmaps v.desc) idx (zmaps v.desc).nr 0

/-- `ialloc`; `none` is its `EOF`. -/
def ialloc (v : Volume) : Res (Option Nat × Volume) :=
  mapAlloc v (imaps v.desc) (imaps v.desc).nr 0

/-- `ifree`. -/
def ifree (v : Volume) (idx : Nat) : Res Volume := do
  check (idx < v.desc.inodes)
  mapFree v (imaps v.desc) idx (imaps v.desc).nr 0

/-! ## The bitmap as one sequence of bits -/

/-- Bit `j` of the bitmap, over all its blocks. -/
def mapBit (v : Volume) (m : BlockMap) (j : Nat) : Bool :=
  bitAt (v.disk (m.block (j / BLOCK_BITS))) (j % BLOCK_BITS)

/-- The volume with bit `j` of the bitmap forced to `x`. -/
def mapPut (v : Volume) (m : BlockMap) (j : Nat) (x : Bool) : Volume :=
  v.setBlock (m.block (j / BLOCK_BITS))
    (putBit (v.disk (m.block (j / BLOCK_BITS))) (j % BLOCK_BITS) x)

/-- Bit `k` of block `b` is the only bit of the volume that differs, and it is
    now `x`. -/
def ChangesExactly (v v' : Volume) (b k : Nat) (x : Bool) : Prop :=
  v'.desc = v.desc ∧ bitAt (v.disk b) k = !x ∧
    ∀ b' k', bitAt (v'.disk b') k' = if b' = b ∧ k' = k then x else bitAt (v.disk b') k'

@[simp] theorem mapPut_desc (v : Volume) (m : BlockMap) (j : Nat) (x : Bool) :
    (mapPut v m j x).desc = v.desc := rfl

@[simp] theorem mapBit_mapPut_self (v : Volume) (m : BlockMap) (j : Nat) (x : Bool) :
    mapBit (mapPut v m j x) m j = x := by
  rw [mapBit, mapPut, Volume.setBlock_disk, Function.update_self, bitAt_putBit_self]

theorem mapPut_changesExactly {v : Volume} {m : BlockMap} {j : Nat} {x : Bool}
    (h : mapBit v m j = !x) :
    ChangesExactly v (mapPut v m j x) (m.block (j / BLOCK_BITS)) (j % BLOCK_BITS) x := by
  refine ⟨rfl, h, ?_⟩
  intro b' k'
  show bitAt (Function.update v.disk _ _ b') k' = _
  by_cases hb : b' = m.block (j / BLOCK_BITS)
  · subst hb
    rw [Function.update_self, bitAt_putBit]
    by_cases hk : j % BLOCK_BITS = k'
    · simp [hk]
    · have hk' : ¬ k' = j % BLOCK_BITS := fun h => hk h.symm
      simp [hk, hk']
  · rw [Function.update_of_ne hb]
    simp [hb]

/-- Setting a clear bit and clearing it again is the identity. -/
theorem mapPut_mapPut_clear {v : Volume} {m : BlockMap} {j : Nat}
    (h : mapBit v m j = false) : mapPut (mapPut v m j true) m j false = v := by
  have hb : putBit (v.disk (m.block (j / BLOCK_BITS))) (j % BLOCK_BITS) false
      = v.disk (m.block (j / BLOCK_BITS)) := putBit_of_bitAt h
  show Volume.mk v.desc _ = v
  simp only [mapPut, Volume.setBlock_disk, Function.update_self, putBit_putBit,
    Function.update_idem, hb, Function.update_eq_self]

/-! ## Scanning the blocks of a bitmap -/

section Scan

variable {v : Volume} {m : BlockMap} {base : Nat}

theorem mapBuf_pos {i : Nat} (h : i < m.blocks) :
    mapBuf v m i = .ok (v.disk (m.block i)) := if_pos h

theorem mapBuf_null {i : Nat} (h : ¬ i < m.blocks) :
    mapBuf v m i = .error .assertion := if_neg h

theorem mapBit_of_block (v : Volume) (m : BlockMap) {i k : Nat} (hk : k < BLOCK_BITS) :
    mapBit v m (i * BLOCK_BITS + k) = bitAt (v.disk (m.block i)) k := by
  have hd : (i * BLOCK_BITS + k) / BLOCK_BITS = i := by
    unfold BLOCK_BITS BLOCK_SIZE at *
    omega
  have hm : (i * BLOCK_BITS + k) % BLOCK_BITS = k := by
    unfold BLOCK_BITS BLOCK_SIZE at *
    omega
  rw [mapBit, hd, hm]

/-- A full block is passed over when the length stays inside the buffer. -/
theorem mapAlloc_skip {left i : Nat} (hlen : m.length = BLOCK_SIZE) (hi : i < m.blocks)
    (hfull : ∀ k, k < BLOCK_BITS → mapBit v m (i * BLOCK_BITS + k) = true) :
    mapAlloc v m (left + 1) i = mapAlloc v m left (i + 1) := by
  have hscan : bitmapScan (bitmapMake (v.disk (m.block i)) BLOCK_SIZE m.length (m.offset i)) 1
      = .ok (none, bitmapMake (v.disk (m.block i)) BLOCK_SIZE m.length (m.offset i)) := by
    apply bitmapScan_full
    · exact Nat.le_of_eq hlen
    · intro k hk
      have hk' : k < BLOCK_BITS := by
        show k < BLOCK_SIZE * 8
        rw [show (bitmapMake (v.disk (m.block i)) BLOCK_SIZE m.length (m.offset i)).length
          = m.length from rfl, hlen] at hk
        omega
      have hbit := hfull k hk'
      rwa [mapBit_of_block v m hk'] at hbit
  rw [mapAlloc, mapBuf_pos hi, bind_ok]
  simp only [hscan, bind_ok]

/-- A block with a clear bit gives its first one, if that is below the limit. -/
theorem mapAlloc_here (left : Nat) {i k : Nat} (hlen : BLOCK_SIZE ≤ m.length) (hi : i < m.blocks)
    (hk : k < BLOCK_BITS) (hfree : mapBit v m (i * BLOCK_BITS + k) = false)
    (hset : ∀ k', k' < k → mapBit v m (i * BLOCK_BITS + k') = true) :
    mapAlloc v m (left + 1) i = (do
      check (k + m.offset i < m.limit)
      return (some (k + m.offset i), mapPut v m (i * BLOCK_BITS + k) true)) := by
  have hk8 : k < 8 * BLOCK_SIZE := by
    have : BLOCK_BITS = 8 * BLOCK_SIZE := by rfl
    omega
  rw [mapBit_of_block v m hk] at hfree
  have hscan := bitmapScan_found
    (bitmapMake (v.disk (m.block i)) BLOCK_SIZE m.length (m.offset i)) (s := k)
    hk8 (show k < 8 * m.length by omega) hfree (by
      intro k' hk'
      have hbit := hset k' hk'
      rwa [mapBit_of_block v m (by omega)] at hbit)
  have hput : mapPut v m (i * BLOCK_BITS + k) true
      = v.setBlock (m.block i) (putBit (v.disk (m.block i)) k true) := by
    have hd : (i * BLOCK_BITS + k) / BLOCK_BITS = i := by
      unfold BLOCK_BITS BLOCK_SIZE at *
      omega
    have hm : (i * BLOCK_BITS + k) % BLOCK_BITS = k := by
      unfold BLOCK_BITS BLOCK_SIZE at *
      omega
    rw [mapPut, hd, hm]
  rw [mapAlloc, mapBuf_pos hi, bind_ok, hput]
  simp only [hscan, bind_ok]
  rfl

/-- The search passes over `n` full blocks. -/
theorem mapAlloc_skips (hlen : m.length = BLOCK_SIZE) :
    ∀ (n left i : Nat), i + n ≤ m.blocks →
      (∀ j, i * BLOCK_BITS ≤ j → j < (i + n) * BLOCK_BITS → mapBit v m j = true) →
      mapAlloc v m (n + left) i = mapAlloc v m left (i + n) := by
  intro n
  induction n with
  | zero => intro left i _ _; rw [Nat.zero_add]; rfl
  | succ n ih =>
      intro left i hi hfull
      rw [show n + 1 + left = (n + left) + 1 by omega, mapAlloc_skip hlen (by omega)]
      · rw [ih left (i + 1) (by omega)]
        · rw [show i + 1 + n = i + (n + 1) by omega]
        · intro j hj hj'
          refine hfull j ?_ ?_
          · rw [Nat.add_mul] at hj
            omega
          · rwa [show i + 1 + n = i + (n + 1) by omega] at hj'
      · intro k hk
        refine hfull _ (Nat.le_add_right _ _) ?_
        unfold BLOCK_BITS BLOCK_SIZE at *
        omega

/-- A null buffer pointer stops the search. -/
theorem mapAlloc_null {left i : Nat} (hi : ¬ i < m.blocks) :
    mapAlloc v m (left + 1) i = .error .assertion := by
  rw [mapAlloc, mapBuf_null hi, bind_error]

/-- With a length past the buffer, a full block is scanned out of bounds. -/
theorem mapAlloc_past (left : Nat) {i : Nat} (hlen : BLOCK_SIZE < m.length) (hi : i < m.blocks)
    (hfull : ∀ k, k < BLOCK_BITS → mapBit v m (i * BLOCK_BITS + k) = true) :
    mapAlloc v m (left + 1) i = .error .outOfBounds := by
  have hscan : bitmapScan (bitmapMake (v.disk (m.block i)) BLOCK_SIZE m.length (m.offset i)) 1
      = .error .outOfBounds := by
    apply bitmapScan_past
    · exact hlen
    · intro k hk
      have hk' : k < BLOCK_BITS := by
        have : BLOCK_BITS = 8 * BLOCK_SIZE := by rfl
        rw [this]
        exact hk
      have hbit := hfull k hk'
      rwa [mapBit_of_block v m hk'] at hbit
  rw [mapAlloc, mapBuf_pos hi, bind_ok]
  simp only [hscan, bind_error]

/-- The free loop settles on the first block whose last raw index reaches
    `idx`. -/
theorem mapFree_settles {idx k : Nat} (hk : idx ≤ BLOCK_BITS * (k + 1)) :
    ∀ (n left i : Nat), i + n = k → (∀ i', i' < k → BLOCK_BITS * (i' + 1) < idx) →
      mapFree v m idx (n + left + 1) i = mapClear v m idx k := by
  intro n
  induction n with
  | zero =>
      intro left i hi _
      have hik : i = k := by omega
      subst hik
      rw [mapFree, if_neg (by omega)]
  | succ n ih =>
      intro left i hi hbelow
      rw [show n + 1 + left + 1 = (n + left + 1) + 1 by omega, mapFree,
        if_pos (hbelow i (by omega))]
      exact ih left (i + 1) (by omega) hbelow

/-- The free loop in one step: the block it settles on is that of the raw index
    below `idx`. -/
theorem mapFree_eq {idx n : Nat} (h : (idx - 1) / BLOCK_BITS < n) :
    mapFree v m idx n 0 = mapClear v m idx ((idx - 1) / BLOCK_BITS) := by
  have hB : BLOCK_BITS = 8192 := rfl
  have hn : n = (idx - 1) / BLOCK_BITS + (n - (idx - 1) / BLOCK_BITS - 1) + 1 := by omega
  rw [hn]
  apply mapFree_settles
  · rw [hB]
    omega
  · omega
  · intro i' hi'
    rw [hB] at hi' ⊢
    omega

/-- Clearing a used bit of the buffer the loop settles on. -/
theorem mapClear_ok {i k : Nat} (hi : i < m.blocks) (hk : k < BLOCK_BITS)
    (hlen : BLOCK_SIZE ≤ m.length) (hused : mapBit v m (i * BLOCK_BITS + k) = true) :
    mapClear v m (m.offset i + k) i = .ok (mapPut v m (i * BLOCK_BITS + k) false) := by
  have hB : BLOCK_BITS = BLOCK_SIZE * 8 := rfl
  have hd : (i * BLOCK_BITS + k) / BLOCK_BITS = i := by
    unfold BLOCK_BITS BLOCK_SIZE at *
    omega
  have hm : (i * BLOCK_BITS + k) % BLOCK_BITS = k := by
    unfold BLOCK_BITS BLOCK_SIZE at *
    omega
  rw [mapBit_of_block v m hk] at hused
  have htest := bitmapTest_eq
    (bitmapMake (v.disk (m.block i)) BLOCK_SIZE m.length (m.offset i)) (k := k)
    (show k / 8 < m.length by omega) (show k / 8 < BLOCK_SIZE by omega)
  have hset := bitmapSet_eq
    (bitmapMake (v.disk (m.block i)) BLOCK_SIZE m.length (m.offset i)) (k := k)
    (show k / 8 < BLOCK_SIZE by omega) false
  rw [mapPut, hd, hm, mapClear, mapBuf_pos hi, bind_ok]
  change bitmapTest _ (m.offset i + k) = .ok (bitAt (v.disk (m.block i)) k) at htest
  rw [hused] at htest
  dsimp only
  rw [htest, bind_ok, check_pos rfl, bind_ok]
  change bitmapSet _ (m.offset i + k) false = _ at hset
  rw [hset]
  rfl

/-- An index below the offset of the buffer the loop settles on fails the
    assertion of `bitmap_test`, or the pointer is null. -/
theorem mapClear_below {idx i : Nat} (h : idx < m.offset i) :
    mapClear v m idx i = .error .assertion := by
  unfold mapClear
  by_cases hi : i < m.blocks
  · rw [mapBuf_pos hi, bind_ok]
    dsimp only
    rw [bitmapTest_below (show idx < (bitmapMake _ _ _ (m.offset i)).offset from h),
      bind_error]
  · rw [mapBuf_null hi, bind_error]

/-- A bit past the buffer but inside the length is read out of bounds. -/
theorem mapClear_past {i k : Nat} (hi : i < m.blocks) (hk : BLOCK_BITS ≤ k)
    (hlen : k / 8 < m.length) :
    mapClear v m (m.offset i + k) i = .error .outOfBounds := by
  have hB : BLOCK_BITS = BLOCK_SIZE * 8 := rfl
  have htest := bitmapTest_outOfBounds
    (bitmapMake (v.disk (m.block i)) BLOCK_SIZE m.length (m.offset i)) (k := k)
    hlen (show ¬ k / 8 < BLOCK_SIZE by omega)
  change bitmapTest _ (m.offset i + k) = _ at htest
  rw [mapClear, mapBuf_pos hi, bind_ok]
  dsimp only
  rw [htest, bind_error]

end Scan

end NeonixVolume
