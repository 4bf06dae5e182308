import Neonix.Mounts
import Neonix.NewInodes

/-! # The bitmaps of a formatted device

    `devmkfs` clears the blocks of both bitmaps, marks bit 0 of the zones and bits
    0 and 1 of the inodes with the allocators themselves, and then sets the tail of
    the last block of each.  The byte where a tail begins is stored, not or-ed: a
    bit set in it before is clear again (`tailed`). -/

namespace NeonixFormattedMaps

open NeonixMachine NeonixByteBits NeonixWords NeonixBitmap NeonixVolume NeonixAllocators NeonixCalls
  NeonixFileSystem NeonixFrames NeonixDirectories NeonixMounts

variable {bad : Halt → Prop} {s t : Kernel} {v : Volume} {m : BlockMap} {desc : SuperDesc}
  {dev : Dev} {d e : Nat → Bytes} {f : Nat → Bool} {total inodes k n : Nat}

/-! ## The sizes -/

/-- `desc->imap_blocks` -/
def imapBlocks (inodes : Nat) : Nat := (inodes + 8191) / 8192

/-- `inode_blocks` -/
def inodeBlocks (inodes : Nat) : Nat := (inodes + 31) / 32

/-- `zcount` -/
def zoneCount (total inodes : Nat) : Nat := total - (2 + imapBlocks inodes + inodeBlocks inodes)

/-- `desc->zmap_blocks` -/
def zmapBlocks (total inodes : Nat) : Nat := (zoneCount total inodes + 8191) / 8192

/-- `desc->firstdatazone` -/
def firstZone (total inodes : Nat) : Nat :=
  2 + imapBlocks inodes + zmapBlocks total inodes + inodeBlocks inodes

/-- At least one block is behind the inodes. -/
def LeavesZone (total inodes : Nat) : Prop := firstZone total inodes < total

instance (total inodes : Nat) : Decidable (LeavesZone total inodes) :=
  inferInstanceAs (Decidable (_ < _))

/-- The descriptor of a device of `total` blocks with room for `inodes`. -/
structure Describes (desc : SuperDesc) (total inodes : Nat) : Prop where
  inodes_eq : desc.inodes = inodes
  zones_eq : desc.zones = total
  imap_eq : desc.imap_blocks = imapBlocks inodes
  zmap_eq : desc.zmap_blocks = zmapBlocks total inodes
  first_eq : desc.firstdatazone = firstZone total inodes

theorem divRoundUp_eq {num size : Nat} (h : num + size - 1 < 2 ^ 32) :
    divRoundUp num size = (num + size - 1) / size := by
  rw [divRoundUp, Nat.mod_eq_of_lt h]

/-- What `devmkfs` computes, without the wrap of the machine words. -/
structure SizesAre (z : Sizes) (total inodes : Nat) : Prop where
  inodes_eq : z.inodes.toNat = inodes
  zones_eq : z.zones.toNat = total
  imap_eq : z.imap_blocks.toNat = imapBlocks inodes
  zmap_eq : z.zmap_blocks.toNat = zmapBlocks total inodes
  first_eq : z.firstdatazone.toNat = firstZone total inodes
  zcount_eq : z.zcount = zoneCount total inodes

theorem sizes_are (ht : total ≤ 65535) (hi : inodes < total) (hz : LeavesZone total inodes) :
    SizesAre (sizes total inodes) total inodes := by
  have hB : BLOCK_BITS = 8192 := rfl
  have hS : BLOCK_SIZE = 1024 := rfl
  have hblocks : divRoundUp (inodes * 32 % 2 ^ 32) BLOCK_SIZE = inodeBlocks inodes := by
    rw [Nat.mod_eq_of_lt (by omega), divRoundUp_eq (by omega), hS, inodeBlocks]
    omega
  have himap : (BitVec.ofNat 16 (divRoundUp inodes BLOCK_BITS)).toNat = imapBlocks inodes := by
    rw [divRoundUp_eq (by omega), hB, BitVec.toNat_ofNat, imapBlocks]
    omega
  unfold LeavesZone firstZone zmapBlocks zoneCount at hz
  have hcount : ((total : Int) - (imapBlocks inodes : Int) - (inodeBlocks inodes : Int) - 2) =
      (zoneCount total inodes : Int) := by
    rw [zoneCount]
    omega
  have hle : zoneCount total inodes ≤ total := Nat.sub_le ..
  have hzmap : (BitVec.ofNat 16 (divRoundUp ((zoneCount total inodes : Int) % 2 ^ 32).toNat
      BLOCK_BITS)).toNat = zmapBlocks total inodes := by
    have hwrap : ((zoneCount total inodes : Int) % 2 ^ 32).toNat = zoneCount total inodes := by
      omega
    rw [hwrap, divRoundUp_eq (by omega), hB, BitVec.toNat_ofNat, zmapBlocks]
    omega
  constructor
  · show (BitVec.ofNat 16 inodes).toNat = inodes
    rw [BitVec.toNat_ofNat]
    omega
  · show (BitVec.ofNat 16 total).toNat = total
    rw [BitVec.toNat_ofNat]
    omega
  · exact himap
  · simp only [sizes, himap, hblocks, hcount]
    exact hzmap
  · simp only [sizes, himap, hblocks, hcount, hzmap]
    rw [BitVec.toNat_ofNat, firstZone, zmapBlocks, zoneCount]
    omega
  · simp only [sizes, himap, hblocks, hcount]

/-- A super block has room for the bitmaps of such a device. -/
theorem makeDesc_describes {z : Sizes} (ht : total ≤ 65535) (hi : inodes < total)
    (h : SizesAre z total inodes) :
    ∃ desc, makeDesc z.inodes z.zones z.imap_blocks z.zmap_blocks z.firstdatazone = some desc ∧
      Describes desc total inodes := by
  have hroom : z.imap_blocks.toNat ≤ IMAP_NR ∧ z.zmap_blocks.toNat ≤ ZMAP_NR := by
    rw [h.imap_eq, h.zmap_eq, imapBlocks, zmapBlocks, zoneCount, show IMAP_NR = 8 from rfl,
      show ZMAP_NR = 8 from rfl]
    omega
  refine ⟨_, dif_pos hroom, h.inodes_eq, h.zones_eq, h.imap_eq, h.zmap_eq, ?_⟩
  show max z.firstdatazone.toNat _ = _
  rw [h.first_eq, h.imap_eq, h.zmap_eq, h.inodes_eq]
  exact Nat.max_eq_left (Nat.le_of_eq rfl)

/-! ## The tail of a block -/

theorem tailByte_bit : ∀ r < 8, ∀ i < 8, (tailByte (8 - r) 0x80 0).getLsbD i = decide (r ≤ i) := by
  decide

theorem bitAt_fillTail {b : Bytes} {count x : Nat} (hx : x < BLOCK_BITS) :
    bitAt (fillTail b count) x = if count % BLOCK_BITS ≤ x then true
      else if x / 8 = count % BLOCK_BITS / 8 then false else bitAt b x := by
  have hB : BLOCK_BITS = 8192 := rfl
  have hS : BLOCK_SIZE = 1024 := rfl
  have hmod : x % 8 < 8 := Nat.mod_lt _ (by decide)
  rw [bitAt, fillTail]
  generalize hoff : count % BLOCK_BITS = offset
  dsimp only
  rw [hB] at hx
  rw [hS]
  by_cases hbehind : offset / 8 < x / 8
  · -- behind the byte where the tail begins
    rw [if_pos ⟨hbehind, by omega⟩, if_pos (by omega)]
    exact (by decide : ∀ i < 8, (0xFF : Byte).getLsbD i = true) _ hmod
  · rw [if_neg fun h => hbehind h.1]
    by_cases heq : x / 8 = offset / 8
    · rw [if_pos heq, tailByte_bit _ (Nat.mod_lt _ (by decide)) _ hmod]
      by_cases hle : offset ≤ x
      · rw [if_pos hle]
        exact decide_eq_true (by omega)
      · rw [if_neg hle, if_pos heq]
        exact decide_eq_false (by omega)
    · rw [if_neg heq, if_neg (by omega), if_neg heq, bitAt]

/-! ## The bits of a bitmap

    The blocks of a bitmap are one behind the other. -/

/-- The bits of the bitmap. -/
def Shows (v : Volume) (m : BlockMap) (f : Nat → Bool) : Prop :=
  ∀ j < m.blocks * BLOCK_BITS, mapBit v m j = f j

/-- The bits of a bitmap of `blocks` blocks behind the store of its tail. -/
def tailed (blocks count : Nat) (f : Nat → Bool) (j : Nat) : Bool :=
  if j / BLOCK_BITS = blocks - 1 then
    if count % BLOCK_BITS ≤ j % BLOCK_BITS then true
    else if j % BLOCK_BITS / 8 = count % BLOCK_BITS / 8 then false else f j
  else f j

def Consecutive (m : BlockMap) : Prop := ∀ i, m.block i = m.block 0 + i

theorem consecutive_imaps (desc : SuperDesc) : Consecutive (imaps desc) := fun _ => rfl

theorem consecutive_zmaps (desc : SuperDesc) : Consecutive (zmaps desc) := fun _ => rfl

theorem mapBit_setBlock (hm : Consecutive m) {data : Bytes} {i j : Nat} :
    mapBit (v.setBlock (m.block i) data) m j =
      if j / BLOCK_BITS = i then bitAt data (j % BLOCK_BITS) else mapBit v m j := by
  rw [mapBit, Volume.setBlock_disk]
  by_cases hj : j / BLOCK_BITS = i
  · rw [if_pos hj, hj, Function.update_self]
  · have hblock : m.block (j / BLOCK_BITS) ≠ m.block i := by
      rw [hm (j / BLOCK_BITS), hm i]
      omega
    rw [if_neg hj, Function.update_of_ne hblock, mapBit]

/-- A bit of the map is set. -/
theorem Shows.put (hm : Consecutive m) (h : Shows v m f) {r : Nat} :
    Shows (mapPut v m r true) m (Function.update f r true) := by
  have hB : BLOCK_BITS = 8192 := rfl
  intro j hj
  rw [mapPut, mapBit_setBlock hm]
  by_cases hjr : j = r
  · rw [hjr, if_pos rfl, bitAt_putBit_self, Function.update_self]
  · rw [Function.update_of_ne hjr, ← h j hj]
    by_cases hblock : j / BLOCK_BITS = r / BLOCK_BITS
    · rw [if_pos hblock, bitAt_putBit_ne _ _ (by rw [hB] at *; omega), mapBit, hblock]
    · rw [if_neg hblock]

/-- The tail of the last block is stored. -/
theorem Shows.fill (hm : Consecutive m) (h : Shows v m f) (count : Nat) :
    Shows (v.setBlock (m.block (m.blocks - 1)) (fillTail (v.disk (m.block (m.blocks - 1))) count)) m
      (tailed m.blocks count f) := by
  have hB : BLOCK_BITS = 8192 := rfl
  intro j hj
  rw [mapBit_setBlock hm, tailed]
  by_cases hlast : j / BLOCK_BITS = m.blocks - 1
  · rw [if_pos hlast, if_pos hlast, bitAt_fillTail (Nat.mod_lt _ (by decide)), ← h j hj,
      mapBit, hlast]
  · rw [if_neg hlast, if_neg hlast, h j hj]

/-- A store to a block of another region. -/
theorem Shows.outside (h : Shows v m f) {b : Nat} {data : Bytes}
    (hb : ∀ i < m.blocks, m.block i ≠ b) : Shows (v.setBlock b data) m f := by
  have hB : BLOCK_BITS = 8192 := rfl
  intro j hj
  have hi : j / BLOCK_BITS < m.blocks := by
    rw [hB] at hj ⊢
    omega
  rw [← h j hj, mapBit, Volume.setBlock_disk, Function.update_of_ne (hb _ hi), mapBit]

/-- The allocators try the first clear bit of the first block. -/
theorem Shows.scan (h : Shows v m f) (left : Nat) {r : Nat} (hlen : BLOCK_SIZE ≤ m.length)
    (hblocks : 0 < m.blocks) (hr : r < BLOCK_BITS) (hclear : f r = false)
    (hset : ∀ i < r, f i = true) :
    mapAlloc v m (left + 1) 0 = (do
      check (r + m.offset 0 < m.limit)
      return (some (r + m.offset 0), mapPut v m r true)) := by
  have hin : ∀ i < BLOCK_BITS, i < m.blocks * BLOCK_BITS := fun i hi =>
    Nat.lt_of_lt_of_le hi (Nat.le_mul_of_pos_left _ hblocks)
  have hhere := mapAlloc_here (v := v) (m := m) (i := 0) (k := r) left hlen hblocks hr
    (by rw [Nat.zero_mul, Nat.zero_add, h r (hin r hr), hclear])
    (fun i hi => by rw [Nat.zero_mul, Nat.zero_add, h i (hin i (hi.trans hr)), hset i hi])
  rw [hhere, Nat.zero_mul, Nat.zero_add]

/-- Below the limit they take it. -/
theorem Shows.alloc (h : Shows v m f) (left : Nat) {r : Nat} (hlen : BLOCK_SIZE ≤ m.length)
    (hblocks : 0 < m.blocks) (hr : r < BLOCK_BITS) (hclear : f r = false)
    (hset : ∀ i < r, f i = true)
    (hlimit : r + m.offset 0 < m.limit) :
    mapAlloc v m (left + 1) 0 = .ok (some (r + m.offset 0), mapPut v m r true) := by
  rw [h.scan left hlen hblocks hr hclear hset, check_pos hlimit]
  rfl

/-- Past the limit they stop. -/
theorem Shows.alloc_stops (h : Shows v m f) (left : Nat) {r : Nat} (hlen : BLOCK_SIZE ≤ m.length)
    (hblocks : 0 < m.blocks) (hr : r < BLOCK_BITS) (hclear : f r = false)
    (hset : ∀ i < r, f i = true)
    (hlimit : ¬ r + m.offset 0 < m.limit) : mapAlloc v m (left + 1) 0 = .error .assertion := by
  rw [h.scan left hlen hblocks hr hclear hset, check_neg hlimit]
  rfl

/-! ## A device of the kernel -/

/-- The state with other contents of the device. -/
def onDisk (s : Kernel) (dev : Dev) (d : Nat → Bytes) : Kernel :=
  { s with disk := Function.update s.disk dev d }

@[simp] theorem onDisk_self (s : Kernel) (dev : Dev) (d : Nat → Bytes) :
    (onDisk s dev d).disk dev = d := Function.update_self ..

@[simp] theorem onDisk_onDisk (s : Kernel) (dev : Dev) (d e : Nat → Bytes) :
    onDisk (onDisk s dev d) dev e = onDisk s dev e := by
  rw [onDisk, onDisk, Function.update_idem]
  rfl

theorem setBlock_onDisk (s : Kernel) (dev : Dev) (d : Nat → Bytes) (b : Nat) (data : Bytes) :
    (onDisk s dev d).setBlock dev b data = onDisk s dev (Function.update d b data) := by
  rw [Kernel.setBlock, onDisk_self]
  exact onDisk_onDisk s dev d _

/-- A call of the volume of a device. -/
theorem onVolume_runs {α : Type} {g : Volume → Res (α × Volume)} {a : α} {v : Volume}
    (hk : getSuper s dev = some k) (hsb : (s.super_table k).desc = desc)
    (hg : g { desc := desc, disk := d } = .ok (a, v)) :
    From bad (onDisk s dev d) (onVolume dev g) fun r t => r = a ∧ t = onDisk s dev v.disk := by
  have hk' : getSuper (onDisk s dev d) dev = some k := hk
  have hsb' : ((onDisk s dev d).super_table k).desc = desc := hsb
  refine From.get ?_
  rw [hk']
  dsimp only
  rw [hsb', onDisk_self, hg]
  exact From.set (From.pure ⟨rfl, onDisk_onDisk s dev d v.disk⟩)

theorem onVolume_stops {α : Type} {g : Volume → Res (α × Volume)} {why : Stop}
    {Q : α → Kernel → Prop} (hk : getSuper s dev = some k) (hsb : (s.super_table k).desc = desc)
    (hg : g { desc := desc, disk := d } = .error why) (hbad : ¬ bad (.stopped why)) :
    From bad (onDisk s dev d) (onVolume dev g) Q := by
  have hk' : getSuper (onDisk s dev d) dev = some k := hk
  have hsb' : ((onDisk s dev d).super_table k).desc = desc := hsb
  refine From.get ?_
  rw [hk']
  dsimp only
  rw [hsb', onDisk_self, hg]
  exact From.stop hbad

/-- The device with some blocks all zero. -/
def zeroed (d : Nat → Bytes) (lo n : Nat) (b : Nat) : Bytes :=
  if lo ≤ b ∧ b < lo + n then fun _ => 0 else d b

theorem zeroed_succ (d : Nat → Bytes) (lo n : Nat) :
    zeroed (Function.update d lo fun _ => 0) (lo + 1) n = zeroed d lo (n + 1) := by
  funext b
  rw [zeroed, zeroed]
  by_cases hb : b = lo
  · rw [hb, if_neg (by omega), Function.update_self, if_pos (by omega)]
  · rw [Function.update_of_ne hb]
    by_cases hin : lo + 1 ≤ b ∧ b < lo + 1 + n
    · rw [if_pos hin, if_pos (by omega)]
    · rw [if_neg hin, if_neg (by omega)]

theorem zeroLoop_runs (lo : Nat) :
    From bad (onDisk s dev d) (loop (zeroBlock dev) lo n) fun _ t => t =
    onDisk s dev (zeroed d lo n) := by
  induction n generalizing lo d with
  | zero =>
      refine From.pure ?_
      congr 1
      funext b
      exact (if_neg (by omega)).symm
  | succ n ih =>
      refine From.bind (Q := fun _ t => t = onDisk s dev (Function.update d lo fun _ => 0)) ?_ ?_
      · exact From.store (setBlock_onDisk s dev d lo _)
      rintro _ t rfl
      rw [← zeroed_succ]
      exact ih (lo + 1)

theorem fillLast_runs {first blocks count : Nat} (h : 0 < blocks) :
    From bad (onDisk s dev d) (fillLast dev first blocks count) fun _ t =>
      t = onDisk s dev (Function.update d (first + (blocks - 1))
        (fillTail (d (first + (blocks - 1))) count)) := by
  rw [fillLast, if_neg (by omega)]
  refine From.store ?_
  rw [onDisk_self]
  exact setBlock_onDisk s dev d _ _

/-! ## `devmkfs` up to the root directory -/

/-- The bits of the two bitmaps, in blocks `devmkfs` writes; the others are those of
    `d`. -/
structure Maps (desc : SuperDesc) (f g : Nat → Bool) (d e : Nat → Bytes) : Prop where
  inodeBits : Shows { desc := desc, disk := e } (imaps desc) f
  zoneBits : Shows { desc := desc, disk := e } (zmaps desc) g
  other : ∀ b, ¬ (2 ≤ b ∧ b < 2 + desc.imap_blocks + desc.zmap_blocks) → e b = d b

theorem clear_bits (b : Nat) : bitAt (fun _ => 0) b = false := BitVec.getLsbD_zero

/-- The two bitmaps do not share a block. -/
theorem imaps_apart {i : Nat} : ∀ j < (imaps desc).blocks,
    (imaps desc).block j ≠ (zmaps desc).block i := by
  intro j hj
  change j < desc.imap_blocks at hj
  show 2 + j ≠ 2 + desc.imap_blocks + i
  omega

theorem zmaps_apart {i : Nat} (hi : i < desc.imap_blocks) : ∀ j < (zmaps desc).blocks,
    (zmaps desc).block j ≠ (imaps desc).block i := by
  intro j _
  show 2 + desc.imap_blocks + j ≠ 2 + i
  omega

/-- The super block of a device that a store of its descriptor leaves as it is. -/
theorem redescribe_super (s : Kernel) (dev : Dev) (desc : SuperDesc) (k : Nat) :
    (redescribe s dev desc).super_table k =
      { s.super_table k with
        desc := if (s.super_table k).dev = dev then desc else (s.super_table k).desc } := by
  show (if (s.super_table k).dev = dev then _ else _) = _
  split_ifs <;> rfl

theorem redescribe_getSuper (s : Kernel) (dev : Dev) (desc : SuperDesc) (e : Dev) :
    getSuper (redescribe s dev desc) e = getSuper s e := by
  rw [getSuper, getSuper]
  congr 1
  funext k
  rw [redescribe_super]

/-- The state with the bitmaps on the device. -/
def MapsOn (s : Kernel) (dev : Dev) (desc : SuperDesc) (f g : Nat → Bool) (d : Nat → Bytes)
    (t : Kernel) : Prop :=
  ∃ e, t = onDisk s dev e ∧ Maps desc f g d e

/-- The marks below `r`. -/
def below (r j : Nat) : Bool := decide (j < r)

theorem update_below (r : Nat) : Function.update (below r) r true = below (r + 1) := by
  funext j
  by_cases hj : j = r
  · rw [hj, Function.update_self]
    exact (decide_eq_true (Nat.lt_succ_self r)).symm
  · rw [Function.update_of_ne hj]
    exact decide_eq_decide.mpr (by omega)

section Stages

variable {g : Nat → Bool} (hblocks : 0 < desc.imap_blocks) (hzones : 0 < desc.zmap_blocks)
  (hk : getSuper s dev = some k) (hsb : (s.super_table k).desc = desc)

/-- Both bitmaps clear. -/
theorem maps_zeroed : Maps desc (below 0) (below 0) d
    (zeroed (zeroed d 2 desc.imap_blocks) (2 + desc.imap_blocks) desc.zmap_blocks) := by
  have hB : BLOCK_BITS = 8192 := rfl
  constructor
  · intro j hj
    have hi : j / BLOCK_BITS < desc.imap_blocks := by
      change j < desc.imap_blocks * BLOCK_BITS at hj
      rw [hB] at hj ⊢
      omega
    show bitAt (zeroed _ _ _ (2 + j / BLOCK_BITS)) _ = _
    generalize j / BLOCK_BITS = i at hi
    rw [zeroed, if_neg (by omega), zeroed, if_pos (by omega)]
    exact clear_bits _
  · intro j hj
    have hi : j / BLOCK_BITS < desc.zmap_blocks := by
      change j < desc.zmap_blocks * BLOCK_BITS at hj
      rw [hB] at hj ⊢
      omega
    show bitAt (zeroed _ _ _ (2 + desc.imap_blocks + j / BLOCK_BITS)) _ = _
    generalize j / BLOCK_BITS = i at hi
    rw [zeroed, if_pos (by omega)]
    exact clear_bits _
  · intro b hb
    rw [zeroed, if_neg (by omega), zeroed, if_neg (by omega)]

/-- A store to a block of the inode bitmap. -/
theorem Maps.inodeStore {f' : Nat → Bool} {i : Nat} {data : Bytes} (h : Maps desc f g d e)
    (hi : i < desc.imap_blocks)
    (hbits : Shows { desc := desc, disk := Function.update e (2 + i) data } (imaps desc) f') :
    Maps desc f' g d (Function.update e (2 + i) data) where
  inodeBits := hbits
  zoneBits := h.zoneBits.outside (zmaps_apart hi)
  other := fun b hb => (Function.update_of_ne (by omega) ..).trans (h.other b hb)

/-- A store to a block of the zone bitmap. -/
theorem Maps.zoneStore {g' : Nat → Bool} {i : Nat} {data : Bytes} (h : Maps desc f g d e)
    (hi : i < desc.zmap_blocks)
    (hbits : Shows { desc := desc, disk := Function.update e (2 + desc.imap_blocks + i) data }
      (zmaps desc) g') :
    Maps desc f g' d (Function.update e (2 + desc.imap_blocks + i) data) where
  inodeBits := h.inodeBits.outside imaps_apart
  zoneBits := hbits
  other := fun b hb => (Function.update_of_ne (by omega) ..).trans (h.other b hb)

include hblocks hk hsb in
/-- One `ialloc` on a bitmap with the bits below `r` set. -/
theorem ialloc_next {r : Nat} (hr : r < BLOCK_BITS)
    (hbad : ¬ r < desc.inodes → ¬ bad (.stopped .assertion)) (h : Maps desc (below r) g d e) :
    From bad (onDisk s dev e) (NeonixFileSystem.ialloc dev) fun _ t =>
      MapsOn s dev desc (below (r + 1)) g d t ∧ r < desc.inodes := by
  have hlen : BLOCK_SIZE ≤ (imaps desc).length := by
    show BLOCK_SIZE ≤ BLOCK_BITS
    decide
  have hclear : below r r = false := decide_eq_false (Nat.lt_irrefl r)
  have hset : ∀ i < r, below r i = true := fun i hi => decide_eq_true hi
  have hput := h.inodeBits.put (consecutive_imaps desc) (r := r)
  rw [update_below] at hput
  by_cases hlimit : r < desc.inodes
  · have halloc := h.inodeBits.alloc 7 hlen hblocks hr hclear hset
      (by show r + 0 * BLOCK_BITS < desc.inodes; omega)
    refine From.bind (onVolume_runs hk hsb halloc) ?_
    rintro _ _ ⟨rfl, rfl⟩
    have hzero : r / BLOCK_BITS < desc.imap_blocks := by
      rw [Nat.div_eq_of_lt hr]
      exact hblocks
    exact From.pure ⟨⟨_, rfl, h.inodeStore hzero hput⟩, hlimit⟩
  · have halloc := h.inodeBits.alloc_stops 7 hlen hblocks hr hclear hset
      (by show ¬ r + 0 * BLOCK_BITS < desc.inodes; omega)
    exact From.bind (onVolume_stops (Q := fun _ _ => False) hk hsb halloc (hbad hlimit))
      fun _ _ h => h.elim

include hzones hk hsb in
/-- `balloc` on a clear bitmap. -/
theorem balloc_zero (hlimit : desc.firstdatazone - 1 < desc.zones) (h : Maps desc f (below 0) d e) :
    From bad (onDisk s dev e) (NeonixFileSystem.balloc dev) fun _ t =>
      MapsOn s dev desc f (below 1) d t := by
  have hput := h.zoneBits.put (consecutive_zmaps desc) (r := 0)
  rw [update_below] at hput
  have halloc := h.zoneBits.alloc (r := 0) 7 Nat.le.refl hzones (by decide)
    (decide_eq_false (Nat.lt_irrefl 0)) (fun i hi => absurd hi (Nat.not_lt_zero i))
    (by show 0 + (0 * BLOCK_BITS + desc.firstdatazone - 1) < desc.zones; omega)
  refine From.bind (onVolume_runs hk hsb halloc) ?_
  rintro _ _ ⟨rfl, rfl⟩
  exact From.pure ⟨_, rfl, h.zoneStore hzones hput⟩

/-- The block of the first inodes. -/
def firstInodes (desc : SuperDesc) : Nat := 2 + desc.imap_blocks + desc.zmap_blocks

/-- Another content of the block of the first inodes. -/
theorem Maps.inodeBlock (h : Maps desc f g d e) (data : Bytes) :
    Maps desc f g (Function.update d (firstInodes desc) data)
      (Function.update e (firstInodes desc) data) where
  inodeBits := h.inodeBits.outside fun j hj => by
    change j < desc.imap_blocks at hj
    show 2 + j ≠ 2 + desc.imap_blocks + desc.zmap_blocks
    omega
  zoneBits := h.zoneBits.outside fun j hj => by
    change j < desc.zmap_blocks at hj
    show 2 + desc.imap_blocks + j ≠ 2 + desc.imap_blocks + desc.zmap_blocks
    omega
  other := fun b hb => by
    by_cases hblock : b = firstInodes desc
    · rw [hblock, Function.update_self, Function.update_self]
    · rw [Function.update_of_ne hblock, Function.update_of_ne hblock, h.other b hb]

theorem Maps.firstInodes (h : Maps desc f g d e) :
    e (NeonixFormattedMaps.firstInodes desc) = d (NeonixFormattedMaps.firstInodes desc) :=
  h.other _ (by rw [NeonixFormattedMaps.firstInodes]; omega)

end Stages

/-- The descriptor and the two bitmaps; a device with one inode stops at the second
    `ialloc`. -/
theorem formatMaps_runs (hk : getSuper s dev = some k)
    (hmake : makeDesc (sizes total inodes).inodes (sizes total inodes).zones
      (sizes total inodes).imap_blocks (sizes total inodes).zmap_blocks
      (sizes total inodes).firstdatazone = some desc)
    (hdesc : Describes desc total inodes)
    (hcount : (sizes total inodes).zcount = zoneCount total inodes) (hz : LeavesZone total inodes)
    (hpos : 0 < inodes) (hone : inodes = 1 → ¬ bad (.stopped .assertion)) :
    From bad s (formatMaps dev (sizes total inodes) inodes) fun _ t =>
      MapsOn (redescribe s dev desc) dev desc (tailed desc.imap_blocks (inodes + 1) (below 2))
        (tailed desc.zmap_blocks (zoneCount total inodes) (below 1))
        (Function.update (s.disk dev) 1 (putDesc (s.disk dev 1) (sizes total inodes))) t ∧
      1 < inodes := by
  have hblocks : 0 < desc.imap_blocks := by
    rw [hdesc.imap_eq, imapBlocks]
    omega
  have hzones : 0 < desc.zmap_blocks := by
    have hlt := hz
    rw [LeavesZone, firstZone, zmapBlocks, zoneCount] at hlt
    rw [hdesc.zmap_eq, zmapBlocks, zoneCount]
    omega
  have hfirst : desc.firstdatazone - 1 < desc.zones := by
    have hlt := hz
    rw [LeavesZone] at hlt
    rw [hdesc.first_eq, hdesc.zones_eq]
    omega
  have hk' : getSuper (redescribe s dev desc) dev = some k := (redescribe_getSuper ..).trans hk
  have hsb : ((redescribe s dev desc).super_table k).desc = desc := by
    rw [redescribe_super]
    exact if_pos (getSuper_some hk).2
  refine From.set ?_
  rw [hmake]
  refine From.set ?_
  show From bad (onDisk (redescribe s dev desc) dev
    (Function.update (s.disk dev) 1 (putDesc (s.disk dev 1) (sizes total inodes)))) _ _
  refine From.bind (zeroLoop_runs 2) ?_
  rintro _ _ rfl
  refine From.bind (zeroLoop_runs (2 + desc.imap_blocks)) ?_
  rintro _ _ rfl
  -- one mark by `balloc`, two by `ialloc`
  refine From.bind (balloc_zero hzones hk' hsb hfirst maps_zeroed) ?_
  rintro _ _ ⟨e, rfl, hmaps⟩
  refine From.bind (ialloc_next hblocks hk' hsb (by decide) (fun hno => ?_) hmaps) ?_
  · rw [hdesc.inodes_eq] at hno
    exact absurd hpos hno
  rintro _ _ ⟨⟨e, rfl, hmaps⟩, -⟩
  refine From.bind (ialloc_next hblocks hk' hsb (by decide) (fun hno => ?_) hmaps) ?_
  · rw [hdesc.inodes_eq] at hno
    exact hone (by omega)
  rintro _ _ ⟨⟨e, rfl, hmaps⟩, hmore⟩
  rw [hdesc.inodes_eq] at hmore
  -- the tails
  refine From.bind (fillLast_runs hblocks) ?_
  rintro _ _ rfl
  have hmaps := hmaps.inodeStore (Nat.sub_lt hblocks Nat.one_pos)
    (hmaps.inodeBits.fill (consecutive_imaps desc) (inodes + 1))
  refine (fillLast_runs hzones).post ?_
  rintro _ _ rfl
  rw [hcount, Int.toNat_natCast]
  exact ⟨⟨_, rfl, hmaps.zoneStore (Nat.sub_lt hzones Nat.one_pos)
    (hmaps.zoneBits.fill (consecutive_zmaps desc) _)⟩, hmore⟩

end NeonixFormattedMaps
