import Neonix.Volume
import Mathlib.Tactic.IntervalCases
import Mathlib.Data.Nat.Find

/-! # What `balloc`, `bfree`, `ialloc` and `ifree` do

    Bit `j` of the zone bitmap stands for zone `j + firstdatazone - 1`, bit `j`
    of the inode bitmap for inode `j`.  The allocators agree with that
    numbering on every block.  The two free functions pick the bitmap block by
    the raw index, so `bfree` misses it for the zones between `8192 (i + 1)` and
    `8192 (i + 1) + firstdatazone - 1`, and `ifree` for the multiples of `8192`;
    the limits of the inode functions leave out the last inode, and the length
    `ialloc` scans with runs past the first full block.

    `zoneMapExact_iff` and `inodeMapExact_iff` say exactly on which bitmaps each
    pair works. -/

namespace NeonixAllocators

open NeonixMachine NeonixByteBits NeonixBitmap NeonixVolume

variable {v : Volume}

private theorem block_bits_eq : BLOCK_BITS = 8192 := rfl

/-! ## The zone bitmap -/

/-- Bit `j` of the zone bitmap. -/
def zoneBit (v : Volume) (j : Nat) : Bool := mapBit v (zmaps v.desc) j

/-- The bit of zone `b`. -/
def zoneIdx (sb : SuperDesc) (b : Nat) : Nat := b + 1 - sb.firstdatazone

/-- The bit lies in one of the `zmap_blocks` buffers. -/
def InZoneMap (sb : SuperDesc) (j : Nat) : Prop := j < BLOCK_BITS * sb.zmap_blocks

def IsDataZone (sb : SuperDesc) (b : Nat) : Prop := sb.firstdatazone ≤ b ∧ b < sb.zones

def ZoneUsed (v : Volume) (b : Nat) : Prop :=
  IsDataZone v.desc b ∧ InZoneMap v.desc (zoneIdx v.desc b) ∧ zoneBit v (zoneIdx v.desc b) = true

def ZoneFree (v : Volume) (b : Nat) : Prop :=
  IsDataZone v.desc b ∧ InZoneMap v.desc (zoneIdx v.desc b) ∧ zoneBit v (zoneIdx v.desc b) = false

/-- The free data zone with the smallest number. -/
def LowestFreeZone (v : Volume) (b : Nat) : Prop :=
  ZoneFree v b ∧ ∀ b', ZoneFree v b' → b ≤ b'

/-- Bit 0 and the bits past the last data zone are set. -/
def ZoneTailSet (v : Volume) : Prop :=
  ∀ j, InZoneMap v.desc j → (∀ b, IsDataZone v.desc b → zoneIdx v.desc b ≠ j) →
    zoneBit v j = true

/-- The volume with the bit of zone `b` forced to `x`. -/
def putZone (v : Volume) (b : Nat) (x : Bool) : Volume :=
  mapPut v (zmaps v.desc) (zoneIdx v.desc b) x

/-- The bitmap block and the bit in it that stand for zone `b`. -/
def zonePos (sb : SuperDesc) (b : Nat) : Nat × Nat :=
  ((zmaps sb).block (zoneIdx sb b / BLOCK_BITS), zoneIdx sb b % BLOCK_BITS)

theorem firstdatazone_pos (sb : SuperDesc) : 2 ≤ sb.firstdatazone := by
  have hl := sb.layout
  unfold BLOCK_INODES at hl
  omega

theorem zoneIdx_add {sb : SuperDesc} {b : Nat} (h : sb.firstdatazone ≤ b) :
    zoneIdx sb b + sb.firstdatazone = b + 1 := by
  unfold zoneIdx
  omega

/-- `balloc` takes the first clear bit of the whole zone bitmap. -/
theorem balloc_first_clear {j : Nat} (hj : InZoneMap v.desc j) (hfree : zoneBit v j = false)
    (hset : ∀ i, i < j → zoneBit v i = true) :
    balloc v = (do
      check (j + v.desc.firstdatazone - 1 < v.desc.zones)
      return (some (j + v.desc.firstdatazone - 1), mapPut v (zmaps v.desc) j true)) := by
  have hB := block_bits_eq
  have hmax := v.desc.zmap_le
  have hpos := firstdatazone_pos v.desc
  have hblk : j / BLOCK_BITS < v.desc.zmap_blocks := by
    unfold InZoneMap at hj
    rw [hB] at hj ⊢
    omega
  have hnr : j / BLOCK_BITS + (ZMAP_NR - j / BLOCK_BITS - 1 + 1) = ZMAP_NR := by omega
  have hskip := mapAlloc_skips (v := v) (m := zmaps v.desc) rfl (j / BLOCK_BITS)
    (ZMAP_NR - j / BLOCK_BITS - 1 + 1) 0
    (by rw [Nat.zero_add]; exact Nat.le_of_lt hblk)
    (by
      intro i _ hi
      refine hset i ?_
      rw [hB, Nat.zero_add] at hi
      omega)
  have hdm : j / BLOCK_BITS * BLOCK_BITS + j % BLOCK_BITS = j := by
    rw [hB]
    omega
  have hhere := mapAlloc_here (v := v) (m := zmaps v.desc) (i := j / BLOCK_BITS)
    (k := j % BLOCK_BITS) (ZMAP_NR - j / BLOCK_BITS - 1) (Nat.le_refl _) hblk
    (Nat.mod_lt _ (by rw [hB]; decide))
    (by rw [hdm]; exact hfree)
    (by
      intro k' hk'
      refine hset _ ?_
      omega)
  have hoff : j % BLOCK_BITS + (zmaps v.desc).offset (j / BLOCK_BITS)
      = j + v.desc.firstdatazone - 1 := by
    show j % BLOCK_BITS + (j / BLOCK_BITS * BLOCK_BITS + v.desc.firstdatazone - 1) = _
    omega
  rw [balloc, show (zmaps v.desc).nr = ZMAP_NR from rfl, ← hnr, hskip, Nat.zero_add,
    hhere, hoff, hdm]
  rfl

/-- With every bit of the zone bitmap set, `balloc` runs into the null pointer
    behind the last buffer, or returns `EOF` when all eight are there. -/
theorem balloc_full (hset : ∀ j, InZoneMap v.desc j → zoneBit v j = true) :
    balloc v = if v.desc.zmap_blocks < ZMAP_NR then .error .assertion else .ok (none, v) := by
  have hB := block_bits_eq
  have hmax := v.desc.zmap_le
  have hskip := mapAlloc_skips (v := v) (m := zmaps v.desc) rfl v.desc.zmap_blocks
    (ZMAP_NR - v.desc.zmap_blocks) 0
    (by rw [Nat.zero_add]; exact Nat.le_refl _)
    (by
      intro i _ hi
      refine hset i ?_
      unfold InZoneMap
      rw [Nat.zero_add] at hi
      rw [Nat.mul_comm]
      exact hi)
  rw [show v.desc.zmap_blocks + (ZMAP_NR - v.desc.zmap_blocks) = ZMAP_NR by omega] at hskip
  rw [balloc, show (zmaps v.desc).nr = ZMAP_NR from rfl, hskip]
  by_cases hlt : v.desc.zmap_blocks < ZMAP_NR
  · rw [if_pos hlt, show ZMAP_NR - v.desc.zmap_blocks
      = (ZMAP_NR - v.desc.zmap_blocks - 1) + 1 by omega, mapAlloc_null]
    rw [Nat.zero_add]
    exact Nat.lt_irrefl _
  · rw [if_neg hlt, show ZMAP_NR - v.desc.zmap_blocks = 0 by omega]
    rfl

/-- Which bits below that of a lowest free zone are clear: none. -/
private theorem set_below_lowest (ht : ZoneTailSet v) {b : Nat} (h : LowestFreeZone v b) :
    ∀ i, i < zoneIdx v.desc b → zoneBit v i = true := by
  intro i hi
  by_contra hclear
  have hin : InZoneMap v.desc i := Nat.lt_trans hi h.1.2.1
  have hzone : ∃ b', IsDataZone v.desc b' ∧ zoneIdx v.desc b' = i := by
    by_contra hno
    refine hclear (ht i hin ?_)
    intro b' hb' heq
    exact hno ⟨b', hb', heq⟩
  obtain ⟨b', hb', rfl⟩ := hzone
  have hle : b ≤ b' := h.2 b' ⟨hb', hin, by simpa using hclear⟩
  unfold zoneIdx at hi
  omega

/-- `balloc` hands out the lowest free data zone and marks exactly it. -/
theorem balloc_lowest (ht : ZoneTailSet v) {b : Nat} (h : LowestFreeZone v b) :
    balloc v = .ok (some b, putZone v b true) := by
  have hadd := zoneIdx_add h.1.1.1
  have hb : zoneIdx v.desc b + v.desc.firstdatazone - 1 = b := by omega
  rw [balloc_first_clear h.1.2.1 h.1.2.2 (set_below_lowest ht h), hb, check_pos h.1.1.2]
  rfl

/-- A free data zone leaves a lowest one. -/
theorem exists_lowest {b : Nat} (h : ZoneFree v b) : ∃ b', LowestFreeZone v b' := by
  classical
  have hex : ∃ n, ZoneFree v n := ⟨b, h⟩
  exact ⟨Nat.find hex, Nat.find_spec hex, fun b' hb' => Nat.find_min' hex hb'⟩

/-- The block `bfree` picks is the one `b`'s bit lies in. -/
def BfreeHits (sb : SuperDesc) (b : Nat) : Prop :=
  (b - 1) / BLOCK_BITS = zoneIdx sb b / BLOCK_BITS

theorem bfree_eq {b : Nat} (hb : b < v.desc.zones) :
    bfree v b = mapClear v (zmaps v.desc) b ((b - 1) / BLOCK_BITS) := by
  have hB := block_bits_eq
  have hz := v.desc.zones_le
  rw [bfree, check_pos hb, bind_ok]
  refine mapFree_eq ?_
  show (b - 1) / BLOCK_BITS < 8
  rw [hB]
  omega

/-- `bfree` clears the bit of a used zone whose bitmap block it hits. -/
theorem bfree_hit {b : Nat} (h : ZoneUsed v b) (hit : BfreeHits v.desc b) :
    bfree v b = .ok (putZone v b false) := by
  have hB := block_bits_eq
  have hadd := zoneIdx_add h.1.1
  have hpos := firstdatazone_pos v.desc
  have hin := h.2.1
  unfold InZoneMap at hin
  have hdm : zoneIdx v.desc b / BLOCK_BITS * BLOCK_BITS + zoneIdx v.desc b % BLOCK_BITS
      = zoneIdx v.desc b := by
    rw [hB]
    omega
  have hoff : (zmaps v.desc).offset (zoneIdx v.desc b / BLOCK_BITS)
      + zoneIdx v.desc b % BLOCK_BITS = b := by
    show zoneIdx v.desc b / BLOCK_BITS * BLOCK_BITS + v.desc.firstdatazone - 1
      + zoneIdx v.desc b % BLOCK_BITS = b
    omega
  have hclear := mapClear_ok (v := v) (m := zmaps v.desc)
    (i := zoneIdx v.desc b / BLOCK_BITS) (k := zoneIdx v.desc b % BLOCK_BITS)
    (by show _ < v.desc.zmap_blocks; rw [hB] at hin ⊢; omega)
    (Nat.mod_lt _ (by rw [hB]; decide)) (Nat.le_refl _)
    (by rw [hdm]; exact h.2.2)
  rw [hoff, hdm] at hclear
  rw [bfree_eq h.1.2, hit, hclear]
  rfl

/-- `bfree` stops at the assertion of `bitmap_test` when it picks a later
    bitmap block than the one the zone's bit lies in. -/
theorem bfree_miss {b : Nat} (hb : IsDataZone v.desc b) (miss : ¬ BfreeHits v.desc b) :
    bfree v b = .error .assertion := by
  have hB := block_bits_eq
  have hadd := zoneIdx_add hb.1
  have hpos := firstdatazone_pos v.desc
  rw [bfree_eq hb.2]
  apply mapClear_below
  show b < (b - 1) / BLOCK_BITS * BLOCK_BITS + v.desc.firstdatazone - 1
  unfold BfreeHits at miss
  rw [hB] at miss ⊢
  omega

/-- `balloc` and `bfree` are exact inverses on the zone bitmap. -/
structure ZoneMapExact (v : Volume) : Prop where
  /-- with a free zone, `balloc` returns a free zone and sets exactly its bit -/
  alloc : (∃ b, ZoneFree v b) → ∃ b v', balloc v = .ok (some b, v') ∧ ZoneFree v b ∧
    ChangesExactly v v' (zonePos v.desc b).1 (zonePos v.desc b).2 true
  /-- `bfree` of a used zone clears exactly its bit -/
  free : ∀ b, ZoneUsed v b → ∃ v', bfree v b = .ok v' ∧
    ChangesExactly v v' (zonePos v.desc b).1 (zonePos v.desc b).2 false
  /-- `bfree(balloc())` restores every block -/
  inverse : ∀ b v', balloc v = .ok (some b, v') → bfree v' b = .ok v

private theorem zoneUsed_putZone {b : Nat} (h : ZoneFree v b) :
    ZoneUsed (putZone v b true) b := by
  refine ⟨h.1, h.2.1, ?_⟩
  exact mapBit_mapPut_self v (zmaps v.desc) (zoneIdx v.desc b) true

/-- The pair works on a bitmap exactly when `bfree` hits the bitmap block of
    every used zone and of the zone `balloc` would hand out. -/
theorem zoneMapExact_iff (ht : ZoneTailSet v) :
    ZoneMapExact v ↔
      ∀ b, ZoneUsed v b ∨ LowestFreeZone v b → BfreeHits v.desc b := by
  constructor
  · intro h b hb
    by_contra miss
    rcases hb with hused | hlow
    · obtain ⟨v', hv', -⟩ := h.free b hused
      rw [bfree_miss hused.1 miss] at hv'
      cases hv'
    · have hinv := h.inverse b _ (balloc_lowest ht hlow)
      rw [bfree_miss (v := putZone v b true) hlow.1.1 miss] at hinv
      cases hinv
  · intro hit
    refine ⟨?_, ?_, ?_⟩
    · rintro ⟨b₀, hb₀⟩
      obtain ⟨b, hb⟩ := exists_lowest hb₀
      refine ⟨b, _, balloc_lowest ht hb, hb.1, ?_⟩
      exact mapPut_changesExactly hb.1.2.2
    · intro b hb
      exact ⟨_, bfree_hit hb (hit b (Or.inl hb)), mapPut_changesExactly hb.2.2⟩
    · intro b v' hv'
      by_cases hex : ∃ b₀, ZoneFree v b₀
      · obtain ⟨b₀, hb₀⟩ := hex
        obtain ⟨b₁, hb₁⟩ := exists_lowest hb₀
        have heq := (balloc_lowest ht hb₁).symm.trans hv'
        obtain ⟨rfl, rfl⟩ : b₁ = b ∧ putZone v b₁ true = v' := by
          have hpair := Except.ok.inj heq
          exact ⟨Option.some.inj (congrArg Prod.fst hpair), congrArg Prod.snd hpair⟩
        rw [bfree_hit (zoneUsed_putZone hb₁.1) (hit b₁ (Or.inr hb₁))]
        exact congrArg Except.ok (mapPut_mapPut_clear hb₁.1.2.2)
      · have hset : ∀ j, InZoneMap v.desc j → zoneBit v j = true := by
          intro j hj
          by_contra hclear
          refine hclear (ht j hj ?_)
          intro b' hb' hidx
          subst hidx
          exact hex ⟨b', hb', hj, by simpa using hclear⟩
        rw [balloc_full hset] at hv'
        split at hv' <;> cases hv'

/-- A formatted volume of 16384 blocks with two zone bitmap blocks. -/
def twoMapDesc : SuperDesc where
  inodes := 96
  zones := 16384
  imap_blocks := 1
  zmap_blocks := 2
  firstdatazone := 8
  inodes_le := by decide
  zones_le := by decide
  imap_le := by decide
  zmap_le := by decide
  layout := by decide

/-- The volume whose every bit is set: no zone and no inode is free. -/
def fullVolume (sb : SuperDesc) : Volume := { desc := sb, disk := fun _ _ => 0xFF#8 }

theorem mapBit_full (sb : SuperDesc) (m : BlockMap) (k : Nat) :
    mapBit (fullVolume sb) m k = true := by
  show (0xFF#8).getLsbD (k % BLOCK_BITS % 8) = true
  have hk : k % BLOCK_BITS % 8 < 8 := Nat.mod_lt _ (by decide)
  interval_cases k % BLOCK_BITS % 8 <;> rfl

/-- On the full volume every data zone below 8200 is used, and zone 8193 cannot
    be freed: its bit lies in the first bitmap block, `bfree` picks the
    second. -/
theorem bfree_stops_at_8193 :
    ZoneTailSet (fullVolume twoMapDesc) ∧ ZoneUsed (fullVolume twoMapDesc) 8193 ∧
      bfree (fullVolume twoMapDesc) 8193 = .error .assertion ∧
      ¬ ZoneMapExact (fullVolume twoMapDesc) := by
  have hused : ZoneUsed (fullVolume twoMapDesc) 8193 :=
    ⟨by constructor <;> decide, by show (8186 : Nat) < 8192 * 2; decide, mapBit_full _ _ _⟩
  have hstop : bfree (fullVolume twoMapDesc) 8193 = .error .assertion :=
    bfree_miss hused.1 (by show ¬ (8192 / 8192 = 8186 / 8192); decide)
  refine ⟨fun j _ _ => mapBit_full _ _ _, hused, hstop, ?_⟩
  intro h
  obtain ⟨v', hv', -⟩ := h.free 8193 hused
  rw [hstop] at hv'
  cases hv'

/-- A volume of 64 blocks with one zone bitmap block. -/
def oneMapDesc : SuperDesc where
  inodes := 32
  zones := 64
  imap_blocks := 1
  zmap_blocks := 1
  firstdatazone := 5
  inodes_le := by decide
  zones_le := by decide
  imap_le := by decide
  zmap_le := by decide
  layout := by decide

theorem zoneMapExact_oneMap : ZoneMapExact (fullVolume oneMapDesc) := by
  refine (zoneMapExact_iff (fun j _ _ => mapBit_full _ _ _)).mpr ?_
  intro b hb
  have hz : b < 64 := by
    rcases hb with h | h
    · exact h.1.2
    · exact h.1.1.2
  show (b - 1) / 8192 = (b + 1 - 5) / 8192
  omega

/-! ## The inode bitmap -/

/-- Bit `n` of the inode bitmap, the bit of inode `n`. -/
def inodeBit (v : Volume) (n : Nat) : Bool := mapBit v (imaps v.desc) n

/-- The bit lies in one of the `imap_blocks` buffers. -/
def InInodeMap (sb : SuperDesc) (n : Nat) : Prop := n < BLOCK_BITS * sb.imap_blocks

def IsInode (sb : SuperDesc) (n : Nat) : Prop := 1 ≤ n ∧ n ≤ sb.inodes

def InodeUsed (v : Volume) (n : Nat) : Prop :=
  IsInode v.desc n ∧ InInodeMap v.desc n ∧ inodeBit v n = true

def InodeFree (v : Volume) (n : Nat) : Prop :=
  IsInode v.desc n ∧ InInodeMap v.desc n ∧ inodeBit v n = false

/-- The free inode with the smallest number. -/
def LowestFreeInode (v : Volume) (n : Nat) : Prop :=
  InodeFree v n ∧ ∀ n', InodeFree v n' → n ≤ n'

/-- Bit 0 and the bits above `inodes` are set. -/
def InodeTailSet (v : Volume) : Prop :=
  ∀ n, InInodeMap v.desc n → ¬ IsInode v.desc n → inodeBit v n = true

/-- The volume with the bit of inode `n` forced to `x`. -/
def putInode (v : Volume) (n : Nat) (x : Bool) : Volume := mapPut v (imaps v.desc) n x

/-- The bitmap block and the bit in it that stand for inode `n`. -/
def inodePos (sb : SuperDesc) (n : Nat) : Nat × Nat :=
  ((imaps sb).block (n / BLOCK_BITS), n % BLOCK_BITS)

private theorem inode_set_below (ht : InodeTailSet v) {n : Nat} (h : LowestFreeInode v n) :
    ∀ i, i < n → inodeBit v i = true := by
  intro i hi
  by_contra hclear
  have hin : InInodeMap v.desc i := Nat.lt_trans hi h.1.2.1
  have hinode : IsInode v.desc i := by
    by_contra hno
    exact hclear (ht i hin hno)
  have hle : n ≤ i := h.2 i ⟨hinode, hin, by simpa using hclear⟩
  omega

/-- Where the lowest free inode lies in the first bitmap block, `ialloc` finds
    it, and the assertion that it is below `inodes` decides. -/
theorem ialloc_first_block (ht : InodeTailSet v) {n : Nat} (h : LowestFreeInode v n)
    (hn : n < BLOCK_BITS) :
    ialloc v = (do check (n < v.desc.inodes); return (some n, putInode v n true)) := by
  have hB := block_bits_eq
  have hblk : 0 < v.desc.imap_blocks := by
    have hin := h.1.2.1
    simp only [InInodeMap, hB] at hin
    omega
  have hhere := mapAlloc_here (v := v) (m := imaps v.desc) (i := 0) (k := n)
    (IMAP_NR - 1) (by show BLOCK_SIZE ≤ BLOCK_BITS; decide) hblk hn
    (by rw [Nat.zero_mul, Nat.zero_add]; exact h.1.2.2)
    (by
      intro k' hk'
      rw [Nat.zero_mul, Nat.zero_add]
      exact inode_set_below ht h k' hk')
  have hoff : n + (imaps v.desc).offset 0 = n := by
    show n + 0 * BLOCK_BITS = n
    omega
  rw [hoff, Nat.zero_mul, Nat.zero_add] at hhere
  exact hhere

/-- Once the first bitmap block is full, `ialloc` scans past its buffer. -/
theorem ialloc_past (hblk : 0 < v.desc.imap_blocks)
    (hfull : ∀ n, n < BLOCK_BITS → inodeBit v n = true) : ialloc v = .error .outOfBounds := by
  refine mapAlloc_past (v := v) (m := imaps v.desc) (IMAP_NR - 1)
    (by show BLOCK_SIZE < BLOCK_BITS; decide) hblk ?_
  intro k hk
  rw [Nat.zero_mul, Nat.zero_add]
  exact hfull k hk

/-- `ialloc` hands out the lowest free inode when that is neither the last one
    nor past the first bitmap block. -/
theorem ialloc_lowest (ht : InodeTailSet v) {n : Nat} (h : LowestFreeInode v n)
    (hlast : n < v.desc.inodes) (hn : n < BLOCK_BITS) :
    ialloc v = .ok (some n, putInode v n true) := by
  rw [ialloc_first_block ht h hn, check_pos hlast, bind_ok]
  rfl

theorem ifree_eq {n : Nat} (hn : n < v.desc.inodes) :
    ifree v n = mapClear v (imaps v.desc) n ((n - 1) / BLOCK_BITS) := by
  have hB := block_bits_eq
  have hz := v.desc.inodes_le
  rw [ifree, check_pos hn, bind_ok]
  refine mapFree_eq ?_
  show (n - 1) / BLOCK_BITS < 8
  rw [hB]
  omega

/-- `ifree` clears the bit of a used inode that is neither the last one nor the
    first of a later bitmap block. -/
theorem ifree_hit {n : Nat} (h : InodeUsed v n) (hlast : n < v.desc.inodes)
    (hmul : ¬ BLOCK_BITS ∣ n) : ifree v n = .ok (putInode v n false) := by
  have hB := block_bits_eq
  have hin := h.2.1
  have hpos := h.1.1
  simp only [InInodeMap, hB] at hin
  rw [hB] at hmul
  have hdm : n / BLOCK_BITS * BLOCK_BITS + n % BLOCK_BITS = n := by
    rw [hB]
    omega
  have hoff : (imaps v.desc).offset (n / BLOCK_BITS) + n % BLOCK_BITS = n := hdm
  have hclear := mapClear_ok (v := v) (m := imaps v.desc) (i := n / BLOCK_BITS)
    (k := n % BLOCK_BITS) (by show _ < v.desc.imap_blocks; rw [hB]; omega)
    (Nat.mod_lt _ (by rw [hB]; decide)) (by show BLOCK_SIZE ≤ BLOCK_BITS; decide)
    (by rw [hdm]; exact h.2.2)
  rw [hoff, hdm] at hclear
  have hraw : (n - 1) / BLOCK_BITS = n / BLOCK_BITS := by
    rw [hB]
    omega
  rw [ifree_eq hlast, hraw, hclear]
  rfl

/-- `ifree` of the first inode of a later bitmap block reads past the buffer of
    the block before. -/
theorem ifree_past {n : Nat} (h : InodeUsed v n) (hlast : n < v.desc.inodes)
    (hmul : BLOCK_BITS ∣ n) : ifree v n = .error .outOfBounds := by
  have hB := block_bits_eq
  have hin := h.2.1
  have hpos := h.1.1
  simp only [InInodeMap, hB] at hin
  rw [hB] at hmul
  have hoff : (imaps v.desc).offset ((n - 1) / BLOCK_BITS) + BLOCK_BITS = n := by
    show (n - 1) / BLOCK_BITS * BLOCK_BITS + BLOCK_BITS = n
    rw [hB]
    omega
  have hpast := mapClear_past (v := v) (m := imaps v.desc) (i := (n - 1) / BLOCK_BITS)
    (k := BLOCK_BITS) (by show _ < v.desc.imap_blocks; rw [hB]; omega) (Nat.le_refl _)
    (by show BLOCK_BITS / 8 < BLOCK_BITS; decide)
  rw [hoff] at hpast
  rw [ifree_eq hlast, hpast]

/-- `ialloc` and `ifree` manage exactly the inodes `1 .. inodes`. -/
structure InodeMapExact (v : Volume) : Prop where
  /-- with a free inode, `ialloc` returns the smallest and sets exactly its bit -/
  alloc : ∀ n, LowestFreeInode v n → ∃ v', ialloc v = .ok (some n, v') ∧
    ChangesExactly v v' (inodePos v.desc n).1 (inodePos v.desc n).2 true
  /-- `ifree` of a used inode clears exactly its bit -/
  free : ∀ n, InodeUsed v n → ∃ v', ifree v n = .ok v' ∧
    ChangesExactly v v' (inodePos v.desc n).1 (inodePos v.desc n).2 false

/-- The pair works on a bitmap exactly when the smallest free inode is not the
    last one and lies in the first bitmap block, and no used inode is the last
    one or a multiple of `8192`. -/
theorem inodeMapExact_iff (ht : InodeTailSet v) :
    InodeMapExact v ↔
      (∀ n, LowestFreeInode v n → n < v.desc.inodes ∧ n < BLOCK_BITS) ∧
      (∀ n, InodeUsed v n → n < v.desc.inodes ∧ ¬ BLOCK_BITS ∣ n) := by
  constructor
  · intro h
    refine ⟨?_, ?_⟩
    · intro n hn
      obtain ⟨v', hv', -⟩ := h.alloc n hn
      by_cases hfirst : n < BLOCK_BITS
      · rw [ialloc_first_block ht hn hfirst] at hv'
        obtain ⟨_, hcheck, -⟩ := bind_eq_ok hv'
        exact ⟨of_check hcheck, hfirst⟩
      · exfalso
        have hblk : 0 < v.desc.imap_blocks := by
          have hin := hn.1.2.1
          simp only [InInodeMap, block_bits_eq] at hin
          omega
        rw [ialloc_past hblk (fun i hi => inode_set_below ht hn i (by omega))] at hv'
        cases hv'
    · intro n hn
      obtain ⟨v', hv', -⟩ := h.free n hn
      have hlast : n < v.desc.inodes := by
        obtain ⟨_, hcheck, -⟩ := bind_eq_ok hv'
        exact of_check hcheck
      refine ⟨hlast, ?_⟩
      intro hmul
      rw [ifree_past hn hlast hmul] at hv'
      cases hv'
  · rintro ⟨halloc, hfree⟩
    refine ⟨?_, ?_⟩
    · intro n hn
      obtain ⟨hlast, hfirst⟩ := halloc n hn
      exact ⟨_, ialloc_lowest ht hn hlast hfirst, mapPut_changesExactly hn.1.2.2⟩
    · intro n hn
      obtain ⟨hlast, hmul⟩ := hfree n hn
      exact ⟨_, ifree_hit hn hlast hmul, mapPut_changesExactly hn.2.2⟩

/-- On the full volume the last inode cannot be freed: `ifree` asserts that its
    number is below `inodes`. -/
theorem ifree_stops_at_last :
    InodeTailSet (fullVolume twoMapDesc) ∧ InodeUsed (fullVolume twoMapDesc) 96 ∧
      ifree (fullVolume twoMapDesc) 96 = .error .assertion ∧
      ¬ InodeMapExact (fullVolume twoMapDesc) := by
  have hused : InodeUsed (fullVolume twoMapDesc) 96 :=
    ⟨by constructor <;> decide, by show (96 : Nat) < 8192 * 1; decide, mapBit_full _ _ _⟩
  have hstop : ifree (fullVolume twoMapDesc) 96 = .error .assertion := by
    rw [ifree, check_neg (by decide), bind_error]
  refine ⟨fun j _ _ => mapBit_full _ _ _, hused, hstop, ?_⟩
  intro h
  obtain ⟨v', hv', -⟩ := h.free 96 hused
  rw [hstop] at hv'
  cases hv'

/-- The volume whose only clear bits are those of the inodes from 3 on. -/
def thirdFree : Volume where
  desc := oneMapDesc
  disk := fun b n => if b = 2 then if n = 0 then 0x07#8 else if n < 4 then 0x00#8
    else if n = 4 then 0xFE#8 else 0xFF#8 else 0xFF#8

private theorem thirdFree_bit {n : Nat} (hn : n < 8192) :
    inodeBit thirdFree n = decide (n < 3 ∨ 32 < n) := by
  have hd : n / BLOCK_BITS = 0 := by
    rw [block_bits_eq]
    omega
  have hm : n % BLOCK_BITS = n := by
    rw [block_bits_eq]
    omega
  have hbyte : inodeBit thirdFree n = (thirdFree.disk 2 (n / 8)).getLsbD (n % 8) := by
    rw [inodeBit, mapBit, hd, hm]
    rfl
  rw [hbyte]
  by_cases hlow : n < 40
  · interval_cases n <;> rfl
  · have hb : thirdFree.disk 2 (n / 8) = 0xFF#8 := by
      show (if n / 8 = 0 then _ else _) = _
      rw [if_neg (by omega), if_neg (by omega), if_neg (by omega)]
    have hk : n % 8 < 8 := Nat.mod_lt _ (by decide)
    rw [hb]
    simp only [show n < 3 ∨ 32 < n by omega, decide_true]
    interval_cases n % 8 <;> rfl

theorem inodeMapExact_thirdFree : InodeMapExact thirdFree := by
  have htail : InodeTailSet thirdFree := by
    intro n hin hno
    have hn : n < 8192 := hin
    rw [thirdFree_bit hn, decide_eq_true_eq]
    by_contra hc
    exact hno ⟨by omega, by show n ≤ 32; omega⟩
  refine (inodeMapExact_iff htail).mpr ⟨?_, ?_⟩
  · intro n hn
    have h3 : InodeFree thirdFree 3 :=
      ⟨by constructor <;> decide, by show (3 : Nat) < 8192 * 1; decide,
        by rw [thirdFree_bit (by decide)]; rfl⟩
    have hle := hn.2 3 h3
    exact ⟨by show n < 32; omega, by rw [block_bits_eq]; omega⟩
  · intro n hn
    have hin : n < 8192 := hn.2.1
    have hle : n ≤ 32 := hn.1.2
    have hpos := hn.1.1
    have hbit := hn.2.2
    rw [thirdFree_bit hin, decide_eq_true_eq] at hbit
    exact ⟨by show n < 32; omega, by rw [block_bits_eq]; omega⟩

end NeonixAllocators
