import Neonix.FormattedRoot

/-! # What `devmkfs` leaves

    A device is an empty file system (`Formatted`) after `devmkfs` if and only if the
    tail of neither bitmap begins in a byte with marks or in a block of its own, one
    block holds the zone bitmap, and the device had no zones where the root inode
    comes to be (`Fits`). -/

namespace NeonixFormattedDevices

open NeonixMachine NeonixByteBits NeonixWords NeonixVolume NeonixAllocators NeonixCalls
  NeonixFileSystem NeonixNamei NeonixDirectories NeonixBlockTrees NeonixNewEntries NeonixMounts
  NeonixReferenceCounts NeonixFormattedMaps NeonixFormattedRoot

variable {s t : Kernel} {desc : SuperDesc} {dev : Dev} {d e : Nat → Bytes} {g : Nat → Bool}
  {b block total inodes : Nat} {data : Bytes} {task : Task} {time : BitVec 32}

/-! ## An empty file system -/

/-- The descriptor of inode `nr`. -/
def inodeBytes (v : Volume) (nr : Nat) : Bytes := fun k =>
  v.disk (inodeBlock v.desc nr) (32 * ((nr - 1) % BLOCK_INODES) + k)

/-- The regions of a device, from a block up to another. -/
def regions (desc : SuperDesc) (firstdatazone : Nat) : List (Nat × Nat) :=
  let imaps := 2 + desc.imap_blocks
  let inodes := imaps + desc.zmap_blocks
  [(0, 1), (1, 2), (2, imaps), (imaps, inodes),
  (inodes, inodes + (desc.inodes + 31) / BLOCK_INODES),
    (firstdatazone, desc.zones)]

/-- The root directory is a directory of one block, with `.` and `..` and nothing
    else. -/
structure RootDirectory (v : Volume) (block : Nat) : Prop where
  directory : ISDIR (u16At (inodeBytes v 1) 0)
  size : u32At (inodeBytes v 1) 4 = 32
  zone : (u16At (inodeBytes v 1) 14).toNat = block
  alone : ∀ i, 1 ≤ i → i < 9 → u16At (inodeBytes v 1) (14 + 2 * i) = 0
  dataZone : IsDataZone v.desc block
  dot : u16At (v.disk block) 0 = 1 ∧ stringAt (fun k => v.disk block (2 + k)) NAME_LEN = [0x2E]
  dotdot : u16At (v.disk block) 16 = 1 ∧
    stringAt (fun k => v.disk block (18 + k)) NAME_LEN = [0x2E, 0x2E]
  rest : ∀ o, 32 ≤ o → o < BLOCK_SIZE → v.disk block o = 0

/-- An empty file system with a root directory in `block`. -/
structure Holds (d : Nat → Bytes) (total inodes : Nat) (desc : SuperDesc) (block : Nat) : Prop where
  super : readDesc (d 1) = some desc
  magic : u16At (d 1) 16 = MINIX1_MAGIC
  inodes_eq : desc.inodes = inodes
  zones_eq : desc.zones = total
  apart : (regions desc (u16At (d 1) 8).toNat).Pairwise fun r r' => r.2 ≤ r'.1
  inodeMap : ∀ b, b < desc.imap_blocks * BLOCK_BITS ∧
    mapBit { desc := desc, disk := d } (imaps desc) b = false ↔ 2 ≤ b ∧ b ≤ inodes
  zoneMap : ∀ b, b < desc.zmap_blocks * BLOCK_BITS ∧
    zoneBit { desc := desc, disk := d } b = false ↔
      ∃ z, IsDataZone desc z ∧ z ≠ block ∧ zoneIdx desc z = b
  root : RootDirectory { desc := desc, disk := d } block

def Formatted (d : Nat → Bytes) (total inodes : Nat) : Prop :=
  ∃ desc block, Holds d total inodes desc block

/-- When `devmkfs` leaves an empty file system. -/
structure Fits (d : Nat → Bytes) (total inodes : Nat) : Prop where
  /-- the tail of the inode bitmap begins behind the byte with the marks -/
  few : 7 ≤ inodes
  /-- and not in a block of its own -/
  inodeTail : inodes % 8192 ≠ 0 ∧ inodes % 8192 ≠ 8191
  /-- so does that of the zone bitmap, which is one block -/
  zoneTail : 8 ≤ zoneCount total inodes ∧ zoneCount total inodes < 8192
  /-- the zones of inode 1 -/
  clean : ∀ o, 14 ≤ o → o < 32 → d (2 + imapBlocks inodes + zmapBlocks total inodes) o = 0

/-! ## The tails of the bitmaps -/

theorem tailed_clear {blocks count m j : Nat} : tailed blocks count (below m) j = false ↔
    (j / 8192 = blocks - 1 → j % 8192 < count % 8192 ∧
      (j % 8192 / 8 = count % 8192 / 8 ∨ m ≤ j)) ∧ (j / 8192 ≠ blocks - 1 → m ≤ j) := by
  have hB : BLOCK_BITS = 8192 := rfl
  have hbelow : below m j = false ↔ m ≤ j := by
    rw [below, decide_eq_false_iff_not]
    omega
  rw [tailed, hB]
  split_ifs with hlast htail hbyte
  · exact ⟨by rintro ⟨⟩, fun h => absurd (h.1 hlast).1 (by omega)⟩
  · exact ⟨fun _ => ⟨fun _ => ⟨by omega, .inl hbyte⟩, fun h => absurd hlast h⟩, fun _ => rfl⟩
  · rw [hbelow]
    exact ⟨fun h => ⟨fun _ => ⟨by omega, .inr h⟩, fun _ => h⟩,
      fun h => (h.1 hlast).2.resolve_left hbyte⟩
  · rw [hbelow]
    exact ⟨fun h => ⟨fun hj => absurd hj hlast, fun _ => h⟩, fun h => h.2 hlast⟩

/-- The inode bitmap has clear exactly the bits of the free inodes. -/
theorem inodeTail_exact (hmore : 1 < inodes) :
    (∀ b, b < imapBlocks inodes * 8192 ∧ NeonixFormattedRoot.inodeTail inodes b = false ↔
      2 ≤ b ∧ b ≤ inodes) ↔ 7 ≤ inodes ∧ inodes % 8192 ≠ 0 ∧ inodes % 8192 ≠ 8191 := by
  simp only [NeonixFormattedRoot.inodeTail, tailed_clear, imapBlocks]
  constructor
  · intro h
    have h0 := h 0
    have hlast := h inodes
    have hbefore := h (inodes - 1)
    refine ⟨?_, ?_, ?_⟩
    · by_contra hno
      omega
    · intro hno
      omega
    · intro hno
      omega
  · rintro ⟨hfew, hzero, hfull⟩ b
    constructor
    · omega
    · omega

/-- The zone bitmap has clear exactly the bits of the free zones. -/
def ZonesExact (total inodes block : Nat) (g : Nat → Bool) : Prop :=
  ∀ b, b < zmapBlocks total inodes * 8192 ∧ g b = false ↔
    ∃ z, firstZone total inodes ≤ z ∧ z < total ∧ z ≠ block ∧ z + 1 - firstZone total inodes = b

theorem zoneTail_clear {j : Nat} : NeonixFormattedRoot.zoneTail total inodes j = false ↔
    (j / 8192 = zmapBlocks total inodes - 1 → j % 8192 < zoneCount total inodes % 8192 ∧
      (j % 8192 / 8 = zoneCount total inodes % 8192 / 8 ∨ 1 ≤ j)) ∧
    (j / 8192 ≠ zmapBlocks total inodes - 1 → 1 ≤ j) := tailed_clear

section Zones

variable (ht : total ≤ 65535) (hz : LeavesZone total inodes)
include hz

/-- The last zone has the bit `zones - firstdatazone`. -/
theorem zone_span : firstZone total inodes + zoneCount total inodes =
    total + zmapBlocks total inodes ∧ zmapBlocks total inodes < zoneCount total inodes := by
  rw [LeavesZone] at hz
  rw [firstZone, zmapBlocks, zoneCount] at *
  omega

include ht in
/-- A full last block stands for zones the device has. -/
theorem not_multiple (hexact : ZonesExact total inodes block g)
    (hset : ∀ b, NeonixFormattedRoot.zoneTail total inodes b = true → g b = true) :
    zoneCount total inodes % 8192 ≠ 0 := by
  intro hzero
  obtain ⟨hspan, hless⟩ := zone_span hz
  have hfull : ∀ b, b / 8192 = zmapBlocks total inodes - 1 → g b = true := by
    intro b hb
    refine hset b (Bool.eq_true_of_not_eq_false fun hclear => ?_)
    have hin := ((zoneTail_clear.mp hclear).1 hb).1
    omega
  have hblocks : zmapBlocks total inodes = (zoneCount total inodes + 8191) / 8192 := rfl
  have hmax : zoneCount total inodes ≤ total := Nat.sub_le ..
  -- one of the last two zones is not the root directory's
  have hzone : ∃ z, firstZone total inodes ≤ z ∧ z < total ∧ z ≠ block ∧
      (z + 1 - firstZone total inodes) / 8192 = zmapBlocks total inodes - 1 := by
    by_cases hlast : total - 1 = block
    · exact ⟨total - 2, by omega, by omega, by omega, by omega⟩
    · exact ⟨total - 1, by omega, by omega, hlast, by omega⟩
  obtain ⟨z, hlo, hhi, hne, hbit⟩ := hzone
  have hclear := ((hexact (z + 1 - firstZone total inodes)).mpr ⟨z, hlo, hhi, hne, rfl⟩).2
  rw [hfull _ hbit] at hclear
  cases hclear

omit hz in
/-- In front of the tail only bit 0 is set. -/
theorem tail_inside {j : Nat} (hmult : zoneCount total inodes % 8192 ≠ 0) (hj : 1 ≤ j)
    (hlt : j < zoneCount total inodes) : NeonixFormattedRoot.zoneTail total inodes j = false := by
  have hblocks : zmapBlocks total inodes = (zoneCount total inodes + 8191) / 8192 := rfl
  refine zoneTail_clear.mpr ⟨fun hlast => ⟨?_, .inr hj⟩, fun _ => hj⟩
  omega

include ht in
/-- What an exact zone bitmap says of the device. -/
theorem rooted_fits {data' : Bytes}
    (hroot : Rooted desc (NeonixFormattedRoot.zoneTail total inodes) data g data' block)
    (hfirst : desc.firstdatazone = firstZone total inodes)
    (hblock : firstZone total inodes ≤ block ∧ block < total)
    (hexact : ZonesExact total inodes block g) :
    u16At data 14 = 0 ∧ (8 ≤ zoneCount total inodes ∧ zoneCount total inodes < 8192) ∧
      data' = putU16 data 14 (BitVec.ofNat 16 block) := by
  obtain ⟨hspan, hless⟩ := zone_span hz
  have hblocks : zmapBlocks total inodes = (zoneCount total inodes + 8191) / 8192 := rfl
  cases hroot with
  | stale hzone =>
      -- the zone from before the call is not marked
      have hmult := not_multiple ht hz hexact fun _ h => h
      have hclear : NeonixFormattedRoot.zoneTail total inodes
          ((u16At data 14).toNat + 1 - firstZone total inodes) = false :=
        tail_inside hmult (by omega) (by omega)
      obtain ⟨z, hlo, -, hne, hbit⟩ := (hexact _).mp ⟨by omega, hclear⟩
      exact absurd (by omega) hne
  | taken hzone r hr hclear hset hlimit =>
      have hmult := not_multiple ht hz hexact fun b hb => by
        by_cases hbr : b = r
        · rw [hbr, Function.update_self]
        · rw [Function.update_of_ne hbr, hb]
      have hpos := firstdatazone_pos desc
      rw [hfirst] at hblock hpos
      -- bit 0 is set, so the tail is behind the first byte
      have hfew : 8 ≤ zoneCount total inodes := by
        by_contra hno
        have hzero : NeonixFormattedRoot.zoneTail total inodes 0 = false ↔ _ := zoneTail_clear
        rw [hset 0 (by omega)] at hzero
        exact Bool.noConfusion (hzero.mpr ⟨fun _ => ⟨by omega, .inl (by omega)⟩, fun _ => by omega⟩)
      refine ⟨hzone, ⟨hfew, ?_⟩, rfl⟩
      -- the last bit in front of the tail is that of a zone
      by_contra hmany
      have hr1 : r ≤ 1 := by
        by_contra hno
        have hone := hset 1 (by omega)
        rw [tail_inside hmult Nat.le.refl (by omega)] at hone
        cases hone
      have hlast : Function.update (NeonixFormattedRoot.zoneTail total inodes) r true
          (zoneCount total inodes - 1) = false := by
        rw [Function.update_of_ne (by omega)]
        exact tail_inside hmult (by omega) (by omega)
      obtain ⟨z, hlo, hhi, -, hbit⟩ := (hexact _).mp ⟨by omega, hlast⟩
      omega

/-- The zone bitmap of a device with one block for it. -/
theorem rooted_exact {data' : Bytes}
    (hroot : Rooted desc (NeonixFormattedRoot.zoneTail total inodes) data g data' block)
    (hfirst : desc.firstdatazone = firstZone total inodes)
    (hcount : 8 ≤ zoneCount total inodes ∧ zoneCount total inodes < 8192)
    (hzone : u16At data 14 = 0) :
    block = firstZone total inodes ∧ ZonesExact total inodes block g ∧
      data' = putU16 data 14 (BitVec.ofNat 16 block) := by
  obtain ⟨hspan, hless⟩ := zone_span hz
  have hblocks : zmapBlocks total inodes = (zoneCount total inodes + 8191) / 8192 := rfl
  have hone : NeonixFormattedRoot.zoneTail total inodes 1 = false :=
    tail_inside (by omega) Nat.le.refl (by omega)
  cases hroot with
  | stale hsome => exact absurd hzone hsome
  | taken _ r hr hclear hset hlimit =>
      -- the first clear bit is bit 1
      have hpos : r ≠ 0 := by
        rintro rfl
        have hfalse := (zoneTail_clear.mp hclear).1 (by omega)
        omega
      have hr1 : r = 1 := by
        by_contra hno
        rw [hset 1 (by omega)] at hone
        cases hone
      subst hr1
      have hpos := firstdatazone_pos desc
      rw [hfirst] at hpos ⊢
      refine ⟨by omega, fun b => ?_, rfl⟩
      by_cases hb1 : b = 1
      · rw [hb1, Function.update_self]
        exact ⟨fun h => absurd h.2.symm Bool.false_ne_true,
          fun ⟨z, _, _, hne, hbit⟩ => absurd (by omega) hne⟩
      · rw [Function.update_of_ne hb1, zoneTail_clear]
        constructor
        · intro ⟨hin, hfirst, hrest⟩
          exact ⟨b + firstZone total inodes - 1, by omega, by omega, by omega, by omega⟩
        · rintro ⟨z, hlo, hhi, hne, rfl⟩
          exact ⟨by omega, fun _ => ⟨by omega, .inr (by omega)⟩, fun _ => by omega⟩

omit hz in
/-- The stored zone is the block. -/
theorem rooted_stored {f : Nat → Bool} {data' : Bytes} (hroot : Rooted desc f data g data' block) :
    (u16At data' 14).toNat = block := by
  cases hroot with
  | stale => rfl
  | taken _ r _ _ _ hlimit =>
      have hle := desc.zones_le
      rw [u16At_putU16, BitVec.toNat_ofNat]
      omega

/-- There is a bit for `balloc`, unless the tail is the whole bitmap. -/
theorem search_tail {bad : Halt → Prop} (hD : Describes desc total inodes)
    (hstop : zoneCount total inodes = 8192 → ¬ bad (.stopped .assertion)) :
    Search bad desc (NeonixFormattedRoot.zoneTail total inodes) := by
  obtain ⟨hspan, hless⟩ := zone_span hz
  have hblocks : zmapBlocks total inodes = (zoneCount total inodes + 8191) / 8192 := rfl
  have hB : BLOCK_BITS = 8192 := rfl
  have hlt := hz
  rw [LeavesZone] at hlt
  by_cases hfull : zoneCount total inodes = 8192
  · refine .stops (fun j hj => ?_) ?_ (hstop hfull)
    · rw [hD.zmap_eq, hB] at hj
      refine Bool.eq_true_of_not_eq_false fun hclear => ?_
      have hin := ((zoneTail_clear.mp hclear).1 (by omega)).1
      omega
    · rw [hD.zmap_eq, show ZMAP_NR = 8 from rfl]
      omega
  · by_cases hfew : zoneCount total inodes < 8
    · refine .finds 0 (by decide) (zoneTail_clear.mpr ⟨fun _ => ⟨by omega, .inl (by omega)⟩, ?_⟩)
        (fun i hi => absurd hi (Nat.not_lt_zero i)) ?_
      · omega
      · rw [hD.first_eq, hD.zones_eq]
        omega
    · refine .finds 1 (by decide) (zoneTail_clear.mpr ⟨fun _ => ⟨by omega, .inr Nat.le.refl⟩,
        fun _ => Nat.le.refl⟩) (fun i hi => ?_) ?_
      · refine Bool.eq_true_of_not_eq_false fun hclear => ?_
        rw [zoneTail_clear] at hclear
        omega
      · rw [hD.first_eq, hD.zones_eq, firstZone]
        rw [firstZone] at hlt
        omega

end Zones

/-! ## The bytes of the super block and the root directory -/

theorem readDesc_putDesc (b : Bytes) (z : Sizes) : readDesc (putDesc b z) =
    makeDesc z.inodes z.zones z.imap_blocks z.zmap_blocks z.firstdatazone := by
  have hinodes : u16At (putDesc b z) 0 = z.inodes := u16At_putU16 b 0 z.inodes
  have hzones : u16At (putDesc b z) 2 = z.zones := u16At_putU16 b 2 z.zones
  have himap : u16At (putDesc b z) 4 = z.imap_blocks := u16At_putU16 b 4 z.imap_blocks
  have hzmap : u16At (putDesc b z) 6 = z.zmap_blocks := u16At_putU16 b 6 z.zmap_blocks
  have hfirst : u16At (putDesc b z) 8 = z.firstdatazone := u16At_putU16 b 8 z.firstdatazone
  rw [readDesc, hinodes, hzones, himap, hzmap, hfirst]

theorem first_putDesc (b : Bytes) (z : Sizes) : u16At (putDesc b z) 8 = z.firstdatazone :=
  u16At_putU16 b 8 z.firstdatazone

theorem magic_putDesc (b : Bytes) (z : Sizes) : u16At (putDesc b z) 16 = MINIX1_MAGIC :=
  u16At_putU16 _ 16 MINIX1_MAGIC

theorem mode_rootBytes : ISDIR (u16At (rootBytes data task time) 0) := by
  have hmode : u16At (rootBytes data task time) 0 = 0o777 &&& ~~~ task.umask ||| IFDIR :=
    u16At_putU16 data 0 (0o777 &&& ~~~ task.umask ||| IFDIR)
  rw [hmode, ISDIR]
  generalize ~~~ task.umask = mask
  refine BitVec.eq_of_getLsbD_eq fun i hi => ?_
  have hbits : ∀ i < 16, ((0o777 : BitVec 16).getLsbD i && IFMT.getLsbD i) = false ∧
      (IFDIR.getLsbD i && IFMT.getLsbD i) = IFDIR.getLsbD i := by decide
  obtain ⟨hlow, hhigh⟩ := hbits i hi
  rw [BitVec.getLsbD_and, BitVec.getLsbD_or, BitVec.getLsbD_and, Bool.and_or_distrib_right, hhigh,
    Bool.and_right_comm, hlow, Bool.false_and, Bool.false_or]

theorem size_rootBytes : u32At (rootBytes data task time) 4 = 32 :=
  u32At_putU32 data 4 32

/-- The zones are those from before. -/
theorem zones_rootBytes {o : Nat} (ho : 14 ≤ o) : rootBytes data task time o = data o := by
  have hu16 : ∀ (b : Bytes) (k : Nat) (x : BitVec 16), k < 12 →
      putU16 b k x o = b o := fun b k x hk =>
    putU16_other (by omega) (by omega)
  have hu32 : ∀ (b : Bytes) (k : Nat) (x : BitVec 32), k < 10 →
      putU32 b k x o = b o := fun b k x hk =>
    (hu16 _ (k + 2) _ (by omega)).trans (hu16 b k _ (by omega))
  have hu8 : ∀ (b : Bytes) (k : Nat) (x : Byte), k < 14 → putU8 b k x o = b o := fun b k x hk =>
    if_neg (by omega)
  rw [rootBytes, newBytes]
  rw [hu8 _ _ _ (by decide), hu32 _ _ _ (by decide), hu16 _ _ _ (by decide), hu8 _ _ _ (by decide),
    hu8 _ _ _ (by decide), hu32 _ _ _ (by decide), hu32 _ _ _ (by decide), hu16 _ _ _ (by decide),
    hu16 _ _ _ (by decide)]

theorem zone_rootBytes {k : Nat} (hk : 14 ≤ k) :
    u16At (rootBytes data task time) k = u16At data k := by
  rw [u16At, u16At, zones_rootBytes hk, zones_rootBytes (Nat.le_succ_of_le hk)]

theorem dot_rootEntries : u16At rootEntries 0 = 1 ∧
    stringAt (fun k => rootEntries (2 + k)) NAME_LEN = [0x2E] := by
  decide

theorem dotdot_rootEntries : u16At rootEntries 16 = 1 ∧
    stringAt (fun k => rootEntries (18 + k)) NAME_LEN = [0x2E, 0x2E] := by
  decide

theorem rest_rootEntries {o : Nat} (ho : 32 ≤ o) : rootEntries o = 0 := by
  rw [rootEntries, putU16_other (by omega) (by omega), storeAt, if_neg (by omega), strcpy,
    if_neg (by simp; omega), if_neg (by simp; omega),
    putU16_other (by omega) (by omega), storeAt, if_neg (by omega), strcpy,
    if_neg (by simp; omega), if_neg (by simp; omega)]

/-- A word of zeros. -/
theorem u16At_zero {b : Bytes} {k : Nat} : u16At b k = 0 ↔ b k = 0 ∧ b (k + 1) = 0 := by
  constructor
  · intro h
    have hlow : (u16At b k).extractLsb' 0 8 = b k := BitVec.extractLsb'_append_eq_right
    have hhigh : (u16At b k).extractLsb' 8 8 = b (k + 1) := BitVec.extractLsb'_append_eq_left
    rw [h] at hlow hhigh
    exact ⟨hlow.symm, hhigh.symm⟩
  · rintro ⟨hlow, hhigh⟩
    rw [u16At, hlow, hhigh]
    rfl

/-! ## When the device is an empty file system -/

theorem regions_apart (desc : SuperDesc) :
    (regions desc desc.firstdatazone).Pairwise fun r r' => r.2 ≤ r'.1 := by
  have hlayout := desc.layout
  generalize hinodes : (desc.inodes + 31) / BLOCK_INODES = n at hlayout
  simp only [regions, hinodes, List.pairwise_cons, List.mem_cons, List.not_mem_nil, or_false,
    forall_eq_or_imp,
    forall_eq, List.Pairwise.nil, false_imp_iff, implies_true, and_true]
  omega

theorem inodeBytes_one (v : Volume) : inodeBytes v 1 = v.disk (firstInodes v.desc) := by
  funext k
  show v.disk (firstInodes v.desc) (32 * 0 + k) = _
  rw [Nat.mul_zero, Nat.zero_add]

section Made

variable (ht : total ≤ 65535) (hz : LeavesZone total inodes)
  (h : Made total inodes d e desc block)
include h

theorem made_firstInodes_eq :
    firstInodes desc = 2 + imapBlocks inodes + zmapBlocks total inodes := by
  rw [firstInodes, h.describes.imap_eq, h.describes.zmap_eq]

theorem made_firstInodes_lt : firstInodes desc < desc.firstdatazone := by
  have hmore := h.more
  rw [made_firstInodes_eq h, h.describes.first_eq, firstZone, inodeBlocks]
  omega

/-- With the root directory among the data zones, the bitmaps are those stored. -/
theorem made_inodeBits (hblock : desc.firstdatazone ≤ block) :
    Shows { desc := desc, disk := Function.update e block rootEntries } (imaps desc)
      (NeonixFormattedRoot.inodeTail inodes) := by
  have hlt := made_firstInodes_lt h
  rw [firstInodes] at hlt
  refine h.inodeBits.outside fun i hi => ?_
  change i < desc.imap_blocks at hi
  show 2 + i ≠ block
  omega

theorem made_zoneBits (hblock : desc.firstdatazone ≤ block)
    (hg : Shows { desc := desc, disk := e } (zmaps desc) g) :
    Shows { desc := desc, disk := Function.update e block rootEntries } (zmaps desc) g := by
  have hlt := made_firstInodes_lt h
  rw [firstInodes] at hlt
  refine hg.outside fun i hi => ?_
  change i < desc.zmap_blocks at hi
  show 2 + desc.imap_blocks + i ≠ block
  omega

/-- The inode bitmap as the device shows it. -/
theorem made_inodeMap_iff (hblock : desc.firstdatazone ≤ block) :
    (∀ b, b < desc.imap_blocks * BLOCK_BITS ∧
      mapBit { desc := desc, disk := Function.update e block rootEntries } (imaps desc) b = false ↔
      2 ≤ b ∧ b ≤ inodes) ↔ 7 ≤ inodes ∧ inodes % 8192 ≠ 0 ∧ inodes % 8192 ≠ 8191 := by
  have hB : BLOCK_BITS = 8192 := rfl
  have hbits := made_inodeBits h hblock
  rw [← inodeTail_exact h.more, ← h.describes.imap_eq]
  refine forall_congr' fun b => iff_congr (and_congr_right fun hb => ?_) Iff.rfl
  rw [hbits b hb]

/-- The zone bitmap as the device shows it. -/
theorem made_zoneMap_iff (hblock : desc.firstdatazone ≤ block)
    (hg : Shows { desc := desc, disk := e } (zmaps desc) g) :
    (∀ b, b < desc.zmap_blocks * BLOCK_BITS ∧
      zoneBit { desc := desc, disk := Function.update e block rootEntries } b = false ↔
        ∃ z, IsDataZone desc z ∧ z ≠ block ∧ zoneIdx desc z = b) ↔
      ZonesExact total inodes block g := by
  have hbits := made_zoneBits h hblock hg
  rw [ZonesExact, ← h.describes.zmap_eq, ← h.describes.first_eq]
  refine forall_congr' fun b => iff_congr (and_congr_right fun hb => ?_) ?_
  · rw [← hbits b hb]
    exact Iff.rfl
  · rw [← h.describes.zones_eq]
    exact ⟨fun ⟨z, ⟨hlo, hhi⟩, hne, hidx⟩ => ⟨z, hlo, hhi, hne, hidx⟩,
      fun ⟨z, hlo, hhi, hne, hidx⟩ => ⟨z, ⟨hlo, hhi⟩, hne, hidx⟩⟩

include hz in
theorem made_formatted (hfits : Fits d total inodes) :
    Formatted (Function.update e block rootEntries) total inodes := by
  obtain ⟨g, task, time, hroot, hg⟩ := h.root
  have hD := h.describes
  have hinodes := made_firstInodes_eq h
  have hlt := made_firstInodes_lt h
  have hzone : u16At (rootBytes (d (firstInodes desc)) task time) 14 = 0 := by
    rw [zone_rootBytes Nat.le.refl, u16At_zero, hinodes]
    exact ⟨hfits.clean 14 (by decide) (by decide), hfits.clean 15 (by decide) (by decide)⟩
  obtain ⟨hblock, hexact, hdata⟩ := rooted_exact hz hroot hD.first_eq hfits.zoneTail hzone
  rw [← hD.first_eq] at hblock
  have hzones : block < desc.zones := by
    rw [hblock, hD.zones_eq, hD.first_eq]
    exact hz
  have hpos := firstdatazone_pos desc
  have hsuper : Function.update e block rootEntries 1 = e 1 := Function.update_of_ne (by omega) ..
  have hfirst : Function.update e block rootEntries (firstInodes desc) =
      putU16 (rootBytes (d (firstInodes desc)) task time) 14 (BitVec.ofNat 16 block) :=
    (Function.update_of_ne (by omega) ..).trans hdata
  obtain ⟨z, hare, he, hmake⟩ := h.super
  refine ⟨desc, block, ?_, ?_, hD.inodes_eq, hD.zones_eq, ?_,
    (made_inodeMap_iff h (by omega)).mpr ⟨hfits.few, hfits.inodeTail⟩,
    (made_zoneMap_iff h (by omega) hg).mpr hexact, ?_⟩
  · rw [hsuper, he, readDesc_putDesc, hmake]
  · rw [hsuper, he, magic_putDesc]
  · rw [hsuper, he, first_putDesc, hare.first_eq, ← hD.first_eq]
    exact regions_apart desc
  have hother : ∀ o, o ≠ 14 → o ≠ 15 → Function.update e block rootEntries (firstInodes desc) o =
      rootBytes (d (firstInodes desc)) task time o := fun o ho ho' => by
    rw [hfirst]
    exact putU16_other ho ho'
  have hself : Function.update e block rootEntries block = rootEntries := Function.update_self ..
  have hinode := inodeBytes_one { desc := desc, disk := Function.update e block rootEntries }
  dsimp only at hinode
  have hle := desc.zones_le
  refine ⟨?_, ?_, ?_, fun i hlo hhi => ?_, ⟨Nat.le_of_eq hblock.symm, hzones⟩, ?_, ?_,
    fun o ho _ => ?_⟩
  · rw [hinode, u16At, hother 0 (by decide) (by decide), hother 1 (by decide) (by decide)]
    exact mode_rootBytes
  · rw [hinode, u32At_congr (k := 4) fun i hi => hother (4 + i) (by omega) (by omega)]
    exact size_rootBytes
  · rw [hinode, hfirst, u16At_putU16, BitVec.toNat_ofNat]
    omega
  · rw [hinode, u16At_zero, hother _ (by omega) (by omega), hother _ (by omega) (by omega),
      zones_rootBytes (by omega), zones_rootBytes (by omega), hinodes]
    exact ⟨hfits.clean _ (by omega) (by omega), hfits.clean _ (by omega) (by omega)⟩
  · dsimp only
    rw [hself]
    exact dot_rootEntries
  · dsimp only
    rw [hself]
    exact dotdot_rootEntries
  · dsimp only
    rw [hself]
    exact rest_rootEntries ho

include ht hz in
theorem made_fits (hd : Formatted (Function.update e block rootEntries) total inodes) :
    Fits d total inodes := by
  obtain ⟨desc', block', hholds⟩ := hd
  obtain ⟨g, task, time, hroot, hg⟩ := h.root
  obtain ⟨z, hare, he, hmake⟩ := h.super
  have hD := h.describes
  have hpos := firstdatazone_pos desc
  -- the root directory is not in block 1
  have hne : (1 : Nat) ≠ block := by
    rintro rfl
    have hmagic := hholds.magic
    rw [Function.update_self, dotdot_rootEntries.1] at hmagic
    exact absurd hmagic (by decide)
  have hsuper := hholds.super
  rw [Function.update_of_ne hne, he, readDesc_putDesc, hmake] at hsuper
  obtain rfl := Option.some.inj hsuper
  have hinode := inodeBytes_one { desc := desc, disk := Function.update e block rootEntries }
  dsimp only at hinode
  have hzone := hholds.root.zone
  have hdata := hholds.root.dataZone
  have hfirst : desc.firstdatazone ≤ block' := hdata.1
  have hinodes := made_firstInodes_eq h
  have hlt := made_firstInodes_lt h
  rw [hinode] at hzone
  -- nor in the block of the inode
  have hnb : firstInodes desc ≠ block := by
    intro heq
    rw [heq, Function.update_self] at hzone
    have hzero : (u16At rootEntries 14).toNat = 0 := by decide
    omega
  rw [Function.update_of_ne hnb] at hzone
  obtain rfl : block' = block := hzone.symm.trans (rooted_stored hroot)
  have hexact := (made_zoneMap_iff h hfirst hg).mp hholds.zoneMap
  obtain ⟨hnone, hcount, hstores⟩ := rooted_fits ht hz hroot hD.first_eq
    (by rw [← hD.first_eq, ← hD.zones_eq]; exact hdata) hexact
  obtain ⟨hfew, htail⟩ := (made_inodeMap_iff h hfirst).mp hholds.inodeMap
  refine ⟨hfew, htail, hcount, fun o hlo hhi => ?_⟩
  rw [← hinodes]
  by_cases hword : o < 16
  · rw [zone_rootBytes Nat.le.refl, u16At_zero] at hnone
    obtain rfl | rfl : o = 14 ∨ o = 15 := by omega
    · exact hnone.1
    · exact hnone.2
  · have halone := hholds.root.alone ((o - 14) / 2) (by omega) (by omega)
    have hbyte : Function.update e block' rootEntries (firstInodes desc) o =
        d (firstInodes desc) o := by
      rw [Function.update_of_ne hnb, hstores, putU16_other (by omega) (by omega),
        zones_rootBytes hlo]
    rw [hinode, u16At_zero] at halone
    rw [← hbyte]
    obtain hlow | hhigh : o = 14 + 2 * ((o - 14) / 2) ∨ o = 14 + 2 * ((o - 14) / 2) + 1 := by omega
    · rw [hlow]
      exact halone.1
    · rw [hhigh]
      exact halone.2

end Made

/-- What `devmkfs` leaves is an empty file system if and only if the device fits; it
    stops for a device that does not. -/
theorem devmkfs_from {icount : Nat} (hready : Ready s dev) (ht : total ≤ 65535)
    (hi : icount < total)
    (hz : LeavesZone total (inodeCount total icount)) :
    From (fun _ => Fits (s.disk dev) total (inodeCount total icount)) s (devmkfs total dev icount)
      fun ret t => ret = 0 ∧ (Formatted (t.disk dev) total (inodeCount total icount) ↔
        Fits (s.disk dev) total (inodeCount total icount)) := by
  refine (devmkfs_runs hready ht hi rfl hz (fun hone hfits => absurd hfits.few (by omega))
    fun desc hD => search_tail hz hD fun hfull hfits => absurd hfits.zoneTail.2 (by omega)).post ?_
  rintro _ t ⟨rfl, desc, block, e, hmade, hdisk⟩
  rw [hdisk]
  exact ⟨rfl, made_fits ht hz hmade, made_formatted hz hmade⟩

/-- `devmkfs` of a device that is not mounted leaves an empty file system on it if and
    only if the device fits. -/
theorem devmkfs_formats (fuel : Nat) {icount : Nat} (hready : Ready s dev) (ht : total ≤ 65535)
    (hi : icount < total) (hz : LeavesZone total (inodeCount total icount)) :
    (∃ t, devmkfs total dev icount fuel s = .ok (0, t) ∧
      Formatted (t.disk dev) total (inodeCount total icount)) ↔
      Fits (s.disk dev) total (inodeCount total icount) := by
  have hrun := devmkfs_from hready ht hi hz fuel s rfl
  cases hcall : devmkfs total dev icount fuel s with
  | error why =>
      rw [hcall] at hrun
      exact ⟨fun ⟨t, heq, _⟩ => (nomatch heq), fun hfits => absurd hfits hrun⟩
  | ok r =>
      obtain ⟨ret, t⟩ := r
      rw [hcall] at hrun
      obtain ⟨rfl, hiff⟩ := hrun
      constructor
      · rintro ⟨_, heq, hd⟩
        cases heq
        exact hiff.mp hd
      · intro hfits
        exact ⟨t, rfl, hiff.mpr hfits⟩

/-- A second device, all zero. -/
def blankState : Kernel := onDisk bootState 2 fun _ _ => 0

theorem blankState_ready : Ready blankState 2 where
  device := by decide
  unmounted := by decide +kernel
  spare := ⟨1, by decide +kernel, rfl, rfl⟩
  slot := ⟨1, by decide +kernel, by decide, rfl, rfl⟩
  task := ⟨bootTask, rfl⟩

theorem fits_hundred : Fits (blankState.disk 2) 100 (inodeCount 100 0) where
  few := by decide
  inodeTail := by decide
  zoneTail := by decide
  clean := fun _ _ _ => rfl

theorem devmkfs_formats_hundred : ∃ t, devmkfs 100 2 0 0 blankState = .ok (0, t) ∧
    Formatted (t.disk 2) 100 (inodeCount 100 0) :=
  (devmkfs_formats 0 blankState_ready (by decide) (by decide) (by decide)).mpr fits_hundred

/-- With six inodes the tail of the inode bitmap begins in its first byte, and inode 1
    is free again. -/
theorem devmkfs_six : ∃ t, devmkfs 100 2 6 0 blankState = .ok (0, t) ∧
    ¬ Formatted (t.disk 2) 100 6 := by
  have hz : LeavesZone 100 6 := by decide
  have hrun : From (fun _ => True) blankState (devmkfs 100 2 6) fun ret t => ret = 0 ∧
      ∃ desc block e, Made 100 6 (blankState.disk 2) e desc block ∧
        t.disk 2 = Function.update e block rootEntries :=
    devmkfs_runs blankState_ready (by decide) (by decide) rfl hz (fun h => absurd h (by decide))
      fun desc hD => search_tail hz hD (fun h => absurd h (by decide))
  obtain ⟨_, t, heq, rfl, desc, block, e, hmade, hdisk⟩ := From.returns 0 hrun
  refine ⟨t, heq, fun hd => ?_⟩
  rw [hdisk] at hd
  have hfits := made_fits (by decide) hz hmade hd
  exact absurd hfits.few (by decide)

end NeonixFormattedDevices
