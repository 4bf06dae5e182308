import Neonix.BlockDevices

/-! # Block devices through descriptors and through the buffer cache

    `file.c` counts in blocks what the drivers count in sectors, so a read stores half of
    what it was asked for, and from the wrong half of the device.  Both facts here rest on
    the count alone: the bytes a read delivers, and the bytes of the buffer a write looks
    at. -/

namespace NeonixDeviceFiles

open NeonixMachine NeonixOutcome NeonixByteBits NeonixBlockDevices

variable {s t : State} {file : DeviceFile} {driver : Driver} {count : BitVec 8}
  {lba idx block : BitVec 32} {dev m : Nat} {buf buf' : Nat → Byte} {bytes data : List Byte}

/-- No buffer of the cache is dirty, and each holds a block. -/
structure Clean (s : State) : Prop where
  clean : ∀ dev block bf, s.cached dev block = some bf → bf.dirty = false
  whole : ∀ dev block bf, s.cached dev block = some bf → bf.data.length = BLOCK_SIZE

/-- `sys_read` of `n` bytes stores what `bread` delivers of the same bytes. -/
def ReadAgrees (s : State) (file : DeviceFile) (n : Int) : Prop :=
  ∃ bytes t u, sysRead s file n = .ok (some bytes, t) ∧
    breadAll file.zone (file.offset / BLOCK_SIZE) (n / BLOCK_SIZE).toNat s = .ok (bytes, u)

/-- After `sys_write` of `n` bytes `bread` returns them, and of the other blocks what it
    returned before. -/
def WriteAgrees (s : State) (file : DeviceFile) (n : Int) : Prop :=
  ∀ buf, ∃ t, sysWrite s file buf n = .ok (true, t) ∧
    (∀ k < (n / BLOCK_SIZE).toNat, ∃ u,
      bread t file.zone (BitVec.ofInt 32 (file.offset / BLOCK_SIZE + k)) =
        .ok ((List.range BLOCK_SIZE).map fun j => buf (BLOCK_SIZE * k + j), u)) ∧
    ∀ block, (∀ k < (n / BLOCK_SIZE).toNat,
        block ≠ BitVec.ofInt 32 (file.offset / BLOCK_SIZE + k)) →
      (bread t file.zone block).map Prod.fst = (bread s file.zone block).map Prod.fst

/-! ## What is delivered -/

/-- A driver that returns delivers its sectors and leaves the buffer cache alone. -/
theorem read_length (h : driver.read count lba s = .ok (bytes, t)) :
    bytes.length = count.toNat * SECTOR_SIZE ∧ t.cached = s.cached := by
  by_cases hadmits : driver.Admits count lba s
  · obtain ⟨bytes', hread, hlen⟩ := driver.read_admitted hadmits
    rw [hread] at h
    cases h
    exact ⟨hlen, rfl⟩
  · rw [(Driver.refused hadmits).1] at h
    cases h

theorem deviceRead_length {n : BitVec 32} (h : deviceRead s dev n idx = .ok (bytes, t)) :
    bytes.length = (n.setWidth 8).toNat * SECTOR_SIZE ∧ t.cached = s.cached := by
  rw [deviceRead] at h
  obtain ⟨device, -, hread⟩ := bind_eq_ok h
  exact read_length hread

/-- A buffer that `bread` returns holds a block. -/
theorem bread_length (hclean : Clean s) (h : bread s dev block = .ok (data, t)) :
    data.length = BLOCK_SIZE ∧ Clean t := by
  rw [bread] at h
  split at h
  · rename_i bf hbf
    cases h
    exact ⟨hclean.whole _ _ _ hbf, hclean⟩
  · obtain ⟨⟨data', u⟩, hread, hret⟩ := bind_eq_ok h
    cases hret
    rw [requestRead] at hread
    obtain ⟨⟨root, offset⟩, -, hdevice⟩ := bind_eq_ok hread
    obtain ⟨hlen, hcached⟩ := deviceRead_length hdevice
    have hdata : data.length = BLOCK_SIZE := hlen
    -- a buffer of the cache afterwards is one from before, or the new one
    have hstored : ∀ d k bf, (Function.update u.cached dev (Function.update (u.cached dev) block
        (some { data := data, dirty := false }))) d k = some bf →
        s.cached d k = some bf ∨ bf = { data := data, dirty := false } := by
      intro d k bf hbf
      rw [hcached] at hbf
      by_cases hd : d = dev
      · subst hd
        rw [Function.update_self] at hbf
        by_cases hk : k = block
        · rw [hk, Function.update_self] at hbf
          exact .inr (Option.some.inj hbf).symm
        · rw [Function.update_of_ne hk] at hbf
          exact .inl hbf
      · rw [Function.update_of_ne hd] at hbf
        exact .inl hbf
    refine ⟨hdata, ?_, ?_⟩
    · intro d k bf hbf
      rcases hstored d k bf hbf with h | rfl
      · exact hclean.clean d k bf h
      · rfl
    · intro d k bf hbf
      rcases hstored d k bf hbf with h | rfl
      · exact hclean.whole d k bf h
      · exact hdata

theorem breadAll_length : ∀ (n : Nat) (block : Int) (s t : State) (bytes : List Byte),
    Clean s → breadAll dev block n s = .ok (bytes, t) → bytes.length = BLOCK_SIZE * n := by
  intro n
  induction n with
  | zero =>
      intro block s t bytes _ h
      cases h
      rfl
  | succ n ih =>
      intro block s t bytes hclean h
      rw [breadAll] at h
      obtain ⟨⟨data, u⟩, hread, h⟩ := bind_eq_ok h
      obtain ⟨⟨rest, v⟩, hrest, h⟩ := bind_eq_ok h
      cases h
      obtain ⟨hlen, hu⟩ := bread_length hclean hread
      rw [List.length_append, hlen, ih _ _ _ _ hu hrest, Nat.mul_succ, Nat.add_comm]
/-! ## What is looked at -/

theorem idePioWriteSector_congr {d n : Nat} (h : ∀ k < SECTOR_SIZE, buf k = buf' k) :
    idePioWriteSector d n buf s = idePioWriteSector d n buf' s := by
  have hsector : ∀ n' k, (if n' = n ∧ k < SECTOR_SIZE then buf k else s.sectors d n' k) =
      if n' = n ∧ k < SECTOR_SIZE then buf' k else s.sectors d n' k := by
    intro n' k
    by_cases hk : n' = n ∧ k < SECTOR_SIZE
    · rw [if_pos hk, if_pos hk, h k hk.2]
    · rw [if_neg hk, if_neg hk]
  simp only [idePioWriteSector, hsector]

theorem idePioWrite_congr {d : Nat} (h : ∀ k < count.toNat * SECTOR_SIZE, buf k = buf' k) :
    idePioWrite d buf count lba s = idePioWrite d buf' count lba s := by
  have hloop := forLoop_congr (ε := Stop) (σ := State)
    (f := fun i s => .ok (idePioWriteSector d (ideSelectSector lba + i)
      (fun k => buf (i * SECTOR_SIZE + k)) s))
    (g := fun i s => .ok (idePioWriteSector d (ideSelectSector lba + i)
      (fun k => buf' (i * SECTOR_SIZE + k)) s)) count.toNat 0 s
    fun i s _ hi => congrArg Except.ok <| idePioWriteSector_congr fun k hk => h _ (by
      have := Nat.mul_le_mul_right SECTOR_SIZE (Nat.succ_le_of_lt (show i < count.toNat by omega))
      rw [Nat.succ_mul] at this
      omega)
  rw [idePioWrite, idePioWrite, hloop]

/-- A driver looks at no more of the buffer than its sectors. -/
theorem write_congr (h : ∀ k < count.toNat * SECTOR_SIZE, buf k = buf' k) :
    driver.write buf count lba s = driver.write buf' count lba s := by
  cases driver with
  | disk d _ => exact idePioWrite_congr h
  | part p => exact idePioWrite_congr h
  | ramdisk r =>
      have hmemory : ∀ a, (if (a - r.addr lba).toNat < (ramdiskLen count).toNat
          then buf (a - r.addr lba).toNat else s.memory a) =
          if (a - r.addr lba).toNat < (ramdiskLen count).toNat
          then buf' (a - r.addr lba).toNat else s.memory a := by
        intro a
        by_cases ha : (a - r.addr lba).toNat < (ramdiskLen count).toNat
        · rw [if_pos ha, if_pos ha, h _ (ramdiskLen_toNat count ▸ ha)]
        · rw [if_neg ha, if_neg ha]
      simp only [Driver.write, ramdiskWrite, hmemory]

theorem deviceWrite_congr {n : BitVec 32}
    (h : ∀ k < (n.setWidth 8).toNat * SECTOR_SIZE, buf k = buf' k) :
    deviceWrite s dev buf n idx = deviceWrite s dev buf' n idx := by
  simp only [deviceWrite, write_congr h]

/-! ## The count of `sys_read` and `sys_write` -/

/-- The sectors asked for are at most half of the bytes. -/
theorem count_le (m : Nat) :
    ((BitVec.ofInt 32 ((BLOCK_SIZE * m : Int).tdiv BLOCK_SIZE)).setWidth 8).toNat ≤ m := by
  have hdiv : (BLOCK_SIZE * m : Int).tdiv BLOCK_SIZE = (m : Int) :=
    Int.mul_tdiv_cancel_left _ (by decide)
  rw [hdiv, BitVec.ofInt_natCast, BitVec.toNat_setWidth, BitVec.toNat_ofNat]
  exact (Nat.mod_le _ _).trans (Nat.mod_le _ _)

theorem blocks_eq (m : Nat) : ((BLOCK_SIZE * m : Int) / BLOCK_SIZE).toNat = m := by
  rw [Int.mul_ediv_cancel_left _ (by decide), Int.toNat_natCast]

theorem sysRead_length (h : sysRead s file (BLOCK_SIZE * m : Int) = .ok (some bytes, t)) :
    bytes.length ≤ m * SECTOR_SIZE := by
  rw [sysRead] at h
  obtain ⟨-, -, h⟩ := bind_eq_ok h
  split at h
  · cases h
  · obtain ⟨-, -, h⟩ := bind_eq_ok h
    obtain ⟨-, -, h⟩ := bind_eq_ok h
    obtain ⟨-, -, h⟩ := bind_eq_ok h
    obtain ⟨-, -, h⟩ := bind_eq_ok h
    obtain ⟨⟨bytes', u⟩, hread, h⟩ := bind_eq_ok h
    cases h
    rw [(deviceRead_length hread).1]
    exact Nat.mul_le_mul_right _ (count_le m)

theorem sysWrite_congr (h : ∀ k < m * SECTOR_SIZE, buf k = buf' k) :
    sysWrite s file buf (BLOCK_SIZE * m : Int) = sysWrite s file buf' (BLOCK_SIZE * m : Int) := by
  have hwrite : ∀ idx, deviceWrite s file.zone buf
      (BitVec.ofInt 32 ((BLOCK_SIZE * m : Int).tdiv BLOCK_SIZE)) idx = deviceWrite s file.zone buf'
      (BitVec.ofInt 32 ((BLOCK_SIZE * m : Int).tdiv BLOCK_SIZE)) idx := fun idx =>
    deviceWrite_congr fun k hk => h k (hk.trans_le (Nat.mul_le_mul_right _ (count_le m)))
  simp only [sysWrite, hwrite]

/-- However many blocks are asked for, at whatever offset of whatever device: a read
    stores less than `bread` delivers, and of what is written the last byte is lost. -/
theorem device_files_differ (hclean : Clean s) (hm : 0 < m) :
    ¬ ReadAgrees s file (BLOCK_SIZE * m : Int) ∧ ¬ WriteAgrees s file (BLOCK_SIZE * m : Int) := by
  constructor
  · rintro ⟨bytes, t, u, hread, hbread⟩
    have hle := sysRead_length hread
    rw [blocks_eq] at hbread
    have hlen := breadAll_length _ _ _ _ _ hclean hbread
    simp only [SECTOR_SIZE, BLOCK_SIZE] at hle hlen
    omega
  · intro h
    rw [WriteAgrees, blocks_eq] at h
    -- two buffers that differ in their last byte only
    obtain ⟨t, hwrite, hread, -⟩ := h fun _ => 0
    obtain ⟨t', hwrite', hread', -⟩ := h fun k => if k = BLOCK_SIZE * m - 1 then 1 else 0
    have hsame : sysWrite s file (fun _ => 0) (BLOCK_SIZE * m : Int) = sysWrite s file
        (fun k => if k = BLOCK_SIZE * m - 1 then 1 else 0) (BLOCK_SIZE * m : Int) :=
      sysWrite_congr fun k hk => by
        have hk' : k ≠ BLOCK_SIZE * m - 1 := by
          simp only [SECTOR_SIZE, BLOCK_SIZE] at hk ⊢
          omega
        exact (if_neg hk').symm
    rw [hsame, hwrite'] at hwrite
    cases hwrite
    obtain ⟨u, hu⟩ := hread (m - 1) (by omega)
    obtain ⟨u', hu'⟩ := hread' (m - 1) (by omega)
    rw [hu] at hu'
    have hdata := List.map_inj_left.mp (Prod.mk.inj (Except.ok.inj hu')).1 (BLOCK_SIZE - 1)
      (List.mem_range.mpr (by decide))
    have hlast : BLOCK_SIZE * (m - 1) + (BLOCK_SIZE - 1) = BLOCK_SIZE * m - 1 := by
      simp only [BLOCK_SIZE]
      omega
    rw [if_pos hlast] at hdata
    exact absurd hdata (by decide)

theorem partitioned_clean : Clean partitioned where
  clean _ _ _ h := by cases h
  whole _ _ _ h := by cases h

/-- `sys_read` of the first 1024 bytes of the partition stores 512, and `bread` of its
    first block delivers 1024. -/
theorem partition_half :
    (∃ bytes t, sysRead partitioned ⟨2, 0, true, true⟩ 1024 = .ok (some bytes, t) ∧
      bytes.length = 512) ∧
    (∃ bytes t, bread partitioned 2 0 = .ok (bytes, t) ∧ bytes.length = 1024) ∧
    ¬ ∀ s file, Clean s → ∀ m : Nat, 0 < m →
      ReadAgrees s file (BLOCK_SIZE * m : Int) ∧ WriteAgrees s file (BLOCK_SIZE * m : Int) := by
  have hadmits : (Driver.part ⟨0, 100, 10⟩).Admits 1 0 partitioned := ⟨by decide, rfl⟩
  have hsys : ∃ bytes t, sysRead partitioned ⟨2, 0, true, true⟩ 1024 = .ok (some bytes, t) ∧
      bytes.length = 512 := by
    obtain ⟨bytes, hread, hlen⟩ := Driver.read_admitted hadmits
    have hcall : sysRead partitioned ⟨2, 0, true, true⟩ 1024 =
        ((Driver.part ⟨0, 100, 10⟩).read 1 0 partitioned >>= fun r => .ok (some r.1, r.2)) := rfl
    rw [hcall, hread]
    exact ⟨bytes, _, rfl, hlen⟩
  have hadmits' : (Driver.disk 0 1000).Admits 2 100 partitioned := ⟨by decide, rfl⟩
  have hbread : ∃ bytes t, bread partitioned 2 0 = .ok (bytes, t) ∧ bytes.length = 1024 := by
    obtain ⟨bytes, hread, hlen⟩ := Driver.read_admitted hadmits'
    have hcall : requestRead partitioned 2 (BitVec.ofNat 8 BLOCK_SECS)
        (0 * BitVec.ofNat 32 BLOCK_SECS) = (Driver.disk 0 1000).read 2 100 partitioned := rfl
    have hcached : partitioned.cached 2 0 = none := rfl
    rw [bread, hcached]
    dsimp only
    rw [hcall, hread]
    exact ⟨bytes, _, rfl, hlen⟩
  refine ⟨hsys, hbread, fun h => ?_⟩
  obtain ⟨⟨bytes, t, u, hread, hblocks⟩, -⟩ :=
    h partitioned ⟨2, 0, true, true⟩ partitioned_clean 1 Nat.one_pos
  obtain ⟨bytes', t', hread', hlen⟩ := hsys
  rw [show (BLOCK_SIZE * (1 : Nat) : Int) = 1024 from rfl] at hread
  rw [hread] at hread'
  cases hread'
  have hblock := breadAll_length _ _ _ _ _ partitioned_clean hblocks
  rw [hlen] at hblock
  exact absurd hblock (by decide)

theorem device_files_differ_partition :
    ¬ ReadAgrees partitioned ⟨2, 0, true, true⟩ (BLOCK_SIZE * (1 : Nat) : Int) ∧
      ¬ WriteAgrees partitioned ⟨2, 0, true, true⟩ (BLOCK_SIZE * (1 : Nat) : Int) :=
  device_files_differ partitioned_clean Nat.one_pos

end NeonixDeviceFiles
