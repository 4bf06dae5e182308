import Mathlib.Data.Nat.Cast.Basic
import Neonix.KernelPages

/-! # Block devices: a disk, a part of it, and the disks in memory

    A transfer goes through the installed `device_t` to its driver.  `touched` records
    what a driver asks the disk or the memory of a ramdisk for, so that being isolated is
    a statement about the places a request adds to it.  `file.c` and `buffer.c` come to
    the drivers by two ways, with the sector numbers and counts each of them makes. -/

namespace NeonixBlockDevices

open NeonixMachine NeonixOutcome NeonixByteBits NeonixMemory NeonixKernelPages

def SECTOR_SIZE : Nat := 512
def BLOCK_SIZE : Nat := 1024
def BLOCK_SECS : Nat := BLOCK_SIZE / SECTOR_SIZE
def DEVICE_NR : Nat := 64
def RAMDISK_NR : Nat := 4

/-- `ide_part_t`, with the number of its disk. -/
structure IdePart where
  disk : Nat
  start : BitVec 32
  count : BitVec 32

/-- `ramdisk_t`. -/
structure Ramdisk where
  start : BitVec 32
  size : BitVec 32

/-- The `ptr` of a `device_t` with the functions installed beside it. -/
inductive Driver where
  | disk (disk : Nat) (total_lba : BitVec 32)
  | part (part : IdePart)
  | ramdisk (disk : Ramdisk)

structure Device where
  driver : Driver
  parent : Nat

/-- `buffer_t`, its data and whether it has been changed since it was read. -/
structure Buffer where
  data : List Byte
  dirty : Bool

/-- A sector of a disk, or a byte of memory. -/
inductive Place where
  | sector (disk n : Nat)
  | byte (addr : BitVec 32)

structure State where
  /-- What the controllers deliver: byte `k` of sector `n` of a disk. -/
  sectors : Nat → Nat → Nat → Byte
  memory : BitVec 32 → Byte
  interrupt_state : Bool
  /-- `none` is a device of type `DEV_NULL`. -/
  devices : Nat → Option Device
  /-- The valid buffers. -/
  cached : Nat → BitVec 32 → Option Buffer
  touched : List Place

variable {s t : State} {count : BitVec 8} {lba : BitVec 32} {buf buf' : Nat → Byte}

/-! ## `kernel/ide.c` -/

/-- `ide_select_sector`: the sector the registers of the controller hold, which has no
    more than 28 bits. -/
def ideSelectSector (lba : BitVec 32) : Nat :=
  ((lba.extractLsb' 24 4 ++ lba.extractLsb' 16 8) ++
    (lba.extractLsb' 8 8 ++ lba.extractLsb' 0 8)).toNat

def State.touch (s : State) (p : Place) : State := { s with touched := s.touched ++ [p] }

/-- `ide_pio_read_sector`, for the sector the controller has come to. -/
def idePioReadSector (disk n : Nat) (r : List Byte × State) : List Byte × State :=
  (r.1 ++ (List.range SECTOR_SIZE).map (r.2.sectors disk n), r.2.touch (.sector disk n))

/-- `ide_pio_write_sector`, of the sector at `buf`. -/
def idePioWriteSector (disk n : Nat) (buf : Nat → Byte) (s : State) : State :=
  let sectors := Function.update s.sectors disk fun n' k =>
    if n' = n ∧ k < SECTOR_SIZE then buf k else s.sectors disk n' k
  { s with sectors := sectors }.touch (.sector disk n)

/-- `ide_pio_read`: the bytes it stores to its buffer. -/
def idePioRead (disk : Nat) (count : BitVec 8) (lba : BitVec 32) (s : State) :
    Res (List Byte × State) := do
  check (0 < count.toNat)
  check (s.interrupt_state = false)
  forLoop (fun i r => .ok (idePioReadSector disk (ideSelectSector lba + i) r)) 0 count.toNat ([], s)

/-- `ide_pio_write`. -/
def idePioWrite (disk : Nat) (buf : Nat → Byte) (count : BitVec 8) (lba : BitVec 32) (s : State) :
    Res State := do
  check (0 < count.toNat)
  check (s.interrupt_state = false)
  forLoop (fun i s => .ok (idePioWriteSector disk (ideSelectSector lba + i)
    (fun k => buf (i * SECTOR_SIZE + k)) s)) 0 count.toNat s

/-- `ide_pio_part_read`. -/
def idePioPartRead (part : IdePart) (count : BitVec 8) (lba : BitVec 32) (s : State) :
    Res (List Byte × State) :=
  idePioRead part.disk count (part.start + lba) s

/-- `ide_pio_part_write`. -/
def idePioPartWrite (part : IdePart) (buf : Nat → Byte) (count : BitVec 8) (lba : BitVec 32)
    (s : State) : Res State :=
  idePioWrite part.disk buf count (part.start + lba) s

/-! ## `kernel/ramdisk.c` -/

/-- `addr` of `ramdisk_read` and `ramdisk_write`. -/
def Ramdisk.addr (disk : Ramdisk) (lba : BitVec 32) : BitVec 32 :=
  disk.start + lba * BitVec.ofNat 32 SECTOR_SIZE

/-- `len` of `ramdisk_read` and `ramdisk_write`. -/
def ramdiskLen (count : BitVec 8) : BitVec 32 := count.setWidth 32 * BitVec.ofNat 32 SECTOR_SIZE

/-- What `ramdisk_read` and `ramdisk_write` assert. -/
def Ramdisk.Below (disk : Ramdisk) (count : BitVec 8) (lba : BitVec 32) : Prop :=
  (disk.addr lba + ramdiskLen count).toNat < KERNEL_RAMDISK_MEM + KERNEL_MEMORY_SIZE

instance (disk : Ramdisk) (count : BitVec 8) (lba : BitVec 32) : Decidable (disk.Below count lba) :=
  inferInstanceAs (Decidable (_ < _))

/-- The addresses `memcpy` goes through. -/
def addresses (addr len : BitVec 32) : List (BitVec 32) :=
  (List.range len.toNat).map fun i => addr + BitVec.ofNat 32 i

def State.touchAll (s : State) (l : List Place) : State := { s with touched := s.touched ++ l }

/-- `ramdisk_read`, for a buffer outside the memory of the ramdisks. -/
def ramdiskRead (disk : Ramdisk) (count : BitVec 8) (lba : BitVec 32) (s : State) :
    Res (List Byte × State) := do
  let addr := disk.addr lba
  let len := ramdiskLen count
  check (disk.Below count lba)
  return ((addresses addr len).map s.memory, s.touchAll ((addresses addr len).map Place.byte))

/-- `ramdisk_write`. -/
def ramdiskWrite (disk : Ramdisk) (buf : Nat → Byte) (count : BitVec 8) (lba : BitVec 32)
    (s : State) : Res State := do
  let addr := disk.addr lba
  let len := ramdiskLen count
  check (disk.Below count lba)
  let memory := fun a => if (a - addr).toNat < len.toNat then buf (a - addr).toNat else s.memory a
  return { s with memory := memory }.touchAll ((addresses addr len).map Place.byte)

/-- `ramdisks[i]` after `ramdisk_init`. -/
def ramdisks (i : Nat) : Ramdisk where
  start := BitVec.ofNat 32 (KERNEL_RAMDISK_MEM + KERNEL_RAMDISK_SIZE / RAMDISK_NR * i)
  size := BitVec.ofNat 32 (KERNEL_RAMDISK_SIZE / RAMDISK_NR)

/-! ## `kernel/device.c` -/

/-- `device_get`. -/
def deviceGet (s : State) (dev : Nat) : Res Device := do
  check (dev < DEVICE_NR)
  match s.devices dev with
  | none => .error .assertion
  | some device => return device

/-- The answer to `DEV_CMD_SECTOR_START`. -/
def Driver.sectorStart : Driver → BitVec 32
  | .disk .. => 0
  | .part p => p.start
  | .ramdisk _ => 0

/-- The answer to `DEV_CMD_SECTOR_COUNT`. -/
def Driver.sectorCount : Driver → BitVec 32
  | .disk _ total_lba => total_lba
  | .part p => p.count
  | .ramdisk d => d.size / BitVec.ofNat 32 SECTOR_SIZE

/-- `device->read`. -/
def Driver.read : Driver → BitVec 8 → BitVec 32 → State → Res (List Byte × State)
  | .disk d _ => idePioRead d
  | .part p => idePioPartRead p
  | .ramdisk d => ramdiskRead d

/-- `device->write`. -/
def Driver.write : Driver → (Nat → Byte) → BitVec 8 → BitVec 32 → State → Res State
  | .disk d _ => idePioWrite d
  | .part p => idePioPartWrite p
  | .ramdisk d => ramdiskWrite d

/-- `device_read`; the drivers declare `count` a byte. -/
def deviceRead (s : State) (dev : Nat) (count idx : BitVec 32) : Res (List Byte × State) := do
  let device ← deviceGet s dev
  device.driver.read (count.setWidth 8) idx s

/-- `device_write`. -/
def deviceWrite (s : State) (dev : Nat) (buf : Nat → Byte) (count idx : BitVec 32) : Res State := do
  let device ← deviceGet s dev
  device.driver.write buf (count.setWidth 8) idx s

/-- The device and the sector `device_request` puts into its request. -/
def requestTarget (s : State) (dev : Nat) (idx : BitVec 32) : Res (Nat × BitVec 32) := do
  let device ← deviceGet s dev
  let offset := idx + device.driver.sectorStart
  if device.parent = 0 then
    return (dev, offset)
  else
    let _ ← deviceGet s device.parent
    return (device.parent, offset)

/-- `device_request` with `REQ_READ`, while no other request is queued. -/
def requestRead (s : State) (dev : Nat) (count : BitVec 8) (idx : BitVec 32) :
    Res (List Byte × State) := do
  let (dev, offset) ← requestTarget s dev idx
  deviceRead s dev (count.setWidth 32) offset

/-! ## `bread` and the system calls -/

/-- `bread`, which has a buffer for every block: the data of the buffer. -/
def bread (s : State) (dev : Nat) (block : BitVec 32) : Res (List Byte × State) :=
  match s.cached dev block with
  | some bf => .ok (bf.data, s)
  | none => do
      let (data, s) ← requestRead s dev (BitVec.ofNat 8 BLOCK_SECS) (block * BitVec.ofNat 32 BLOCK_SECS)
      let cached := Function.update s.cached dev
        (Function.update (s.cached dev) block (some { data := data, dirty := false }))
      return (data, { s with cached := cached })

/-- `bread` of `n` blocks one after the other, and what they deliver. -/
def breadAll (dev : Nat) (block : Int) : Nat → State → Res (List Byte × State)
  | 0, s => .ok ([], s)
  | n + 1, s => do
      let (data, s) ← bread s dev (BitVec.ofInt 32 block)
      let (rest, s) ← breadAll dev (block + 1) n s
      return (data ++ rest, s)

/-- The `file_t` of a block device: what `sys_read` and `sys_write` look at. -/
structure DeviceFile where
  zone : Nat
  offset : Int
  readable : Bool
  writable : Bool

/-- `sys_read` on a block device.  The first component of the answer is what it stores
    to the buffer of the caller; `none` is `EOF`. -/
def sysRead (s : State) (file : DeviceFile) (count : Int) : Res (Option (List Byte) × State) := do
  check (0 < count)
  if file.readable = false then
    return (none, s)
  check (file.zone ≠ 0)
  let _ ← deviceGet s file.zone
  check (file.offset.tmod BLOCK_SIZE = 0)
  check (count.tmod BLOCK_SIZE = 0)
  let (bytes, s) ← deviceRead s file.zone (BitVec.ofInt 32 (count.tdiv BLOCK_SIZE))
    (BitVec.ofInt 32 (file.offset.tdiv BLOCK_SIZE))
  return (some bytes, s)

/-- `sys_write` on a block device; `false` is `EOF`. -/
def sysWrite (s : State) (file : DeviceFile) (buf : Nat → Byte) (count : Int) :
    Res (Bool × State) := do
  check (0 < count)
  if file.writable = false then
    return (false, s)
  check (file.zone ≠ 0)
  let _ ← deviceGet s file.zone
  check (file.offset.tmod BLOCK_SIZE = 0)
  check (count.tmod BLOCK_SIZE = 0)
  let s ← deviceWrite s file.zone buf (BitVec.ofInt 32 (count.tdiv BLOCK_SIZE))
    (BitVec.ofInt 32 (file.offset.tdiv BLOCK_SIZE))
  return (true, s)

/-! ## What a request goes to -/

/-- What is the device's own. -/
def Driver.Owns : Driver → Place → Prop
  | .disk d _, .sector d' _ => d' = d
  | .part p, .sector d n => d = p.disk ∧ p.start.toNat ≤ n ∧ n < p.start.toNat + p.count.toNat
  | .ramdisk r, .byte a => r.start.toNat ≤ a.toNat ∧ a.toNat < r.start.toNat + r.size.toNat
  | _, _ => False

/-- The request is for sectors the device has. -/
def Driver.Inside (count : BitVec 8) (lba : BitVec 32) : Driver → Prop
  | .disk _ total_lba => lba.toNat + count.toNat ≤ total_lba.toNat
  | .part p => lba.toNat + count.toNat ≤ p.count.toNat
  | .ramdisk r => (lba.toNat + count.toNat) * SECTOR_SIZE ≤ r.size.toNat

/-- What the driver asserts. -/
def Driver.Admits (count : BitVec 8) (lba : BitVec 32) (s : State) : Driver → Prop
  | .ramdisk r => r.Below count lba
  | _ => 0 < count.toNat ∧ s.interrupt_state = false

/-- The sectors or bytes a transfer goes through. -/
def Driver.places (count : BitVec 8) (lba : BitVec 32) : Driver → List Place
  | .disk d _ => (List.range' 0 count.toNat).map fun i => .sector d (ideSelectSector lba + i)
  | .part p => (List.range' 0 count.toNat).map fun i =>
      .sector p.disk (ideSelectSector (p.start + lba) + i)
  | .ramdisk r => (addresses (r.addr lba) (ramdiskLen count)).map Place.byte

/-- What goes from `s` to `t` keeps to the device's own, and a request for sectors the
    device does not have changes nothing. -/
structure Isolated (driver : Driver) (count : BitVec 8) (lba : BitVec 32) (s t : State) : Prop where
  own : ∃ new, t.touched = s.touched ++ new ∧ ∀ p ∈ new, driver.Owns p
  outside : ¬ driver.Inside count lba → t = s

/-- The requests of this count and sector, unless an assertion stops them. -/
structure Isolates (driver : Driver) (count : BitVec 8) (lba : BitVec 32) (s : State) : Prop where
  read : Ends (fun _ => False) (driver.read count lba s) fun r => Isolated driver count lba s r.2
  write : ∀ buf, Ends (fun _ => False) (driver.write buf count lba s) (Isolated driver count lba s)

variable {driver : Driver} {places : List Place} {d first : Nat}

theorem isolated_iff (ht : t.touched = s.touched ++ places) (hsame : places = [] → t = s) :
    Isolated driver count lba s t ↔
      places = [] ∨ driver.Inside count lba ∧ ∀ p ∈ places, driver.Owns p := by
  constructor
  · intro h
    obtain ⟨new, hnew, hown⟩ := h.own
    have heq : new = places := List.append_cancel_left (hnew.symm.trans ht)
    by_cases hin : driver.Inside count lba
    · exact .inr ⟨hin, heq ▸ hown⟩
    · left
      rw [h.outside hin] at ht
      exact List.self_eq_append_right.mp ht
  · rintro (hnil | ⟨hin, hown⟩)
    · exact ⟨⟨[], by rw [ht, hnil], by simp⟩, fun _ => hsame hnil⟩
    · exact ⟨⟨places, ht, hown⟩, fun h => absurd hin h⟩

/-! ## The loops of the disk driver -/

theorem readLoop_eq (d first : Nat) : ∀ (n lo : Nat) (bytes : List Byte) (s : State),
    forLoop (ε := Stop) (fun i r => .ok (idePioReadSector d (first + i) r)) lo n (bytes, s) =
      .ok (bytes ++ (List.range' lo n).flatMap fun i =>
          (List.range SECTOR_SIZE).map (s.sectors d (first + i)),
        s.touchAll ((List.range' lo n).map fun i => .sector d (first + i))) := by
  intro n
  induction n with
  | zero => intro lo bytes s; simp [forLoop, State.touchAll]
  | succ n ih =>
      intro lo bytes s
      rw [forLoop, bind_ok, idePioReadSector, ih]
      simp [State.touch, State.touchAll, List.range'_succ]

theorem writeLoop_touched (d first : Nat) (buf : Nat → Nat → Byte) : ∀ (n lo : Nat) (s : State),
    ∃ t, forLoop (ε := Stop) (fun i s => .ok (idePioWriteSector d (first + i) (buf i) s)) lo n s =
        .ok t ∧
      t.touched = s.touched ++ (List.range' lo n).map fun i => .sector d (first + i) := by
  intro n
  induction n with
  | zero => intro lo s; exact ⟨s, rfl, by simp⟩
  | succ n ih =>
      intro lo s
      obtain ⟨t, ht, htouched⟩ := ih (lo + 1) (idePioWriteSector d (first + lo) (buf lo) s)
      refine ⟨t, ht, ?_⟩
      rw [htouched]
      simp [idePioWriteSector, State.touch, List.range'_succ]

theorem ramdiskLen_toNat (count : BitVec 8) :
    (ramdiskLen count).toNat = count.toNat * SECTOR_SIZE := by
  have hc := count.isLt
  simp only [ramdiskLen, SECTOR_SIZE, BitVec.toNat_mul, BitVec.toNat_setWidth, BitVec.toNat_ofNat]
  omega

theorem ideRead_refused (h : ¬ (0 < count.toNat ∧ s.interrupt_state = false)) :
    idePioRead d count lba s = .error .assertion := by
  rw [idePioRead]
  by_cases hc : 0 < count.toNat
  · rw [check_pos hc, bind_ok, check_neg fun hi => h ⟨hc, hi⟩]
    rfl
  · rw [check_neg hc]
    rfl

theorem ideWrite_refused (h : ¬ (0 < count.toNat ∧ s.interrupt_state = false)) :
    idePioWrite d buf count lba s = .error .assertion := by
  rw [idePioWrite]
  by_cases hc : 0 < count.toNat
  · rw [check_pos hc, bind_ok, check_neg fun hi => h ⟨hc, hi⟩]
    rfl
  · rw [check_neg hc]
    rfl

/-- A request the driver does not admit is stopped by its assertion. -/
theorem Driver.refused (h : ¬ driver.Admits count lba s) :
    driver.read count lba s = .error .assertion ∧
      ∀ buf, driver.write buf count lba s = .error .assertion := by
  cases driver with
  | disk d _ => exact ⟨ideRead_refused h, fun _ => ideWrite_refused h⟩
  | part p => exact ⟨ideRead_refused h, fun _ => ideWrite_refused h⟩
  | ramdisk r =>
      refine ⟨?_, fun buf => ?_⟩
      · rw [Driver.read, ramdiskRead, check_neg (p := r.Below count lba) h]
        rfl
      · rw [Driver.write, ramdiskWrite, check_neg (p := r.Below count lba) h]
        rfl

theorem ideRead_admitted (h : 0 < count.toNat ∧ s.interrupt_state = false) :
    ∃ bytes, idePioRead d count lba s = .ok (bytes, s.touchAll
        ((List.range' 0 count.toNat).map fun i => .sector d (ideSelectSector lba + i))) ∧
      bytes.length = count.toNat * SECTOR_SIZE := by
  rw [idePioRead, check_pos h.1, bind_ok, check_pos h.2, bind_ok, readLoop_eq]
  refine ⟨_, rfl, ?_⟩
  simp [List.length_flatMap, List.map_const', List.sum_replicate]

theorem ideWrite_admitted (h : 0 < count.toNat ∧ s.interrupt_state = false) (buf : Nat → Byte) :
    ∃ t, idePioWrite d buf count lba s = .ok t ∧ t.touched = s.touched ++
      (List.range' 0 count.toNat).map fun i => .sector d (ideSelectSector lba + i) := by
  rw [idePioWrite, check_pos h.1, bind_ok, check_pos h.2, bind_ok]
  exact writeLoop_touched d (ideSelectSector lba) (fun i k => buf (i * SECTOR_SIZE + k)) count.toNat 0 s

/-- A read the driver admits delivers its sectors and goes through their places. -/
theorem Driver.read_admitted (h : driver.Admits count lba s) :
    ∃ bytes, driver.read count lba s = .ok (bytes, s.touchAll (driver.places count lba)) ∧
      bytes.length = count.toNat * SECTOR_SIZE := by
  cases driver with
  | disk d _ => exact ideRead_admitted h
  | part p => exact ideRead_admitted h
  | ramdisk r =>
      rw [Driver.read, ramdiskRead, check_pos (p := r.Below count lba) h, bind_ok]
      refine ⟨_, rfl, ?_⟩
      rw [List.length_map, addresses, List.length_map, List.length_range, ramdiskLen_toNat]

/-- A write the driver admits goes through the places of its sectors, and one of no
    sectors changes nothing. -/
theorem Driver.write_admitted (h : driver.Admits count lba s) (buf : Nat → Byte) :
    ∃ t, driver.write buf count lba s = .ok t ∧ t.touched = s.touched ++ driver.places count lba ∧
      (driver.places count lba = [] → t = s) := by
  have hide : ∀ (d : Nat) (lba : BitVec 32), 0 < count.toNat →
      ((List.range' 0 count.toNat).map fun i => Place.sector d (ideSelectSector lba + i)) ≠ [] := by
    intro d lba hc hnil
    have hlen := congrArg List.length hnil
    simp at hlen
    omega
  cases driver with
  | disk d _ =>
      obtain ⟨t, ht, htouched⟩ := ideWrite_admitted h buf
      exact ⟨t, ht, htouched, fun hnil => absurd hnil (hide d lba h.1)⟩
  | part p =>
      obtain ⟨t, ht, htouched⟩ := ideWrite_admitted h buf
      exact ⟨t, ht, htouched, fun hnil => absurd hnil (hide p.disk (p.start + lba) h.1)⟩
  | ramdisk r =>
      rw [Driver.write, ramdiskWrite, check_pos (p := r.Below count lba) h, bind_ok]
      refine ⟨_, rfl, rfl, fun hnil => ?_⟩
      have hlen : (ramdiskLen count).toNat = 0 := by
        have := congrArg List.length hnil
        simpa [Driver.places, addresses] using this
      have haddr : addresses (r.addr lba) (ramdiskLen count) = [] := by rw [addresses, hlen]; rfl
      simp [hlen, haddr, State.touchAll]

/-- A request is isolated exactly if it is refused, is for nothing, or goes to what the
    device has and owns. -/
theorem isolates_iff : Isolates driver count lba s ↔
    ¬ driver.Admits count lba s ∨ driver.places count lba = [] ∨
      driver.Inside count lba ∧ ∀ p ∈ driver.places count lba, driver.Owns p := by
  by_cases hadmits : driver.Admits count lba s
  · obtain ⟨bytes, hread, -⟩ := driver.read_admitted hadmits
    have hsame : driver.places count lba = [] → s.touchAll (driver.places count lba) = s := by
      intro hnil
      simp [State.touchAll, hnil]
    have hiff : Isolated driver count lba s (s.touchAll (driver.places count lba)) ↔ _ :=
      isolated_iff rfl hsame
    constructor
    · intro h
      have hreads := h.read
      rw [hread] at hreads
      exact .inr (hiff.mp hreads)
    · rintro (h | h)
      · exact absurd hadmits h
      · refine ⟨?_, fun buf => ?_⟩
        · rw [hread]
          exact hiff.mpr h
        · obtain ⟨t, hwrite, htouched, hsame⟩ := driver.write_admitted hadmits buf
          rw [hwrite]
          exact (isolated_iff htouched hsame).mpr h
  · refine ⟨fun _ => .inl hadmits, fun _ => ⟨?_, fun buf => ?_⟩⟩
    · rw [(Driver.refused hadmits).1]
      exact not_false
    · rw [(Driver.refused hadmits).2 buf]
      exact not_false

/-! ## Where the places of a request are -/

theorem ideSelectSector_eq (lba : BitVec 32) : ideSelectSector lba = lba.toNat % 2 ^ 28 := by
  rw [ideSelectSector, BitVec.extractLsb'_append_extractLsb'_eq_extractLsb' (by decide),
    BitVec.extractLsb'_append_extractLsb'_eq_extractLsb' (by decide),
    BitVec.extractLsb'_append_extractLsb'_eq_extractLsb' (by decide)]
  simp

/-- A block device that is a part of something: a partition, or a ramdisk as
    `ramdisk_init` makes it. -/
inductive Sliced : Driver → Prop
  | part (p : IdePart) : Sliced (.part p)
  | ramdisk (i : Nat) (h : i < RAMDISK_NR) : Sliced (.ramdisk (ramdisks i))

/-- The requests that do no harm: those for no sectors, those an assertion stops, and
    those for sectors the device has.  A partition adds its start first, and the
    controller must get the sum as it is. -/
def Driver.Harmless (count : BitVec 8) (lba : BitVec 32) (s : State) : Driver → Prop
  | .part p => count = 0 ∨ s.interrupt_state = true ∨
      lba.toNat + count.toNat ≤ p.count.toNat ∧
        p.start.toNat ≤ (p.start.toNat + lba.toNat) % 2 ^ 28
  | .ramdisk r => count = 0 ∨
      KERNEL_RAMDISK_MEM + KERNEL_MEMORY_SIZE ≤
        (r.start.toNat + (lba.toNat + count.toNat) * SECTOR_SIZE) % 2 ^ 32 ∨
      (lba.toNat + count.toNat) * SECTOR_SIZE ≤ r.size.toNat
  | .disk .. => True

theorem pos_iff_ne : 0 < count.toNat ↔ count ≠ 0 := by
  rw [Nat.pos_iff_ne_zero, ne_eq, ne_eq, ← BitVec.toNat_inj]
  rfl

/-- The sectors asked of the controller for a request inside a partition. -/
theorem part_owns_iff {p : IdePart} (hc : 0 < count.toNat)
    (hin : lba.toNat + count.toNat ≤ p.count.toNat) :
    (∀ q ∈ (Driver.part p).places count lba, (Driver.part p).Owns q) ↔
      p.start.toNat ≤ (p.start.toNat + lba.toNat) % 2 ^ 28 := by
  have hfirst : ideSelectSector (p.start + lba) = (p.start.toNat + lba.toNat) % 2 ^ 28 := by
    rw [ideSelectSector_eq, BitVec.toNat_add]
    omega
  have hle := Nat.mod_le (p.start.toNat + lba.toNat) (2 ^ 28)
  simp only [Driver.places, List.mem_map, List.mem_range'_1, hfirst]
  constructor
  · intro h
    have := (h _ ⟨0, by omega, rfl⟩).2.1
    simpa using this
  · rintro h q ⟨i, ⟨-, hi⟩, rfl⟩
    refine ⟨rfl, by omega, ?_⟩
    have hi' : i < count.toNat := by simpa using hi
    omega

/-- The bytes of a request inside a ramdisk are its own. -/
theorem ramdisk_owns {i : Nat} (hi : i < RAMDISK_NR)
    (hin : (Driver.ramdisk (ramdisks i)).Inside count lba) :
    ∀ q ∈ (Driver.ramdisk (ramdisks i)).places count lba, (Driver.ramdisk (ramdisks i)).Owns q := by
  simp only [Driver.places, addresses, List.map_map, List.mem_map, List.mem_range, ramdiskLen_toNat]
  rintro q ⟨k, hk, rfl⟩
  simp only [Driver.Inside, ramdisks, KERNEL_RAMDISK_MEM, KERNEL_BUFFER_MEM, KERNEL_BUFFER_SIZE,
    KERNEL_RAMDISK_SIZE, RAMDISK_NR, SECTOR_SIZE, BitVec.toNat_ofNat] at hin hk
  have hi' : i < 4 := hi
  simp only [Function.comp_apply, Driver.Owns, Ramdisk.addr, ramdisks, KERNEL_RAMDISK_MEM,
    KERNEL_BUFFER_MEM, KERNEL_BUFFER_SIZE, KERNEL_RAMDISK_SIZE, RAMDISK_NR, SECTOR_SIZE,
    BitVec.toNat_add, BitVec.toNat_mul, BitVec.toNat_ofNat]
  omega

theorem below_iff {r : Ramdisk} : r.Below count lba ↔
    (r.start.toNat + (lba.toNat + count.toNat) * SECTOR_SIZE) % 2 ^ 32 <
      KERNEL_RAMDISK_MEM + KERNEL_MEMORY_SIZE := by
  have haddr : (r.addr lba + ramdiskLen count).toNat =
      (r.start.toNat + (lba.toNat + count.toNat) * SECTOR_SIZE) % 2 ^ 32 := by
    rw [BitVec.toNat_add, ramdiskLen_toNat]
    simp only [Ramdisk.addr, SECTOR_SIZE, BitVec.toNat_add, BitVec.toNat_mul, BitVec.toNat_ofNat]
    omega
  rw [Ramdisk.Below, haddr]

/-- A partition and a ramdisk keep to themselves exactly on the requests that do no harm. -/
theorem requests_isolated (h : Sliced driver) :
    Isolates driver count lba s ↔ driver.Harmless count lba s := by
  rw [isolates_iff]
  cases h with
  | part p =>
      have hadmits : (Driver.part p).Admits count lba s ↔
          0 < count.toNat ∧ s.interrupt_state = false := Iff.rfl
      have hinside : (Driver.part p).Inside count lba ↔
          lba.toNat + count.toNat ≤ p.count.toNat := Iff.rfl
      rw [hadmits, hinside, Driver.Harmless, pos_iff_ne]
      by_cases hc : count = 0#8
      · simp [hc]
      · have hpos := pos_iff_ne.mpr hc
        have hplaces : (Driver.part p).places count lba ≠ [] := by
          intro hnil
          have hlen := congrArg List.length hnil
          simp [Driver.places] at hlen
          omega
        by_cases hin : lba.toNat + count.toNat ≤ p.count.toNat
        · have howns := part_owns_iff hpos hin
          simp [hc, hplaces, hin, howns]
        · simp [hc, hplaces, hin]
  | ramdisk i hi =>
      have hadmits : (Driver.ramdisk (ramdisks i)).Admits count lba s ↔ _ := below_iff
      have hplaces : (Driver.ramdisk (ramdisks i)).places count lba = [] ↔ count = 0 := by
        have hlen := ramdiskLen_toNat count
        have hpos : 0 < count.toNat ↔ count ≠ 0 := pos_iff_ne
        simp only [Driver.places, addresses, List.map_eq_nil_iff, List.range_eq_nil, hlen,
          SECTOR_SIZE]
        constructor
        · intro hz
          by_contra hc
          exact absurd (hpos.mpr hc) (by omega)
        · rintro rfl
          rfl
      rw [hadmits, hplaces, Driver.Harmless, not_lt]
      constructor
      · rintro (h | h | ⟨h, -⟩)
        · exact .inr (.inl h)
        · exact .inl h
        · exact .inr (.inr h)
      · rintro (h | h | h)
        · exact .inr (.inl h)
        · exact .inl h
        · exact .inr (.inr ⟨h, ramdisk_owns hi h⟩)

/-- Disk 0 with a partition of ten sectors from sector 100 on. -/
def partitioned : State where
  sectors := fun _ _ _ => 0
  memory := fun _ => 0
  interrupt_state := false
  devices := fun dev =>
    if dev = 1 then some ⟨.disk 0 1000, 0⟩
    else if dev = 2 then some ⟨.part ⟨0, 100, 10⟩, 1⟩ else none
  cached := fun _ _ => none
  touched := []

/-- `sys_read` of 1024 bytes at 10240 on the partition: the sector behind it is read. -/
theorem partition_overrun :
    (∃ bytes t, sysRead partitioned ⟨2, 10240, true, true⟩ 1024 = .ok (some bytes, t) ∧
      t.touched = [.sector 0 110]) ∧
    ¬ ∀ driver, Sliced driver → ∀ count lba s, Isolates driver count lba s := by
  refine ⟨⟨_, _, rfl, rfl⟩, fun h => ?_⟩
  have hread := (h (.part ⟨0, 100, 10⟩) (.part _) 1 10 partitioned).read
  obtain ⟨new, hnew, hown⟩ := Isolated.own hread
  have hmem : Place.sector 0 110 ∈ new := by
    have : new = [Place.sector 0 110] := hnew.symm
    rw [this]
    exact List.mem_singleton.mpr rfl
  exact absurd (hown _ hmem).2.2 (by decide)

theorem requests_isolated_first : Isolates (.ramdisk (ramdisks 0)) 1 0 partitioned ↔
    (Driver.ramdisk (ramdisks 0)).Harmless 1 0 partitioned :=
  requests_isolated (.ramdisk 0 (by decide))

end NeonixBlockDevices
