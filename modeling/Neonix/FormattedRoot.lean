import Neonix.FormattedMaps

/-! # The root directory of a formatted device

    `new_inode` stores the first 14 bytes of inode 1 and leaves its zones, so `bmap`
    allocates the block of the root directory only where the device had no zone
    there before (`Rooted`). -/

namespace NeonixFormattedRoot

open NeonixMachine NeonixByteBits NeonixWords NeonixVolume NeonixAllocators NeonixCalls
  NeonixFileSystem NeonixNamei NeonixFrames NeonixDirectories NeonixResolver NeonixWalks NeonixUmount
  NeonixBlockTrees NeonixMounts NeonixFormattedMaps

variable {bad : Halt → Prop} {s t : Kernel} {desc : SuperDesc} {dev : Dev} {d e : Nat → Bytes}
  {f g : Nat → Bool} {b i k o nr total inodes : Nat} {task : Task}

/-! ## Stores on a device -/

theorem putU8_onDisk (s : Kernel) (d : Nat → Bytes) (x : Byte) :
    (onDisk s dev d).putU8 { dev := dev, block := b, off := o } x =
      onDisk s dev (Function.update d b (putU8 (d b) o x)) := by
  rw [Kernel.putU8, onDisk_self]
  exact setBlock_onDisk s dev d b _

theorem putU16_onDisk (s : Kernel) (d : Nat → Bytes) (x : BitVec 16) :
    (onDisk s dev d).putU16 { dev := dev, block := b, off := o } x =
      onDisk s dev (Function.update d b (putU16 (d b) o x)) := by
  rw [Kernel.putU16, onDisk_self]
  exact setBlock_onDisk s dev d b _

theorem putU32_onDisk (s : Kernel) (d : Nat → Bytes) (x : BitVec 32) :
    (onDisk s dev d).putU32 { dev := dev, block := b, off := o } x =
      onDisk s dev (Function.update d b (putU32 (d b) o x)) := by
  rw [Kernel.putU32, onDisk_self]
  exact setBlock_onDisk s dev d b _

/-- A store to the bytes of a block from `o` on. -/
def storeAt (data : Bytes) (o : Nat) (f : Bytes → Bytes) : Bytes := fun j =>
  if j < o then data j else f (fun i => data (o + i)) (j - o)

theorem setBytes_onDisk (s : Kernel) (d : Nat → Bytes) (f : Bytes → Bytes) :
    (onDisk s dev d).setBytes { dev := dev, block := b, off := o } f =
      onDisk s dev (Function.update d b (storeAt (d b) o f)) := by
  rw [Kernel.setBytes, setBlock_onDisk]
  congr 2
  funext j
  show (if j < o then (onDisk s dev d).disk dev b j
    else f (fun i => (onDisk s dev d).disk dev b (o + i)) (j - o)) = _
  rw [onDisk_self, storeAt]

/-! ## The inode of the root directory -/

/-- The stores of `new_inode`. -/
def newBytes (data : Bytes) (task : Task) (time : BitVec 32) : Bytes :=
  let data := putU16 data 0 (0o777 &&& ~~~ task.umask)
  let data := putU16 data 2 (BitVec.ofNat 16 task.uid)
  let data := putU32 data 4 (BitVec.ofNat 32 0)
  let data := putU32 data 8 time
  let data := putU8 data 12 (BitVec.ofNat 8 task.gid)
  putU8 data 13 1

/-- The stores of `devmkfs` behind it. -/
def rootBytes (data : Bytes) (task : Task) (time : BitVec 32) : Bytes :=
  let data := newBytes data task time
  let data := putU16 data 0 (0o777 &&& ~~~ task.umask ||| IFDIR)
  let data := putU32 data 4 (BitVec.ofNat 32 32)
  putU8 data 13 2

theorem inodeDesc_one (desc : SuperDesc) (dev : Dev) :
    inodeDesc desc dev 1 = { dev := dev, block := firstInodes desc, off := 0 } := rfl

/-- The slot `get_free_inode` takes. -/
def freeInode (s : Kernel) : Option Nat :=
  (List.range INODE_NR).find? fun i => (s.inode_table i).dev = EOF

/-- `iget` of an inode of a device none of whose inodes is in memory. -/
theorem iget_fresh (hk : getSuper s dev = some k) (hlist : (s.super_table k).inode_list = [])
    (hnr : nr ≤ (s.super_table k).desc.inodes) (hfree : freeInode s = some i) :
    From bad s (iget dev nr) fun r t => r = i ∧ t = loaded s k i { dev := dev, nr := nr } := by
  have hsuper : From bad s (theSuper dev) fun r t => t = s ∧ r = k := by
    refine From.get ?_
    rw [hk]
    exact From.pure ⟨rfl, rfl⟩
  refine From.bind (Q := fun r t => t = s ∧ r = none) ?_ fun r u hu => ?_
  · refine From.bind hsuper ?_
    rintro k u ⟨rfl, rfl⟩
    refine From.get (From.pure ⟨rfl, ?_⟩)
    rw [hlist]
    rfl
  rw [hu.1, hu.2]
  refine From.bind hsuper fun r u hu => ?_
  rw [hu.1, hu.2]
  refine From.get (past_assert hnr (From.bind (Q := fun r t => t = s ∧ r = i) ?_ fun r u hu => ?_))
  · refine From.get ?_
    rw [freeInode] at hfree
    rw [hfree]
    exact From.pure ⟨rfl, rfl⟩
  rw [hu.1, hu.2]
  refine From.set (From.get (past_assert ?_ (From.set (From.set (From.pure ⟨rfl, ?_⟩)))))
  · show i ∉ (s.super_table k).inode_list
    rw [hlist]
    exact List.not_mem_nil
  · simp only [loaded, Kernel.setSuper, Kernel.setInode, Function.update_self]

/-- `new_inode` of inode 1. -/
theorem newInode_runs (hk : getSuper s dev = some k) (hsb : (s.super_table k).desc = desc)
    (hlist : (s.super_table k).inode_list = []) (hinodes : 1 ≤ desc.inodes)
    (hfree : freeInode s = some i) (htask : s.task_table s.current = some task) :
    From bad (onDisk s dev d) (newInode dev 1) fun r t => r = i ∧
      t = onDisk (loaded s k i { dev := dev, nr := 1 }) dev
        (Function.update d (firstInodes desc) (newBytes (d (firstInodes desc)) task s.time)) := by
  have hrunning : From bad (onDisk s dev d) runningTask fun r t => t = onDisk s dev d ∧
      r = task := by
    refine From.get ?_
    show From bad (onDisk s dev d) (deref (s.task_table s.current)) _
    rw [htask]
    exact From.pure ⟨rfl, rfl⟩
  refine From.bind hrunning fun r u hu => ?_
  rw [hu.1, hu.2]
  refine From.bind (iget_fresh (s := onDisk s dev d) (k := k) hk hlist (by
    show 1 ≤ (s.super_table k).desc.inodes
    rw [hsb]
    exact hinodes) hfree) ?_
  rintro i _ ⟨rfl, rfl⟩
  have hdesc : (loaded s k i { dev := dev, nr := 1 }).desc i =
      { dev := dev, block := firstInodes desc, off := 0 } := by
    rw [Kernel.desc, loaded_self, hsb]
    exact inodeDesc_one desc dev
  have hload : loaded (onDisk s dev d) k i { dev := dev, nr := 1 } =
      onDisk (loaded s k i { dev := dev, nr := 1 }) dev d := rfl
  rw [hload]
  generalize hw : loaded s k i { dev := dev, nr := 1 } = w at hdesc
  have hdesc' : ∀ e, (onDisk w dev e).desc i =
      { dev := dev, block := firstInodes desc, off := 0 } :=
    fun _ => hdesc
  refine From.set (From.set (From.set (From.set (From.set (From.set (From.pure ⟨rfl, ?_⟩))))))
  simp only [Kernel.setMode, Kernel.setUid, Kernel.setSize, Kernel.setMtime, Kernel.setGid,
    Kernel.setNlinks, hdesc', Place.add, putU16_onDisk, putU32_onDisk, putU8_onDisk,
    Function.update_self, Function.update_idem]
  subst hw
  rfl

/-! ## The block of the root directory -/

/-- The zone bitmap has a clear bit for `balloc`, its first, or none in any block. -/
inductive Search (bad : Halt → Prop) (desc : SuperDesc) (g : Nat → Bool) : Prop where
  | finds (r : Nat) (hr : r < BLOCK_BITS) (clear : g r = false) (set : ∀ i < r, g i = true)
      (limit : desc.firstdatazone - 1 + r < desc.zones) : Search bad desc g
  | stops (set : ∀ j < desc.zmap_blocks * BLOCK_BITS, g j = true) (room : desc.zmap_blocks < ZMAP_NR)
      (stop : ¬ bad (.stopped .assertion)) : Search bad desc g

/-- The block of the root directory: the zone on the device, or one that was free,
    marked and stored now. -/
inductive Rooted (desc : SuperDesc) (g : Nat → Bool) (data : Bytes) :
    (g' : Nat → Bool) → (data' : Bytes) → (block : Nat) → Prop where
  | stale (zone : u16At data 14 ≠ 0) : Rooted desc g data g data (u16At data 14).toNat
  | taken (zone : u16At data 14 = 0) (r : Nat) (hr : r < BLOCK_BITS) (clear : g r = false)
      (set : ∀ i < r, g i = true) (limit : desc.firstdatazone - 1 + r < desc.zones) :
      Rooted desc g data (Function.update g r true)
        (putU16 data 14 (BitVec.ofNat 16 (desc.firstdatazone - 1 + r))) (desc.firstdatazone - 1 + r)

theorem zone_index (u : Kernel) :
    (onDisk u dev d).index { dev := dev, block := b, off := 14 } 0 = u16At (d b) 14 := by
  show u16At (fun j => (onDisk u dev d).disk dev b (14 + j)) 0 = _
  rw [onDisk_self]
  rfl

/-- `balloc` in the bitmap of `g`. -/
theorem balloc_search (hk : getSuper s dev = some k) (hsb : (s.super_table k).desc = desc)
    (hzones : 0 < desc.zmap_blocks) (hsearch : Search bad desc g) (h : Maps desc f g d e) :
    From bad (onDisk s dev e) (NeonixFileSystem.balloc dev) fun b t => ∃ r < BLOCK_BITS,
      g r = false ∧ (∀ i < r, g i = true) ∧ desc.firstdatazone - 1 + r < desc.zones ∧
      b = desc.firstdatazone - 1 + r ∧ MapsOn s dev desc f (Function.update g r true) d t := by
  have hpos := firstdatazone_pos desc
  cases hsearch with
  | finds r hr hclear hset hlimit =>
      have hput := h.zoneBits.put (consecutive_zmaps desc) (r := r)
      have halloc := h.zoneBits.alloc 7 Nat.le.refl hzones hr hclear hset
        (by show r + (0 * BLOCK_BITS + desc.firstdatazone - 1) < desc.zones; omega)
      refine From.bind (onVolume_runs hk hsb halloc) ?_
      rintro _ _ ⟨rfl, rfl⟩
      have hzero : r / BLOCK_BITS < desc.zmap_blocks := by
        rw [Nat.div_eq_of_lt hr]
        exact hzones
      refine From.pure ⟨r, hr, hclear, hset, hlimit, ?_, _, rfl, h.zoneStore hzero hput⟩
      show r + (0 * BLOCK_BITS + desc.firstdatazone - 1) = _
      omega
  | stops hset hroom hstop =>
      have hfull := balloc_full (v := { desc := desc, disk := e }) fun j hj => by
        have hin : j < desc.zmap_blocks * BLOCK_BITS := by
          rw [Nat.mul_comm]
          exact hj
        exact (h.zoneBits j hin).trans (hset j hin)
      rw [if_pos hroom] at hfull
      exact From.bind (onVolume_stops (Q := fun _ _ => False) hk hsb hfull hstop) fun _ _ h => h.elim

theorem bmap_runs (hk : getSuper s dev = some k) (hsb : (s.super_table k).desc = desc)
    (hdev : (s.inode_table i).dev = dev)
    (hdesc : s.desc i = { dev := dev, block := firstInodes desc, off := 0 })
    (hzones : 0 < desc.zmap_blocks) (hsearch : Search bad desc g) (h : Maps desc f g d e) :
    From bad (onDisk s dev e) (bmap i 0 true) fun block t => ∃ g' data e',
      Rooted desc g (d (firstInodes desc)) g' data block ∧ t = onDisk s dev e' ∧
      Maps desc f g' (Function.update d (firstInodes desc) data) e' := by
  have hzone : ∀ e, (onDisk s dev e).zone i =
      { dev := dev, block := firstInodes desc, off := 14 } := by
    intro e
    show (s.desc i).add 14 = _
    rw [hdesc]
    rfl
  have hpart : (0 : Nat) < TOTAL_BLOCK ∧ (0 : Nat) < DIRECT_BLOCK := by decide
  refine past_assert hpart.1 (From.get ?_)
  show From bad (onDisk s dev e)
    (if 0 < DIRECT_BLOCK then slot (s.inode_table i).dev true ((onDisk s dev e).zone i) 0 else _) _
  rw [if_pos hpart.2, hdev, hzone]
  refine From.get (From.onlyIf (fun hindex => ?_) fun hindex => ?_)
  · -- no zone yet
    have hnone := hindex.1
    rw [zone_index, h.firstInodes] at hnone
    refine From.bind (From.bind (balloc_search hk hsb hzones hsearch h) fun b t hb =>
      From.store (Q := fun _ u => ∃ g' data e',
        Rooted desc g (d (firstInodes desc)) g' data (u16At (e' (firstInodes desc)) 14).toNat ∧
        u = onDisk s dev e' ∧ Maps desc f g' (Function.update d (firstInodes desc) data) e') ?_) ?_
    · obtain ⟨r, hr, hclear, hset, hlimit, rfl, e', rfl, hmaps⟩ := hb
      have hroot := Rooted.taken hnone r hr hclear hset hlimit
      have hback : (BitVec.ofNat 16 (desc.firstdatazone - 1 + r)).toNat =
          desc.firstdatazone - 1 + r := by
        have hle := desc.zones_le
        rw [BitVec.toNat_ofNat]
        omega
      refine ⟨_, _, _, ?_, putU16_onDisk s e' _, hmaps.inodeBlock _⟩
      rw [Function.update_self, u16At_putU16, hback, hmaps.firstInodes]
      exact hroot
    · rintro _ _ ⟨g', data, e', hroot, rfl, hmaps⟩
      refine From.get (From.pure ⟨g', data, e', ?_, rfl, hmaps⟩)
      rw [zone_index]
      exact hroot
  · have hsome : u16At (d (firstInodes desc)) 14 ≠ 0 := by
      intro hzero
      rw [zone_index, h.firstInodes] at hindex
      exact hindex ⟨hzero, rfl⟩
    refine From.get (From.pure ⟨g, d (firstInodes desc), e, ?_, rfl, ?_⟩)
    · rw [zone_index, h.firstInodes]
      exact .stale hsome
    · rw [Function.update_eq_self]
      exact h

/-! ## `devmkfs` from the root directory on -/

/-- The block of the root directory: `.` and `..`. -/
def rootEntries : Bytes :=
  let data := storeAt (fun _ => 0) 2 fun old => strcpy old [0x2E]
  let data := putU16 data 0 (BitVec.ofNat 16 1)
  let data := storeAt data 18 fun old => strcpy old [0x2E, 0x2E]
  putU16 data 16 (BitVec.ofNat 16 1)

/-- The tables with the root inode in memory. -/
def withRoot (s : Kernel) (dev : Dev) (k i : Nat) : Kernel :=
  (loaded s k i { dev := dev, nr := 1 }).setSuper k fun sb => { sb with iroot := some i }

theorem withRoot_inode (s : Kernel) (dev : Dev) (k i : Nat) :
    (withRoot s dev k i).inode_table i =
      { s.inode_table i with
        desc := inodeDesc (s.super_table k).desc dev 1, dev := dev, nr := 1,
        count := (s.inode_table i).count + 1 } :=
  loaded_self s k i { dev := dev, nr := 1 }

theorem withRoot_super (s : Kernel) (dev : Dev) (k i : Nat) :
    (withRoot s dev k i).super_table k =
      { s.super_table k with inode_list := i :: (s.super_table k).inode_list, iroot := some i } := by
  rw [withRoot, Kernel.setSuper]
  dsimp only
  rw [Function.update_self, loaded_super, if_pos rfl]

theorem withRoot_dev (s : Kernel) (dev : Dev) (k i j : Nat) :
    ((withRoot s dev k i).super_table j).dev = (s.super_table j).dev := by
  by_cases hj : j = k
  · rw [hj, withRoot_super]
  · rw [withRoot, Kernel.setSuper]
    dsimp only
    rw [Function.update_of_ne hj, loaded_super]

theorem withRoot_getSuper (s : Kernel) (dev : Dev) (k i : Nat) (e : Dev) :
    getSuper (withRoot s dev k i) e = getSuper s e := by
  rw [getSuper, getSuper]
  congr 1
  funext j
  exact decide_eq_decide.mpr (by rw [withRoot_dev])

theorem formatRoot_runs (hk : getSuper s dev = some k) (hsb : (s.super_table k).desc = desc)
    (hlist : (s.super_table k).inode_list = []) (hinodes : 1 ≤ desc.inodes)
    (hzones : 0 < desc.zmap_blocks) (hfree : freeInode s = some i)
    (htask : s.task_table s.current = some task) (hsearch : Search bad desc g)
    (h : Maps desc f g d e) :
    From bad (onDisk s dev e) (formatRoot dev k) fun _ t => ∃ g' data block e',
      Rooted desc g (rootBytes (d (firstInodes desc)) task s.time) g' data block ∧
      t = onDisk (withRoot s dev k i) dev (Function.update e' block rootEntries) ∧
      Maps desc f g' (Function.update d (firstInodes desc) data) e' := by
  have hrunning : From bad (onDisk s dev e) runningTask fun r t => t = onDisk s dev e ∧
      r = task := by
    refine From.get ?_
    show From bad (onDisk s dev e) (deref (s.task_table s.current)) _
    rw [htask]
    exact From.pure ⟨rfl, rfl⟩
  refine From.bind hrunning fun r u hu => ?_
  rw [hu.1, hu.2]
  refine From.bind (newInode_runs hk hsb hlist hinodes hfree htask) ?_
  rintro i _ ⟨rfl, rfl⟩
  have hroot : ∀ e, Kernel.setSuper (onDisk (loaded s k i { dev := dev, nr := 1 }) dev e) k
      (fun sb => { sb with iroot := some i }) = onDisk (withRoot s dev k i) dev e := fun _ => rfl
  have hdesc : (withRoot s dev k i).desc i =
      { dev := dev, block := firstInodes desc, off := 0 } := by
    rw [Kernel.desc, withRoot_inode, hsb]
    exact inodeDesc_one desc dev
  have hdev : ((withRoot s dev k i).inode_table i).dev = dev := by rw [withRoot_inode]
  have hnr : ((withRoot s dev k i).inode_table i).nr = 1 := by rw [withRoot_inode]
  have hk' := (withRoot_getSuper s dev k i dev).trans hk
  have hsb' : ((withRoot s dev k i).super_table k).desc = desc := by
    rw [withRoot_super]
    exact hsb
  refine From.set ?_
  rw [hroot]
  generalize withRoot s dev k i = w at hdesc hdev hnr hk' hsb' ⊢
  have hdesc' : ∀ e, (onDisk w dev e).desc i =
      { dev := dev, block := firstInodes desc, off := 0 } :=
    fun _ => hdesc
  refine From.set (From.set (From.set ?_))
  simp only [Kernel.setMode, Kernel.setSize, Kernel.setNlinks, hdesc', Place.add, putU16_onDisk,
    putU32_onDisk, putU8_onDisk, Function.update_self, Function.update_idem]
  rw [h.firstInodes]
  refine From.bind (bmap_runs hk' hsb' hdev hdesc hzones hsearch
    (h.inodeBlock (rootBytes (d (firstInodes desc)) task s.time))) ?_
  rintro block _ ⟨g', data, e', hrooted, rfl, hmaps⟩
  rw [Function.update_self] at hrooted
  rw [Function.update_idem] at hmaps
  have hnr' : ∀ e, ((onDisk w dev e).inode_table i).nr = 1 := fun _ => hnr
  refine From.bind (Q := fun _ t => t = onDisk w dev (Function.update e' block fun _ => 0)) ?_ ?_
  · exact From.store (setBlock_onDisk w dev e' block _)
  rintro _ _ rfl
  refine From.set (From.set (From.set (From.store ⟨g', data, block, e', hrooted, ?_, hmaps⟩)))
  simp only [Kernel.setEntryNr, hnr', setBytes_onDisk, putU16_onDisk,
    Function.update_self, Function.update_idem]
  rfl

/-! ## The whole call -/

/-- A device to format: it is not mounted, and there are a super block and a slot of
    the inode table for the call. -/
structure Ready (s : Kernel) (dev : Dev) : Prop where
  device : dev ≠ EOF
  unmounted : getSuper s dev = none
  spare : ∃ k, getSuper s EOF = some k ∧ (s.super_table k).inode_list = [] ∧
    (s.super_table k).imount = none
  slot : ∃ i, freeInode s = some i ∧ i ≠ 0 ∧ (s.inode_table i).count = 0 ∧
    (s.inode_table i).pipe = false
  task : ∃ task, s.task_table s.current = some task

/-- The super block of the device during the call. -/
theorem getSuper_taken (hnone : getSuper s dev = none)
    (hspare : getSuper s EOF = some k) :
    getSuper (s.setSuper k fun sb => { sb with dev := dev, count := 1 }) dev = some k := by
  have hlt := (getSuper_some hspare).1
  have hself : ((s.setSuper k fun sb => { sb with dev := dev, count := 1 }).super_table k).dev =
      dev := by
    rw [Kernel.setSuper]
    dsimp only
    rw [Function.update_self]
  cases hfind : getSuper (s.setSuper k fun sb => { sb with dev := dev, count := 1 }) dev with
  | none => exact absurd (decide_eq_true hself) (List.find?_eq_none.mp hfind k (List.mem_range.mpr hlt))
  | some j =>
      by_contra hne
      have hjk : j ≠ k := fun hj => hne (congrArg some hj)
      obtain ⟨hj, hjd⟩ := getSuper_some hfind
      rw [Kernel.setSuper] at hjd
      dsimp only at hjd
      rw [Function.update_of_ne hjk] at hjd
      exact List.find?_eq_none.mp hnone j (List.mem_range.mpr hj) (decide_eq_true hjd)

/-- `put_super` of the device, with the last reference to its root inode. -/
theorem putSuper_last (hcount : (s.super_table k).count = 1)
    (himount : (s.super_table k).imount = none) (hiroot : (s.super_table k).iroot = some i)
    (hk : k < SUPER_NR) (hin : i ∈ (s.super_table k).inode_list) (hi : i ≠ 0)
    (hone : (s.inode_table i).count = 1) (hpipe : (s.inode_table i).pipe = false) :
    From bad s (putSuper (some k)) fun _ t => t.disk = s.disk := by
  have hself : ∀ (u : Kernel) f, (u.setSuper k f).super_table k = f (u.super_table k) := fun u f =>
    Function.update_self ..
  refine From.get (past_assert (by rw [hcount]; decide) (From.set (From.get ?_)))
  rw [hself, hcount]
  refine From.ite (fun hne => absurd rfl hne) fun _ => From.set (From.get ?_)
  rw [hself, hself, himount]
  refine From.bind (Q := fun _ t => t = _) (From.pure rfl) ?_
  rintro _ _ rfl
  refine From.get ?_
  rw [hself, hself, hiroot]
  refine (iput_runs ?_ ?_ fun _ => ⟨⟨k, hk, ?_⟩, hi⟩).post ?_
  · exact hpipe
  · show (s.inode_table i).count ≠ 0
    rw [hone]
    decide
  · rw [hself, hself]
    exact hin
  · rintro _ _ rfl
    split_ifs <;> rfl

/-- The bits of the bitmaps `devmkfs` stores. -/
def inodeTail (inodes : Nat) : Nat → Bool := tailed (imapBlocks inodes) (inodes + 1) (below 2)

def zoneTail (total inodes : Nat) : Nat → Bool :=
  tailed (zmapBlocks total inodes) (zoneCount total inodes) (below 1)

/-- What `devmkfs` leaves on the device `d` but for the block of the root directory. -/
structure Made (total inodes : Nat) (d e : Nat → Bytes) (desc : SuperDesc) (block : Nat) :
    Prop where
  describes : Describes desc total inodes
  more : 1 < inodes
  super : ∃ z, SizesAre z total inodes ∧ e 1 = putDesc (d 1) z ∧
    makeDesc z.inodes z.zones z.imap_blocks z.zmap_blocks z.firstdatazone = some desc
  inodeBits : Shows { desc := desc, disk := e } (imaps desc) (inodeTail inodes)
  root : ∃ g task time, Rooted desc (zoneTail total inodes)
      (rootBytes (d (firstInodes desc)) task time) g (e (firstInodes desc)) block ∧
    Shows { desc := desc, disk := e } (zmaps desc) g

/-- The number of inodes `devmkfs` takes. -/
def inodeCount (total icount : Nat) : Nat := if icount = 0 then total / 3 else icount

theorem devmkfs_runs {icount : Nat} (h : Ready s dev) (ht : total ≤ 65535) (hi : icount < total)
    (hinodes : inodes = inodeCount total icount) (hz : LeavesZone total inodes)
    (hone : inodes = 1 → ¬ bad (.stopped .assertion))
    (hsearch : ∀ desc, Describes desc total inodes → Search bad desc (zoneTail total inodes)) :
    From bad s (devmkfs total dev icount) fun ret t => ret = 0 ∧
      ∃ desc block e, Made total inodes (s.disk dev) e desc block ∧
        t.disk dev = Function.update e block rootEntries := by
  obtain ⟨k, hspare, hlist, himount⟩ := h.spare
  obtain ⟨i, hfree, hi0, hcount, hpipe⟩ := h.slot
  obtain ⟨task, htask⟩ := h.task
  have hlt : inodes < total := by
    rw [hinodes, inodeCount]
    split_ifs <;> omega
  have hpos : 0 < inodes := by
    rw [LeavesZone, firstZone, zmapBlocks, zoneCount, inodeBlocks, imapBlocks] at hz
    rw [hinodes, inodeCount] at hz ⊢
    split_ifs at hz ⊢ <;> omega
  have hare := sizes_are ht hlt hz
  obtain ⟨desc, hmake, hdesc⟩ := makeDesc_describes ht hlt hare
  refine past_assert (by omega) (past_assert hi ?_)
  refine From.bind (Q := fun r t => t = s ∧ r = k) ?_ fun r u hu => ?_
  · refine From.get ?_
    rw [hspare]
    exact From.pure ⟨rfl, rfl⟩
  rw [hu.1, hu.2]
  refine From.set ?_
  have htaken := getSuper_taken h.unmounted hspare
  have hself : ((s.setSuper k fun sb => { sb with dev := dev, count := 1 }).super_table k) =
      { s.super_table k with dev := dev, count := 1 } := Function.update_self ..
  have hdisk : (s.setSuper k fun sb => { sb with dev := dev, count := 1 }).disk = s.disk := rfl
  have hfree' : freeInode (s.setSuper k fun sb => { sb with dev := dev, count := 1 }) =
      some i := hfree
  have hslot : (s.setSuper k fun sb => { sb with dev := dev, count := 1 }).inode_table i =
      s.inode_table i := rfl
  have htask' : (s.setSuper k fun sb => { sb with dev := dev, count := 1 }).task_table
      (s.setSuper k fun sb => { sb with dev := dev, count := 1 }).current = some task := htask
  change From bad _ (formatMaps dev (sizes total (inodeCount total icount)) (inodeCount total icount)
    >>= _) _
  rw [← hinodes]
  generalize s.setSuper k (fun sb => { sb with dev := dev, count := 1 }) = u at *
  -- the bitmaps
  refine From.bind (formatMaps_runs htaken hmake hdesc hare.zcount_eq hz hpos hone) ?_
  rintro _ _ ⟨⟨e, rfl, hmaps⟩, hmore⟩
  rw [hdesc.imap_eq, hdesc.zmap_eq] at hmaps
  have hk := (redescribe_getSuper u dev desc dev).trans htaken
  have hsuper : (redescribe u dev desc).super_table k =
      { s.super_table k with desc := desc, dev := dev, count := 1 } := by
    rw [redescribe_super, hself, if_pos rfl]
  have hzones : 0 < desc.zmap_blocks := by
    rw [hdesc.zmap_eq, zmapBlocks]
    rw [LeavesZone, firstZone, zmapBlocks, zoneCount] at hz
    rw [zoneCount]
    omega
  -- the root directory
  refine From.bind (formatRoot_runs (i := i) hk (by rw [hsuper]) (by rw [hsuper]; exact hlist)
    (by rw [hdesc.inodes_eq]; exact hpos) hzones hfree' htask' (hsearch desc hdesc) hmaps) ?_
  rintro _ _ ⟨g', data, block, e', hroot, rfl, hmaps'⟩
  refine From.bind (putSuper_last (i := i) ?_ ?_ ?_ (getSuper_some hk).1 ?_ hi0 ?_ ?_) fun _ v hv =>
    From.pure ⟨rfl, desc, block, e', ?_, ?_⟩
  · show ((withRoot (redescribe u dev desc) dev k i).super_table k).count = 1
    rw [withRoot_super, hsuper]
  · show ((withRoot (redescribe u dev desc) dev k i).super_table k).imount = none
    rw [withRoot_super, hsuper]
    exact himount
  · show ((withRoot (redescribe u dev desc) dev k i).super_table k).iroot = some i
    rw [withRoot_super]
  · show i ∈ ((withRoot (redescribe u dev desc) dev k i).super_table k).inode_list
    rw [withRoot_super]
    exact List.mem_cons_self
  · show ((withRoot (redescribe u dev desc) dev k i).inode_table i).count = 1
    rw [withRoot_inode]
    show (u.inode_table i).count + 1 = 1
    rw [hslot, hcount]
  · show ((withRoot (redescribe u dev desc) dev k i).inode_table i).pipe = false
    rw [withRoot_inode]
    show (u.inode_table i).pipe = false
    rw [hslot]
    exact hpipe
  · have hbehind : 1 ≠ firstInodes desc := by
      rw [firstInodes]
      omega
    have hother : ∀ b, ¬ (2 ≤ b ∧ b < 2 + desc.imap_blocks + desc.zmap_blocks) → e' b = _ :=
      hmaps'.other
    refine ⟨hdesc, hmore, ⟨_, hare, ?_, hmake⟩, hmaps'.inodeBits, g', task, u.time, ?_,
      hmaps'.zoneBits⟩
    · rw [hother 1 (by omega), Function.update_of_ne hbehind, Function.update_self, hdisk]
    · rw [hmaps'.firstInodes, Function.update_self]
      rw [Function.update_of_ne hbehind.symm, hdisk] at hroot
      exact hroot
  · rw [hv, onDisk_self]

end NeonixFormattedRoot
