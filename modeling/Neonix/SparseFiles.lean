import Neonix.DenseFiles
import Neonix.Runs

/-! # What was never written reads as zero

    Seeks, writes and reads of one new file, with a log of the last byte written at
    each place.  `sparse_reads` is about the runs whose writes leave no hole and no
    byte of a zone in front of what they store: there a read returns the log, and
    zeros where nothing was written. -/

namespace NeonixSparseFiles

open NeonixMachine NeonixOutcome NeonixByteBits NeonixWords NeonixVolume NeonixAllocators NeonixCalls
  NeonixFileSystem NeonixNamei NeonixFiles NeonixFrames NeonixDirectories NeonixBlockTrees
  NeonixBlockMaps NeonixFileData NeonixFileOffsets NeonixFileContents NeonixDenseFiles NeonixRuns

variable {s t u : Kernel} {sb : SuperDesc} {d : Place} {k i m o fuel : Nat} {fd count : Int}
  {specialRead : Nat → Int → Fs (Int × List Byte)}
  {specialWrite : Nat → (Nat → Byte) → Int → Fs Int}

/-! ## Calls on one file -/

/-- The kernel, and the last byte written at each place of the file. -/
structure Logged where
  kernel : Kernel
  written : Nat → Option Byte

/-- Where the next call on an open file begins. -/
def offsetOf (s : Kernel) (k : Nat) : Nat := (s.file_table k).offset.toNat

/-- The open file may be read. -/
def Readable (s : Kernel) (k : Nat) : Prop := (s.file_table k).flags &&& O_ACCMODE ≠ O_WRONLY

/-- The open file may be written. -/
def Writable (s : Kernel) (k : Nat) : Prop := (s.file_table k).flags &&& O_ACCMODE ≠ O_RDONLY

instance (s : Kernel) (k : Nat) : Decidable (Writable s k) := inferInstanceAs (Decidable (_ ≠ _))

/-- The log with `len` bytes from `o` on. -/
def put (written : Nat → Option Byte) (o len : Nat) (buf : Nat → Byte) : Nat → Option Byte :=
  fun x => if o ≤ x ∧ x < o + len then some (buf (x - o)) else written x

/-- The log after a call. -/
def logged (k : Nat) (σ : Logged) : FileCall → Nat → Option Byte
  | .write _ buf count =>
      if Writable σ.kernel k then put σ.written (offsetOf σ.kernel k) count.toNat buf else σ.written
  | _ => σ.written

/-- A task seeks, writes or reads through a descriptor of the open file `k` of inode `i`,
    and does not seek to a negative offset. -/
def Uses (k i : Nat) (σ : Logged) (e : FileEvent) : Prop :=
  match e.call with
  | .open .. => False
  | .lseek fd offset whence => Opens (enter σ.kernel e) fd k i ∧
      (whence = .end → 0 ≤ int32 (σ.kernel.size i + offset.toInt))
  | .read fd _ | .write fd _ _ => Opens (enter σ.kernel e) fd k i

/-- A new file: no bytes and no blocks. -/
structure NewFile (sb : SuperDesc) (d : Place) (k i : Nat) (σ : Logged) : Prop where
  located : Located σ.kernel sb d i
  reserved : Reserved (vol σ.kernel sb d.dev)
  size : σ.kernel.size i = 0
  zones : ∀ z < 9, σ.kernel.index (d.add 14) z = 0
  offset : Sound (σ.kernel.file_table k).offset
  log : ∀ x, σ.written x = none

section System

variable (specialRead : Nat → Int → Fs (Int × List Byte))
  (specialWrite : Nat → (Nat → Byte) → Int → Fs Int)

def advance (k : Nat) (σ : Logged) (e : FileEvent) : Except Halt Logged := do
  let t ← exec specialRead specialWrite σ.kernel e
  return { kernel := t, written := logged k σ e.call }

/-- Calls on one file, from a new file on. -/
def system (sb : SuperDesc) (d : Place) (k i : Nat) : System Logged FileEvent :=
  execSystem (NewFile sb d k i) (Uses k i) (advance specialRead specialWrite k)

end System

/-! ## What a write needs -/

/-- A write of `len` bytes at `o` to a file of a size: it skips no part, the bytes between
    the end of the file and what is stored are zero where they will come from, and there
    are zones, blank ones for index blocks. -/
structure Extends (s : Kernel) (sb : SuperDesc) (d : Place) (size o len : Nat) : Prop where
  near : o / BLOCK_SIZE ≤ parts size
  old : ∀ x, size ≤ x → x < o → x / BLOCK_SIZE < parts size → byteAt s d x = 0
  front : FrontClear s sb d (parts size) o
  room : Room s sb d (parts size) (parts (o + len))

/-- The condition on a step. -/
def Covered (sb : SuperDesc) (d : Place) (k i : Nat) (σ : Logged) (e : FileEvent) : Prop :=
  match e.call with
  | .write _ _ count => Writable σ.kernel k →
      Extends σ.kernel sb d (σ.kernel.size i) (offsetOf σ.kernel k) count.toNat
  | _ => True

/-- The file has no hole, and its bytes are those of the log. -/
structure Intact (sb : SuperDesc) (d : Place) (k i : Nat) (σ : Logged) : Prop where
  dense : Dense σ.kernel sb d i (parts (σ.kernel.size i))
  offset : Sound (σ.kernel.file_table k).offset
  bytes : ∀ x < σ.kernel.size i, byteAt σ.kernel d x = (σ.written x).getD 0
  behind : ∀ x, σ.kernel.size i ≤ x → σ.written x = none

theorem NewFile.intact {σ : Logged} (h : NewFile sb d k i σ) : Intact sb d k i σ := by
  have hzero : ∀ z js, Position z js → blockAt σ.kernel d z js = 0 := by
    intro z js hp
    have hz := h.zones z hp.zone
    rw [blockAt]
    cases js with
    | nil =>
        rw [through, hz]
        rfl
    | cons j js => rw [through, if_pos hz]
  refine ⟨⟨h.located, h.reserved, ⟨?_, ?_⟩, fun z js hp => ?_, ?_⟩, h.offset, fun x hx => ?_,
    fun x _ => h.log x⟩
  · exact fun z js hp hne => absurd (hzero z js hp) hne
  · exact fun z js _ _ hp _ hne _ => absurd (hzero z js hp) hne
  · rw [h.size]
    exact ⟨fun hne => absurd (hzero z js hp) hne, fun hlt => absurd hlt (Nat.not_lt_zero _)⟩
  · rw [h.size]
    exact Nat.zero_le _
  · rw [h.size] at hx
    exact absurd hx (Nat.not_lt_zero _)

/-! ## The calls -/

theorem parts_max (a b : Nat) : parts (max a b) = max (parts a) (parts b) := by
  show (max a b + 1023) / 1024 = max ((a + 1023) / 1024) ((b + 1023) / 1024)
  omega

theorem byteAt_disk (h : t.disk = s.disk) (x : Nat) : byteAt t d x = byteAt s d x := by
  rw [byteAt, byteAt, h, blockOf_eq, blockOf_eq, NeonixCreations.blockAt_disk h]

/-- Nothing but the offset of the open file matters outside the disk and the inode. -/
theorem Intact.of_disk {σ : Logged} (h : Intact sb d k i σ) (hdisk : t.disk = σ.kernel.disk)
    (hloc : Located t sb d i) (ho : Sound (t.file_table k).offset) :
    Intact sb d k i { σ with kernel := t } := by
  have hsize : t.size i = σ.kernel.size i := by
    have hbytes : t.bytes d = σ.kernel.bytes d := by
      funext x
      rw [Kernel.bytes, Kernel.bytes, hdisk]
    rw [Kernel.size, Kernel.size, hloc.desc, h.dense.located.desc, hbytes]
  refine ⟨?_, ho, fun x hx => ?_, fun x hx => ?_⟩
  · show Dense t sb d i (parts (t.size i))
    rw [hsize]
    exact h.dense.of_disk hdisk hloc
  · change x < t.size i at hx
    rw [hsize] at hx
    exact (byteAt_disk hdisk x).trans (h.bytes x hx)
  · change t.size i ≤ x at hx
    rw [hsize] at hx
    exact h.behind x hx

theorem Intact.setFile {σ : Logged} {f : File → File} (h : Intact sb d k i σ)
    (hf : Sound (f (σ.kernel.file_table k)).offset) :
    Intact sb d k i { σ with kernel := σ.kernel.setFile k f } := by
  have hloc := h.dense.located
  refine h.of_disk rfl ⟨hloc.volume, hloc.desc, hloc.device, hloc.place⟩ ?_
  rw [offset_setFile, if_pos rfl]
  exact hf

/-- The offset is moved by what a call returned. -/
theorem Intact.moved {σ : Logged} {r : Int} (h : Intact sb d k i σ)
    (hr : r ≠ EOF → Sound ((σ.kernel.file_table k).offset + r)) :
    Intact sb d k i { σ with kernel := NeonixFileOffsets.moved σ.kernel k r } := by
  by_cases he : r = EOF
  · rw [NeonixFileOffsets.moved, if_neg (not_not.mpr he)]
    exact h
  · rw [NeonixFileOffsets.moved, if_pos he]
    refine h.setFile ?_
    have hs := hr he
    have hint : int32 ((σ.kernel.file_table k).offset + r) =
        (σ.kernel.file_table k).offset + r := by
      obtain ⟨hpos, hlt⟩ := hs
      rw [int32]
      omega
    rwa [← hint] at hs

theorem Intact.enter {σ : Logged} (h : Intact sb d k i σ) (e : FileEvent) :
    Intact sb d k i { σ with kernel := NeonixFileOffsets.enter σ.kernel e } := by
  have hloc := h.dense.located
  exact h.of_disk rfl ⟨hloc.volume, hloc.desc, hloc.device, hloc.place⟩ h.offset

theorem offsetOf_eq {σ : Logged} (h : Intact sb d k i σ) :
    (σ.kernel.file_table k).offset = offsetOf σ.kernel k := by
  have hpos := h.offset.1
  rw [offsetOf]
  omega

/-- What the log says after a write. -/
theorem Intact.write {σ : Logged} {len : Nat} {buf : Nat → Byte} (h : Intact sb d k i σ)
    (hlen : 0 < len) (hx : Extends σ.kernel sb d (σ.kernel.size i) (offsetOf σ.kernel k) len)
    {r : Int}
    (hrun : inodeWrite i buf len (σ.kernel.file_table k).offset fuel σ.kernel = .ok (r, u)) :
    Intact sb d k i { kernel := NeonixFileOffsets.moved u k r,
                      written := put σ.written (offsetOf σ.kernel k) len buf } := by
  have ho := offsetOf_eq h
  generalize offsetOf σ.kernel k = o at ho hx ⊢
  rw [ho] at hrun
  have hlt : o < 2 ^ 31 := by
    have hsound := h.offset.2
    rw [ho] at hsound
    omega
  obtain ⟨rfl, hw⟩ := h.dense.inodeWrite hx.near hx.room hx.front hlen hlt hrun
  have hstored := hw.stored
  have hlast := (hstored.has (o + len - 1) (by omega) (by omega)).1
  change (o + len - 1) / 1024 < 262663 at hlast
  have hsize : u.size i = max (σ.kernel.size i) (o + len) := by
    rw [hstored.size, if_pos (by omega)]
  have hoff : (u.file_table k).offset = o := by
    rw [hstored.tables]
    exact ho
  refine Intact.moved (σ := { kernel := u, written := put σ.written o len buf })
    ⟨?_, ?_, fun x hxs => ?_, fun x hxs => ?_⟩ fun _ => ?_
  · show Dense u sb d i (parts (u.size i))
    rw [hsize, parts_max]
    exact hw.dense
  · show Sound (u.file_table k).offset
    rw [hoff]
    exact sound_nat hlt
  · change x < u.size i at hxs
    show byteAt u d x = (put σ.written o len buf x).getD 0
    rw [hsize] at hxs
    rw [put]
    by_cases hin : o ≤ x ∧ x < o + len
    · rw [if_pos hin, hstored.written x hin.1 hin.2]
      rfl
    rw [if_neg hin]
    by_cases hpart : x / BLOCK_SIZE < parts (σ.kernel.size i)
    · -- a byte of a part that was there
      have hn : x / BLOCK_SIZE < TOTAL_BLOCK := Nat.lt_of_lt_of_le hpart h.dense.bound
      rw [hstored.rest x ⟨hn, (h.dense.filled.part hn).mpr hpart⟩ hin]
      by_cases hold : x < σ.kernel.size i
      · exact h.bytes x hold
      · rw [h.behind x (Nat.le_of_not_lt hold), hx.old x (Nat.le_of_not_lt hold) (by omega) hpart]
        rfl
    · have hbehind : σ.kernel.size i ≤ x := by
        by_contra hno
        exact hpart (lt_parts (Nat.lt_of_not_le hno))
      rw [(hw.front x (by omega) (Nat.le_of_not_lt hpart)).2, h.behind x hbehind]
      rfl
  · change u.size i ≤ x at hxs
    rw [hsize] at hxs
    show put σ.written o len buf x = none
    rw [put, if_neg (by omega)]
    exact h.behind x (by omega)
  · show Sound ((u.file_table k).offset + len)
    rw [hoff, show (o : Int) + len = ((o + len : Nat) : Int) by omega]
    exact sound_nat (by omega)

/-- What a read returns. -/
def ReadOf (σ : Logged) (i o len : Nat) (r : Int × List Byte) : Prop :=
  (σ.kernel.size i ≤ o ∧ r = (EOF, [])) ∨
    (o < σ.kernel.size i ∧ r.1 = (min len (σ.kernel.size i - o) : Nat) ∧
      r.2 = (List.range (min len (σ.kernel.size i - o))).map fun j => (σ.written (o + j)).getD 0)

theorem Intact.read {σ : Logged} {bad : Halt → Prop} (h : Intact sb d k i σ)
    (hfile : ISFILE (σ.kernel.mode i)) (len : Nat) :
    From bad σ.kernel (inodeRead i len (σ.kernel.file_table k).offset) fun r u =>
      u = σ.kernel ∧ ReadOf σ i (offsetOf σ.kernel k) len r := by
  have ho := offsetOf_eq h
  generalize offsetOf σ.kernel k = o at ho ⊢
  rw [ho]
  have hlt : o < 2 ^ 31 := by
    have hsound := h.offset.2
    rw [ho] at hsound
    omega
  rintro fuel _ rfl
  by_cases hsize : o < σ.kernel.size i
  · have hhas : ∀ x, o ≤ x → x < o + min len (σ.kernel.size i - o) → Has σ.kernel d x := by
      intro x _ hx
      have hpart := lt_parts (show x < σ.kernel.size i by omega)
      have hn := Nat.lt_of_lt_of_le hpart h.dense.bound
      exact ⟨hn, (h.dense.filled.part hn).mpr hpart⟩
    rw [inodeRead_reads h.dense.located (Or.inl hfile) hlt hsize hhas]
    refine ⟨rfl, Or.inr ⟨hsize, rfl, List.map_congr_left fun j hj => ?_⟩⟩
    have hj := List.mem_range.mp hj
    exact h.bytes _ (by omega)
  · rw [inodeRead_eof (Or.inl hfile) hlt (Nat.le_of_not_lt hsize)]
    exact ⟨rfl, Or.inl ⟨Nat.le_of_not_lt hsize, rfl⟩⟩

/-- A file without holes ends before the longest file does. -/
theorem Intact.size_lt {σ : Logged} (h : Intact sb d k i σ) : σ.kernel.size i < 2 ^ 31 := by
  have hbound := h.dense.bound
  change (σ.kernel.size i + 1023) / 1024 ≤ 262663 at hbound
  omega

theorem Extends.of_disk {size len : Nat} (h : Extends s sb d size o len) (hdisk : t.disk = s.disk) :
    Extends t sb d size o len := by
  have hvol : vol t sb d.dev = vol s sb d.dev := by rw [vol, vol, hdisk]
  refine ⟨h.near, fun x hx hxo hpart => ?_, ?_, ⟨?_, ?_⟩⟩
  · rw [byteAt_disk hdisk]
    exact h.old x hx hxo hpart
  · rw [FrontClear, hvol, hdisk]
    exact h.front
  · rw [hvol, hdisk]
    exact h.room.index
  · rw [hvol]
    exact h.room.spare

/-! ## Runs -/

/-- What a step does to a file without holes. -/
theorem step_intact {σ τ : Logged} {e : FileEvent} (h : Intact sb d k i σ)
    (hcov : Covered sb d k i σ e) (hstep : (system specialRead specialWrite sb d k i).step σ e τ) :
    Intact sb d k i τ := by
  obtain ⟨huses, hrun⟩ := hstep
  rw [advance] at hrun
  cases hexec : exec specialRead specialWrite σ.kernel e with
  | error why =>
      rw [hexec] at hrun
      cases hrun
  | ok t =>
      rw [hexec] at hrun
      obtain rfl : { kernel := t, written := logged k σ e.call } = τ := Except.ok.inj hrun
      have hs := h.enter e
      obtain ⟨task, fuel, time, call⟩ := e
      cases call with
      | «open» filename flags mode => exact huses.elim
      | lseek fd offset whence =>
          obtain ⟨ho, hend⟩ := huses
          obtain ⟨_, hrun⟩ := perform_bind hexec
          have hoff : -2 ^ 31 ≤ offset.toInt ∧ offset.toInt < 2 ^ 31 :=
            ⟨BitVec.le_toInt offset, BitVec.toInt_lt⟩
          obtain ⟨x, rfl, hx⟩ := (sysLseek_from ho hoff).of_ok rfl hrun
          refine hs.setFile ?_
          rcases hx with ⟨rfl, hwhence⟩ | ⟨hx, -⟩
          · refine ⟨hend hwhence, ?_⟩
            show int32 _ < 2 ^ 31
            rw [int32]
            omega
          · exact hx
      | read fd count =>
          obtain ⟨r, hrun⟩ := perform_bind hexec
          have hread : From never _ (sysRead specialRead fd count) _ :=
            sysRead_from huses False.elim
            fun _ _ => hs.read huses.regular count.toNat
          obtain ⟨-, ⟨-, -, rfl⟩ | ⟨-, _, ⟨rfl, hr⟩, rfl⟩⟩ := hread.of_ok rfl hrun
          · exact hs
          · refine hs.moved fun he => ?_
            rcases hr with ⟨-, rfl⟩ | ⟨hlt, hret, -⟩
            · exact absurd rfl he
            · have hsize := hs.size_lt
              rw [hret, offsetOf_eq hs]
              exact sound_nat (by omega)
      | write fd buf count =>
          obtain ⟨r, hrun⟩ := perform_bind hexec
          have hstored : 0 < count → Writable σ.kernel k → From never
              (enter σ.kernel ⟨task, fuel, time, .write fd buf count⟩) (inodeWrite i buf count.toNat
              ((enter σ.kernel ⟨task, fuel, time, .write fd buf count⟩).file_table k).offset) fun r u =>
              Intact sb d k i
                { kernel := moved u k r, written := logged k σ (.write fd buf count) } := by
            refine fun hpos hw => From.of_runs fun n r u hin => ?_
            rw [logged, if_pos hw]
            exact hs.write (by omega) ((hcov hw).of_disk rfl) hin
          have hwrite : From never _ (sysWrite specialWrite fd buf count) _ :=
            sysWrite_from huses False.elim hstored
          obtain ⟨-, ⟨hw, -, rfl⟩ | ⟨-, _, hu, rfl⟩⟩ := hwrite.of_ok rfl hrun
          · rw [logged, if_neg (show ¬ Writable σ.kernel k from not_not.mpr hw)]
            exact hs
          · exact hu

/-- A read below the size of the file returns what the log has there, and zeros where
    nothing was written. -/
def ReadsLog (specialRead : Nat → Int → Fs (Int × List Byte)) (k i : Nat) (σ : Logged) : Prop :=
  ∀ e fd count, Opens (enter σ.kernel e) fd k i → 0 < count →
    offsetOf σ.kernel k < σ.kernel.size i →
    ∃ r bytes t, sysRead specialRead fd count e.fuel (enter σ.kernel e) = .ok ((r, bytes), t) ∧
      (Readable σ.kernel k → r = bytes.length ∧
        bytes = (List.range (min count.toNat (σ.kernel.size i - offsetOf σ.kernel k))).map
          fun j => (σ.written (offsetOf σ.kernel k + j)).getD 0)

theorem Intact.readsLog {σ : Logged} (h : Intact sb d k i σ) : ReadsLog specialRead k i σ := by
  intro e fd count ho hpos hsize
  have hs := h.enter e
  have hread : From (fun _ => True) _ (sysRead specialRead fd count) _ :=
    sysRead_from ho (fun _ => hpos)
    fun _ _ => hs.read ho.regular count.toNat
  obtain ⟨⟨r, bytes⟩, t, hrun, -, hret⟩ := hread.returns e.fuel
  refine ⟨r, bytes, t, hrun, fun hreadable => ?_⟩
  rcases hret with ⟨hno, -⟩ | ⟨-, _, ⟨-, hof⟩, -⟩
  · exact absurd hno hreadable
  · rcases hof with ⟨hle, -⟩ | ⟨-, hr, hbytes⟩
    · exact absurd hsize (Nat.not_lt.mpr hle)
    · refine ⟨?_, hbytes⟩
      rw [show bytes = _ from hbytes, List.length_map, List.length_range]
      exact hr

/-- In a run from a new file whose writes skip no part, store behind zeros only and take
    blank zones for index blocks, every read below the size returns, with zeros where
    nothing was written. -/
theorem sparse_reads {σ : Logged}
    (h : Reach (system specialRead specialWrite sb d k i) (Covered sb d k i) σ) :
    ReadsLog specialRead k i σ :=
  (h.invariant (fun _ hs => NewFile.intact hs) fun _ _ _ hs hcov hstep =>
    step_intact hs hcov hstep).readsLog

/-! ## A new file -/

instance (s : Kernel) (fd : Int) (k i : Nat) : Decidable (Opens s fd k i) :=
  decidable_of_iff (0 ≤ fd ∧ fd < TASK_FILE_NR ∧
      ((s.task_table s.current).bind fun task => task.files fd.toNat) = some k ∧
      (s.file_table k).inode = some i ∧ (s.inode_table i).pipe = false ∧ ISFILE (s.mode i))
    ⟨fun h => ⟨h.1, h.2.1, Option.bind_eq_some_iff.mp h.2.2.1, h.2.2.2.1, h.2.2.2.2.1, h.2.2.2.2.2⟩,
      fun h => ⟨h.1, h.2, Option.bind_eq_some_iff.mpr h.3, h.4, h.5, h.6⟩⟩

instance : (whence : Whence) → Decidable (whence = .end)
  | .end => isTrue rfl
  | .set => isFalse nofun
  | .cur => isFalse nofun
  | .other => isFalse nofun

instance (k i : Nat) (σ : Logged) : (e : FileEvent) → Decidable (Uses k i σ e)
  | ⟨_, _, _, .open ..⟩ => inferInstanceAs (Decidable False)
  | ⟨_, _, _, .lseek ..⟩ => inferInstanceAs (Decidable (_ ∧ (_ → _)))
  | ⟨_, _, _, .read ..⟩ => inferInstanceAs (Decidable (Opens ..))
  | ⟨_, _, _, .write ..⟩ => inferInstanceAs (Decidable (Opens ..))

/-- Descriptor 3 of task 1 is open on an empty file in inode 1, on a volume whose first
    free zone, 5, still holds something. -/
def newFile : Logged where
  kernel := { emptyFile with
    disk := fun _ b k =>
      if b = 3 ∧ k = 0 then 1 else if b = 4 ∧ k = 1 then 0x81 else if b = 5 then 9 else 0 }
  written := fun _ => none

def fileDesc : SuperDesc := (emptyFile.super_table 0).desc

def filePlace : Place := { dev := 1, block := 4, off := 0 }

theorem newFile_new : NewFile fileDesc filePlace 3 1 newFile where
  located := ⟨⟨0, rfl, rfl⟩, rfl, rfl, ⟨by decide, by decide, ⟨0, rfl⟩⟩⟩
  reserved := fun _ => by decide +kernel
  size := by decide +kernel
  zones := by decide +kernel
  offset := ⟨by decide, by decide⟩
  log := fun _ => rfl

/-- `pipe_read` and `device_read`, which no call here reaches. -/
def noRead : Nat → Int → Fs (Int × List Byte) := fun _ _ => halt .panic

def noWrite : Nat → (Nat → Byte) → Int → Fs Int := fun _ _ _ => halt .panic

def fileEvent (call : FileCall) : FileEvent := { task := 1, fuel := 0, time := 0, call := call }

/-- A byte is written at an offset, and the next call is at the start again. -/
def writtenAt (offset : BitVec 32) : Option Logged :=
  follow free (Uses 3 1) (advance noRead noWrite 3) newFile
    [fileEvent (.lseek 3 offset .set), fileEvent (.write 3 (fun _ => 7) 1),
    fileEvent (.lseek 3 0 .set)]

/-- The next call reads a byte. -/
def next : FileEvent := fileEvent (.read 3 1)

def readNext (σ : Logged) : Except Halt (Int × List Byte) :=
  (sysRead noRead 3 1 next.fuel (enter σ.kernel next)).map Prod.fst

/-- There is a byte to read, which was not written. -/
def Reads (σ : Logged) : Prop :=
  Opens (enter σ.kernel next) 3 3 1 ∧ offsetOf σ.kernel 3 = 0 ∧
    0 < σ.kernel.size 1 ∧ σ.written 0 = none ∧ (σ.kernel.file_table 3).flags = O_RDWR

instance (σ : Logged) : Decidable (Reads σ) := inferInstanceAs (Decidable (_ ∧ _))

/-- Behind a part that was skipped `sys_read` fails its assertion; in front of a byte that
    was written it returns what the zone still held. -/
theorem holes_read_wrong :
    (∃ σ, Reach (system noRead noWrite fileDesc filePlace 3 1) free σ ∧
      readNext σ = .error (.stopped .assertion) ∧ ¬ ReadsLog noRead 3 1 σ) ∧
    ∃ σ, Reach (system noRead noWrite fileDesc filePlace 3 1) free σ ∧
      readNext σ = .ok (1, [9]) ∧ ¬ ReadsLog noRead 3 1 σ := by
  have hstart : Reach (system noRead noWrite fileDesc filePlace 3 1) free newFile :=
    .start newFile_new
  have hskip : (writtenAt 1024).map (fun σ => (decide (Reads σ), readNext σ)) =
      some (true, .error (.stopped .assertion)) := by decide +kernel
  have hstale : (writtenAt 1).map (fun σ => (decide (Reads σ), readNext σ)) =
      some (true, .ok (1, [9])) := by decide +kernel
  constructor
  · obtain ⟨σ, hσ, hflags⟩ := Option.map_eq_some_iff.mp hskip
    obtain ⟨hreads, hret⟩ := Prod.mk.inj hflags
    obtain ⟨ho, hoff, hsize, -, -⟩ := of_decide_eq_true hreads
    refine ⟨σ, hstart.follow _ hσ, hret, fun h => ?_⟩
    obtain ⟨r, bytes, t, hrun, -⟩ := h next 3 1 ho (by decide) (by rwa [hoff])
    rw [readNext, hrun] at hret
    cases hret
  · obtain ⟨σ, hσ, hflags⟩ := Option.map_eq_some_iff.mp hstale
    obtain ⟨hreads, hret⟩ := Prod.mk.inj hflags
    obtain ⟨ho, hoff, hsize, hnone, hrdwr⟩ := of_decide_eq_true hreads
    refine ⟨σ, hstart.follow _ hσ, hret, fun h => ?_⟩
    obtain ⟨r, bytes, t, hrun, hlog⟩ := h next 3 1 ho (by decide) (by rwa [hoff])
    have hreadable : Readable σ.kernel 3 := by
      rw [Readable, hrdwr]
      decide
    obtain ⟨-, hbytes⟩ := hlog hreadable
    have hsame : bytes = [9] := by
      rw [readNext, hrun] at hret
      exact (Prod.mk.inj (Except.ok.inj hret)).2
    -- the log has nothing there
    rw [hsame, hoff, show min (1 : Int).toNat (σ.kernel.size 1 - 0) = 1 by
      rw [Int.toNat_one]
      omega] at hbytes
    have hnine : (9 : Byte) = (σ.written (0 + 0)).getD 0 := List.head_eq_of_cons_eq hbytes
    rw [hnone] at hnine
    cases hnine

/-- A byte that was written at the start of the file is read back. -/
theorem sparse_reads_one : ∃ σ,
    Reach (system noRead noWrite fileDesc filePlace 3 1) (Covered fileDesc filePlace 3 1) σ ∧
      readNext σ = .ok (1, [7]) ∧ ReadsLog noRead 3 1 σ := by
  have hrun : (advance noRead noWrite 3 newFile (fileEvent (.write 3 (fun _ => 7) 1))).toOption.bind
      (fun σ => (advance noRead noWrite 3 σ (fileEvent (.lseek 3 0 .set))).toOption.map fun τ =>
        (decide (Uses 3 1 σ (fileEvent (.lseek 3 0 .set))), readNext τ)) =
      some (true, .ok (1, [7])) := by decide +kernel
  have hcov : Covered fileDesc filePlace 3 1 newFile (fileEvent (.write 3 (fun _ => 7) 1)) := by
    have hsize : newFile.kernel.size 1 = 0 := newFile_new.size
    intro _
    show Extends newFile.kernel fileDesc filePlace (newFile.kernel.size 1) 0 1
    rw [hsize]
    refine ⟨Nat.le_refl 0, fun x _ hx => absurd hx (Nat.not_lt_zero x),
      fun x hx => absurd hx (Nat.not_lt_zero x), ⟨fun p _ hp c _ _ hlt => ?_, Or.inl (by decide)⟩⟩
    -- part 0 is behind no index block
    obtain rfl : p = 0 := Nat.lt_one_iff.mp hp
    change _ + 1 < 0 + 1 at hlt
    omega
  cases hfirst : advance noRead noWrite 3 newFile (fileEvent (.write 3 (fun _ => 7) 1)) with
  | error why =>
      rw [hfirst] at hrun
      cases hrun
  | ok σ =>
      rw [hfirst] at hrun
      obtain ⟨τ, hsecond, hflags⟩ := Option.map_eq_some_iff.mp hrun
      obtain ⟨huses, hret⟩ := Prod.mk.inj hflags
      have hstart : Reach (system noRead noWrite fileDesc filePlace 3 1)
          (Covered fileDesc filePlace 3 1) newFile := .start newFile_new
      have hwritten := hstart.step hcov ⟨by decide +kernel, hfirst⟩
      have hreach : Reach (system noRead noWrite fileDesc filePlace 3 1)
          (Covered fileDesc filePlace 3 1) τ := by
        refine hwritten.step (e := fileEvent (.lseek 3 0 .set)) trivial ⟨of_decide_eq_true huses, ?_⟩
        cases hlast : advance noRead noWrite 3 σ (fileEvent (.lseek 3 0 .set)) with
        | error why =>
            rw [hlast] at hsecond
            cases hsecond
        | ok υ =>
            rw [hlast] at hsecond
            exact congrArg Except.ok (Option.some.inj hsecond)
      exact ⟨τ, hreach, hret, sparse_reads hreach⟩

end NeonixSparseFiles
