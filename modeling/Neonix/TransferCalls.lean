import Neonix.DeviceTransfers

/-! # What `sys_read` and `sys_write` report

    The two calls with all their branches.  Next to what a call returns stands what
    it has moved; on regular files the calls are those of `FileData`, whose
    `inode_write` gets a count of the bytes that its `memcpy` takes. -/

namespace NeonixTransfers

open NeonixMachine NeonixOutcome NeonixByteBits NeonixCalls NeonixFrames NeonixFileSystem NeonixNamei
  NeonixFileOffsets
open NeonixFileData (openFile inodeRead inodeWrite readLoop writeLoop copyOut copyIn int32 u32 startOf
  charsOf blockIn Special)
open NeonixFiles (getFd)
open NeonixVolume (BLOCK_SIZE)

def ofAnswer {α : Type} : Answer α → Fs α
  | .ok a => pure a
  | .error e => stop e

/-- `inode->desc->zone[0]` as a `dev_t`. -/
def zoneDev (s : Kernel) (inode : Nat) : Nat := (s.index (s.zone inode) 0).toNat

/-- `sys_read`, and the bytes it stores. -/
def sysRead (w : Devices) (fd count : Int) : Fs (Int × List Byte) := do
  let file ← openFile fd
  assert (count > 0)
  let f := (← get).file_table file
  if f.flags &&& O_ACCMODE = O_WRONLY then return (EOF, [])
  else
    let inode ← deref f.inode
    let s ← get
    if (s.inode_table inode).pipe = true then ofAnswer (pipeRead w s.current inode count)
    else if ISCHR (s.mode inode) then
      assert (zoneDev s inode ≠ 0)
      ofAnswer (deviceRead w (zoneDev s inode) (BitVec.ofInt 32 count) 0)
    else if ISBLK (s.mode inode) then
      assert (zoneDev s inode ≠ 0)
      let _ ← ofAnswer (deviceGet w (zoneDev s inode))
      assert (f.offset.tmod BLOCK_SIZE = 0)
      assert (count.tmod BLOCK_SIZE = 0)
      ofAnswer (deviceRead w (zoneDev s inode) (BitVec.ofInt 32 (count.tdiv BLOCK_SIZE))
        (BitVec.ofInt 32 (f.offset.tdiv BLOCK_SIZE)))
    else
      let (len, bytes) ← inodeRead inode count.toNat f.offset
      onlyIf (len ≠ EOF) (modify fun s =>
        s.setFile file fun f => { f with offset := int32 (f.offset + len) })
      return (len, bytes)

/-- The loop of `inode_write`, with the bytes copied so far. -/
def moveLoop (inode : Nat) :
    (turns : Nat) → (offset : Int) → (left : Nat) → (buf : Nat → Byte) → (moved : Nat) →
    Fs (Int × Nat)
  | 0, offset, _, _, moved => return (offset, moved)
  | turns + 1, offset, left, buf, moved => do
      if left = 0 then return (offset, moved)
      else
        let nr ← NeonixFileSystem.bmap inode (blockIn offset) true
        assert (nr ≠ 0)
        let dev := ((← get).inode_table inode).dev
        let chars := charsOf offset left
        let next := int32 (offset + chars)
        onlyIf (u32 next > (← get).size inode) (modify fun s => s.setSize inode (u32 next))
        copyIn dev nr (startOf offset) chars buf
        moveLoop inode turns next (left - chars) (fun k => buf (k + chars)) (moved + chars)

/-- `inode_write`, and how many bytes it copies. -/
def inodeMove (inode : Nat) (buf : Nat → Byte) (len : Nat) (offset : Int) : Fs (Int × Nat) := do
  assert (ISFILE ((← get).mode inode))
  let (last, moved) ← moveLoop inode len offset len buf 0
  modify fun s => s.setMtime inode s.time
  return (int32 (last - offset), moved)

/-- `sys_write`, and how many bytes it takes. -/
def sysWrite (w : Devices) (fd : Int) (buf : Nat → Byte) (count : Int) : Fs (Int × Nat) := do
  let file ← openFile fd
  assert (count > 0)
  let f := (← get).file_table file
  if f.flags &&& O_ACCMODE = O_RDONLY then return (EOF, 0)
  else
    assert f.inode.isSome
    let inode ← deref f.inode
    let s ← get
    if (s.inode_table inode).pipe = true then ofAnswer (pipeWrite w s.current inode buf count)
    else if ISCHR (s.mode inode) then
      assert (zoneDev s inode ≠ 0)
      let _ ← ofAnswer (deviceGet w (zoneDev s inode))
      ofAnswer (deviceWrite w (zoneDev s inode) buf (BitVec.ofInt 32 count) 0)
    else if ISBLK (s.mode inode) then
      assert (zoneDev s inode ≠ 0)
      let _ ← ofAnswer (deviceGet w (zoneDev s inode))
      assert (f.offset.tmod BLOCK_SIZE = 0)
      assert (count.tmod BLOCK_SIZE = 0)
      ofAnswer (deviceWrite w (zoneDev s inode) buf (BitVec.ofInt 32 (count.tdiv BLOCK_SIZE))
        (BitVec.ofInt 32 (f.offset.tdiv BLOCK_SIZE)))
    else
      let (len, moved) ← inodeMove inode buf count.toNat f.offset
      onlyIf (len ≠ EOF) (modify fun s =>
        s.setFile file fun f => { f with offset := int32 (f.offset + len) })
      return (len, moved)

/-! ## The loops of a regular file -/

section Loops

variable {s : Kernel} {inode len left nr start chars : Nat} {offset : Int} {buf : Nat → Byte}
  {dev : Dev}

/-- An `int`. -/
def IsInt (x : Int) : Prop := -2 ^ 31 ≤ x ∧ x < 2 ^ 31

/-- No copy for a negative offset is inside a block that a file can have. -/
theorem sound_of_copy (ho : IsInt offset) (hblock : blockIn offset < TOTAL_BLOCK)
    (hcopy : startOf offset + charsOf offset left ≤ BLOCK_SIZE) : Sound offset := by
  refine ⟨?_, ho.2⟩
  by_contra hneg
  obtain ⟨n, rfl⟩ : ∃ n : Nat, offset = -(n : Int) := ⟨offset.natAbs, by omega⟩
  have hlow := ho.1
  rw [blockIn, u32, Int.neg_tdiv, show TOTAL_BLOCK = 262663 from rfl,
    show (BLOCK_SIZE : Int) = 1024 from rfl, Int.tdiv_eq_ediv_of_nonneg (by omega)] at hblock
  have hstart : startOf (-(n : Int)) ≤ BLOCK_SIZE := le_of_add_le_left hcopy
  rw [startOf, u32, Int.neg_tmod, show BLOCK_SIZE = 1024 from rfl,
    Int.tmod_eq_emod_of_nonneg (by omega)] at hstart
  -- before the start of the file the number of the block or that of the byte wraps
  omega

theorem chars_pos (h : Sound offset) (hleft : left ≠ 0) :
    0 < charsOf offset left ∧ charsOf offset left ≤ left := by
  have hmod : (offset % 1024).toNat < 1024 := by omega
  rw [charsOf_eq h.1]
  omega

/-- A call about which something is known where it returns. -/
theorem from_loose {α : Type} {bad : Halt → Prop} {x : Fs α} {Q : α → Kernel → Prop}
    (h : From bad s x Q) : From never s x Q :=
  ((From.of_runs fun _ _ _ _ => trivial : From never s x fun _ _ => True).also h).post
    fun _ _ hq => hq.2

theorem copyOut_length : From never s (copyOut dev nr start chars) fun bytes _ =>
    bytes.length = chars ∧ start + chars ≤ BLOCK_SIZE := by
  rw [copyOut]
  refine From.ite (fun hin => From.get (From.pure ⟨?_, hin⟩)) fun _ => From.stop not_false
  rw [List.length_map, List.length_range]

theorem copyIn_within : From never s (copyIn dev nr start chars buf) fun _ _ =>
    start + chars ≤ BLOCK_SIZE := by
  rw [copyIn]
  exact From.ite (fun hin => From.store hin) fun _ => From.stop not_false

/-- Where a loop that moves `left` bytes from `offset` on ends, with `n` bytes moved. -/
def Ended (offset : Int) (left : Nat) (last : Int) (n : Nat) : Prop :=
  n = left ∧ last = offset + left ∧ (left ≠ 0 → Sound offset ∧ Sound last)

/-- The end of a loop is that of its rest. -/
theorem Ended.turn {last : Int} {n : Nat} (h : Sound offset) (hblock : blockIn offset < TOTAL_BLOCK)
    (hleft : left ≠ 0)
    (hrest : Ended (int32 (offset + charsOf offset left)) (left - charsOf offset left) last n) :
    Ended offset left last (charsOf offset left + n) := by
  obtain ⟨hpos, hle⟩ := chars_pos h hleft
  obtain ⟨heq, hlt⟩ := next_eq h hblock left
  obtain ⟨hn, hlast, hsound⟩ := hrest
  rw [heq] at hlast hsound
  refine ⟨by omega, by omega, fun _ => ⟨h, ?_⟩⟩
  have hnonneg := h.1
  by_cases hmore : left - charsOf offset left = 0
  · exact ⟨by omega, by omega⟩
  · exact (hsound hmore).2

theorem readLoop_ended (turns : Nat) : ∀ (offset : Int) (left : Nat) (bytes : List Byte) (s : Kernel),
    left ≤ turns → IsInt offset → From never s (readLoop inode turns offset left bytes) fun r _ =>
      ∃ n, Ended offset left r.1 n ∧ r.2.length = bytes.length + n := by
  induction turns with
  | zero =>
      intro offset left bytes s hturns _
      obtain rfl : left = 0 := by omega
      exact From.pure ⟨0, ⟨rfl, (add_zero _).symm, fun h => absurd rfl h⟩, rfl⟩
  | succ turns ih =>
      intro offset left bytes s hturns ho
      rw [readLoop]
      refine From.ite (fun hzero => From.pure ?_) fun hleft => ?_
      · rw [hzero]
        exact ⟨0, ⟨rfl, (add_zero _).symm, fun h => absurd rfl h⟩, rfl⟩
      refine From.bind (from_loose bmap_inside) fun nr t hblock => ?_
      refine from_assert fun _ => From.get ?_
      refine From.bind copyOut_length fun chunk u hcopy => ?_
      have hs := sound_of_copy ho hblock hcopy.2
      obtain ⟨hpos, hle⟩ := chars_pos hs hleft
      have hnext := next_sound hs hblock left
      refine (ih _ _ _ u (by omega) ⟨by have := hnext.1; omega, hnext.2⟩).post ?_
      rintro r v ⟨n, hended, hlen⟩
      refine ⟨_, hended.turn hs hblock hleft, ?_⟩
      rw [hlen, List.length_append, hcopy.1]
      omega

theorem moveLoop_ended (turns : Nat) : ∀ (offset : Int) (left : Nat) (buf : Nat → Byte) (moved : Nat)
    (s : Kernel), left ≤ turns → IsInt offset →
    From never s (moveLoop inode turns offset left buf moved) fun r _ =>
      ∃ n, Ended offset left r.1 n ∧ r.2 = moved + n := by
  induction turns with
  | zero =>
      intro offset left buf moved s hturns _
      obtain rfl : left = 0 := by omega
      exact From.pure ⟨0, ⟨rfl, (add_zero _).symm, fun h => absurd rfl h⟩, rfl⟩
  | succ turns ih =>
      intro offset left buf moved s hturns ho
      rw [moveLoop]
      refine From.ite (fun hzero => From.pure ?_) fun hleft => ?_
      · rw [hzero]
        exact ⟨0, ⟨rfl, (add_zero _).symm, fun h => absurd rfl h⟩, rfl⟩
      refine From.bind (from_loose bmap_inside) fun nr t hblock => ?_
      refine from_assert fun _ => From.get (From.get ?_)
      -- the new size changes nothing here
      have hrest : ∀ u, From never u (do
          copyIn (t.inode_table inode).dev nr (startOf offset) (charsOf offset left) buf
          moveLoop inode turns (int32 (offset + charsOf offset left)) (left - charsOf offset left)
            (fun k => buf (k + charsOf offset left)) (moved + charsOf offset left)) fun r _ =>
          ∃ n, Ended offset left r.1 n ∧ r.2 = moved + n := by
        intro u
        refine From.bind copyIn_within fun _ v hcopy => ?_
        have hs := sound_of_copy ho hblock hcopy
        obtain ⟨hpos, hle⟩ := chars_pos hs hleft
        have hnext := next_sound hs hblock left
        refine (ih _ _ _ _ v (by omega) ⟨by have := hnext.1; omega, hnext.2⟩).post ?_
        rintro r v ⟨n, hended, hlen⟩
        refine ⟨_, hended.turn hs hblock hleft, ?_⟩
        rw [hlen]
        omega
      exact From.onlyIf (fun _ => From.set (hrest _)) fun _ => hrest _

/-- What `inode_read` and `inode_write` report: `len` bytes moved from a sound offset to a
    sound one. -/
def Reported (offset len : Int) (n count : Nat) : Prop :=
  len = n ∧ n ≤ count ∧ Sound (offset + len)

theorem Ended.reported {last : Int} {n : Nat} (h : Ended offset left last n) (hleft : left ≠ 0)
    (hlen : left ≤ len) : Reported offset (int32 (last - offset)) n len := by
  obtain ⟨rfl, hlast, hsound⟩ := h
  obtain ⟨hs, hs'⟩ := hsound hleft
  rw [int32_sub hs' hs]
  refine ⟨by omega, hlen, ?_⟩
  rw [add_sub_cancel]
  exact hs'

theorem inodeRead_reported (ho : IsInt offset) (hlen : len ≠ 0) :
    From never s (inodeRead inode len offset) fun r _ =>
      r.1 ≠ EOF → Reported offset r.1 r.2.length len := by
  refine From.get (from_assert fun _ => From.ite (fun _ => From.pure (absurd rfl)) fun hin => ?_)
  refine From.bind (readLoop_ended _ offset _ [] s le_rfl ho) ?_
  rintro ⟨last, bytes⟩ t ⟨n, hended, hbytes⟩
  rw [List.length_nil, Nat.zero_add] at hbytes
  refine From.pure fun _ => ?_
  dsimp only at hbytes hended ⊢
  rw [hbytes]
  refine hended.reported ?_ (min_le_left _ _)
  -- the size is not reached, so something is left to read
  have hsize : s.size inode < 2 ^ 32 := BitVec.isLt _
  rw [u32] at hin ⊢
  omega

theorem inodeMove_reported (ho : IsInt offset) (hlen : len ≠ 0) :
    From never s (inodeMove inode buf len offset) fun r _ => Reported offset r.1 r.2 len := by
  refine From.get (from_assert fun _ => ?_)
  refine From.bind (moveLoop_ended _ offset _ buf 0 s le_rfl ho) ?_
  rintro ⟨last, n⟩ t ⟨n', hended, hn⟩
  rw [Nat.zero_add] at hn
  cases hn
  exact From.set (From.pure (hended.reported hlen le_rfl))

/-! ### The writing call of `FileData` -/

theorem moveLoop_fst (turns : Nat) : ∀ (offset : Int) (left : Nat) (buf : Nat → Byte) (moved : Nat),
    Prod.fst <$> moveLoop inode turns offset left buf moved =
      writeLoop inode turns offset left buf := by
  induction turns with
  | zero => exact fun _ _ _ _ => map_pure _ _
  | succ turns ih =>
      intro offset left buf moved
      rw [moveLoop, writeLoop]
      by_cases hleft : left = 0
      · rw [if_pos hleft, if_pos hleft, map_pure]
      · rw [if_neg hleft, if_neg hleft]
        simp only [map_bind, ih]

/-- `inode_write` with and without the count. -/
theorem inodeMove_fst (inode : Nat) (buf : Nat → Byte) (len : Nat) (offset : Int) :
    Prod.fst <$> inodeMove inode buf len offset = inodeWrite inode buf len offset := by
  rw [inodeMove, inodeWrite]
  simp only [map_bind, map_pure, ← moveLoop_fst len offset len buf 0, bind_map_left]

theorem from_map {α β : Type} {bad : Halt → Prop} {x : Fs α} {f : α → β} {Q : β → Kernel → Prop}
    (h : From bad s (f <$> x) Q) : From bad s x fun a t => Q (f a) t := by
  intro n t ht
  have hend := h n t ht
  change Ends bad (x n t >>= fun r => pure (f r.1, r.2)) _ at hend
  cases hx : x n t with
  | error e =>
      rw [hx] at hend
      exact hend
  | ok r =>
      rw [hx] at hend
      exact hend

theorem inodeMove_files : From never s (inodeMove inode buf len offset) fun _ t =>
    t.file_table = s.file_table := by
  refine from_map (f := Prod.fst) (Q := fun _ t => t.file_table = s.file_table) ?_
  rw [inodeMove_fst]
  exact (keeps_inodeWrite (P := fun t => t.file_table = s.file_table) fun _ _ h => h).start rfl

end Loops

/-! ## Open files of every kind -/

inductive Kind where
  | regular
  | pipe
  | console
  | tty
  | keyboard
  | serial
  | ramdisk
  | disk
  | partition

/-- What a character device is for; `tty_init` puts a tty on the keyboard and the
    console. -/
def charKind (w : Devices) : Driver → Option Kind
  | .console => some .console
  | .keyboard => some .keyboard
  | .serial _ => some .serial
  | .tty rdev wdev =>
      match w.device rdev, w.device wdev with
      | some .keyboard, some .console => some .tty
      | _, _ => none
  | .block _ => none

def blockKind : NeonixBlockDevices.Driver → Kind
  | .disk .. => .disk
  | .part _ => .partition
  | .ramdisk _ => .ramdisk

/-- What an inode stands for. -/
inductive IsKind (w : Devices) (s : Kernel) (i : Nat) : Kind → Prop where
  | regular (hpipe : (s.inode_table i).pipe = false) (hmode : ISFILE (s.mode i)) :
      IsKind w s i .regular
  | pipe (hpipe : (s.inode_table i).pipe = true) : IsKind w s i .pipe
  | char (hpipe : (s.inode_table i).pipe = false) (hmode : ISCHR (s.mode i)) {driver : Driver}
      {kind : Kind} (hdevice : w.device (zoneDev s i) = some driver)
      (hkind : charKind w driver = some kind) : IsKind w s i kind
  | block (hpipe : (s.inode_table i).pipe = false) (hmode : ISBLK (s.mode i))
      {driver : NeonixBlockDevices.Driver} (hdevice : w.device (zoneDev s i) = some (.block driver)) :
      IsKind w s i (blockKind driver)

/-- The running task has descriptor `fd` open on file `k`, which is of the kind. -/
structure OpenAs (w : Devices) (s : Kernel) (fd : Int) (k : Nat) (kind : Kind) : Prop where
  fd_nonneg : 0 ≤ fd
  fd_lt : fd < TASK_FILE_NR
  file : ∃ task, s.task_table s.current = some task ∧ task.files fd.toNat = some k
  inode : ∃ i, (s.file_table k).inode = some i ∧ IsKind w s i kind

/-- The kinds whose transfers go on from the offset of the file. -/
def Kind.Seeks : Kind → Prop
  | .regular | .ramdisk | .disk | .partition => True
  | _ => False

/-- A call that returned `r` has moved `r` of `count` bytes, and the offset with it. -/
def Told (kind : Kind) (s t : Kernel) (k : Nat) (count r : Int) (moved : Nat) : Prop :=
  moved = r ∧ 0 ≤ r ∧ r ≤ count ∧
    (kind.Seeks → (t.file_table k).offset = (s.file_table k).offset + r)

/-- A disk reports nothing of what it has read, and a ramdisk its blocks, counted in
    eight bits. -/
def ReadsTrue (count : Int) : Kind → Prop
  | .disk | .partition => False
  | .ramdisk => count / BLOCK_SIZE % 256 = 0
  | _ => True

/-- The console counts one turn too many. -/
def WritesTrue (count : Int) : Kind → Prop
  | .console | .tty => False
  | kind => ReadsTrue count kind

/-! ## The drivers, by kind -/

section Drivers

variable {w : Devices} {s t : Kernel} {α : Type} {dev k : Nat} {count : Int} {idx : BitVec 32}
  {kind : Kind} {driver : Driver} {buf : Nat → Byte}

theorem from_answer {x : Answer α} {Q : α → Prop} (h : Ends never x Q) :
    From never s (ofAnswer x) fun a t => Q a ∧ t = s := by
  cases x with
  | ok a => exact From.pure ⟨h, rfl⟩
  | error e => exact From.stop not_false

theorem deviceGet_finds (hdevice : w.device dev = some driver) :
    Ends never (deviceGet w dev) fun d => d = driver := by
  refine (ends_all _).bind fun _ _ => ?_
  rw [hdevice]
  exact rfl

theorem ofInt_count (hpos : 0 < count) (hlt : count < 2 ^ 31) :
    (BitVec.ofInt 32 count).toNat = count.toNat := by
  rw [BitVec.toNat_ofInt]
  omega

/-- A character device that reads at all stores what it was asked for. -/
theorem charRead_all (hdevice : w.device dev = some driver) (hkind : charKind w driver = some kind)
    (hpos : 0 < count) (hlt : count < 2 ^ 31) :
    Ends never (deviceRead w dev (BitVec.ofInt 32 count) idx) fun r =>
      r.1 ≠ EOF → All count.toNat (r.1, r.2.length) := by
  have hcount := ofInt_count hpos hlt
  have hsmall : (BitVec.ofInt 32 count).toNat < 2 ^ 31 := by omega
  refine (deviceGet_finds hdevice).bind fun d hd => ?_
  subst hd
  rw [← hcount]
  cases d with
  | console => exact absurd rfl
  | keyboard => exact (keyboardRead_all hsmall).mono fun _ hr _ => hr
  | serial port => exact (serialRead_all hsmall).mono fun _ hr _ => hr
  | tty rdev wdev =>
      rw [charKind] at hkind
      split at hkind
      · next hrdev hwdev =>
          refine (deviceGet_finds hrdev).bind fun d hd => ?_
          rw [hd]
          exact (keyboardRead_all hsmall).mono fun _ hr _ => hr
      · cases hkind
  | block driver => cases hkind

/-- One that writes takes what it was given, and says so unless it is the console. -/
theorem charWrite_all (hdevice : w.device dev = some driver) (hkind : charKind w driver = some kind)
    (hpos : 0 < count) (hlt : count < 2 ^ 31) :
    Ends never (deviceWrite w dev buf (BitVec.ofInt 32 count) idx) fun r =>
      r.1 ≠ EOF → r.2 = count.toNat ∧ (r.1 = count ↔ WritesTrue count kind) := by
  have hcount := ofInt_count hpos hlt
  have hsmall : (BitVec.ofInt 32 count).toNat < 2 ^ 31 := by omega
  have hover : ∀ x : Int, x = (BitVec.ofNat 32 (count.toNat + 1)).toInt → x ≠ count := by
    rintro x rfl
    rw [BitVec.toInt_ofNat', Int.bmod_def]
    omega
  refine (deviceGet_finds hdevice).bind fun d hd => ?_
  subst hd
  cases d with
  | console =>
      cases hkind
      refine (consoleWrite_over _).mono fun r hr _ => ?_
      rw [hcount] at hr
      exact ⟨hr.2, iff_of_false (hover _ hr.1) not_false⟩
  | keyboard => exact absurd rfl
  | serial port =>
      cases hkind
      refine (serialWrite_all hsmall).mono fun r hr _ => ?_
      rw [hcount] at hr
      refine ⟨hr.2, iff_of_true ?_ trivial⟩
      rw [hr.1]
      omega
  | tty rdev wdev =>
      rw [charKind] at hkind
      split at hkind
      · next hrdev hwdev =>
          cases hkind
          refine (deviceGet_finds hwdev).bind fun d hd => ?_
          rw [hd]
          refine (consoleWrite_over _).mono fun r hr _ => ?_
          rw [hcount] at hr
          exact ⟨hr.2, iff_of_false (hover _ hr.1) not_false⟩
      · cases hkind
  | block driver => cases hkind

/-- A device that has moved all of `count` has told so if it returns `count`. -/
theorem told_iff (hseeks : ¬ kind.Seeks) {r : Int} {n : Nat} (hpos : 0 < count)
    (hn : n = count.toNat) : Told kind s t k count r n ↔ r = count := by
  constructor
  · rintro ⟨hr, -, -, -⟩
    omega
  · rintro rfl
    exact ⟨by omega, by omega, le_rfl, fun h => absurd h hseeks⟩

theorem charKind_seeks (hkind : charKind w driver = some kind) : ¬ kind.Seeks := by
  cases driver with
  | console | keyboard | serial port =>
      cases hkind
      exact id
  | tty rdev wdev =>
      rw [charKind] at hkind
      split at hkind
      · cases hkind
        exact id
      · cases hkind
  | block driver => cases hkind

/-- The blocks of a transfer, as a driver gets them. -/
theorem blocks_setWidth (hpos : 0 < count) :
    ((BitVec.ofInt 32 (count.tdiv BLOCK_SIZE)).setWidth 8).toNat =
      (count / BLOCK_SIZE % 256).toNat := by
  rw [Int.tdiv_eq_ediv_of_nonneg hpos.le, BitVec.toNat_setWidth, BitVec.toNat_ofInt,
    show (BLOCK_SIZE : Int) = 1024 from rfl]
  omega

/-- A transfer of blocks is told exactly where none of them reaches a ramdisk. -/
theorem block_told {driver : NeonixBlockDevices.Driver} {c : BitVec 8} {lba : BitVec 32} {r : Int}
    {n : Nat} {blocks : NeonixBlockDevices.State}
    (hr : r = blockResult driver c ∧ n = c.toNat * NeonixBlockDevices.SECTOR_SIZE ∧
      driver.Admits c lba blocks)
    (hpos : 0 < count) (hc : c.toNat = (count / BLOCK_SIZE % 256).toNat)
    (hsame : t.file_table = s.file_table) :
    Told (blockKind driver) s t k count r n ↔ ReadsTrue count (blockKind driver) := by
  obtain ⟨rfl, rfl, hadmits⟩ := hr
  rw [Told, hsame]
  cases driver with
  | disk d total | part part =>
      -- a count of sectors that the controller takes is not zero
      refine iff_of_false (fun h => ?_) not_false
      have hzero : ((c.toNat * NeonixBlockDevices.SECTOR_SIZE : Nat) : Int) = 0 := h.1
      have hmoved : 0 < c.toNat := hadmits.1
      rw [show NeonixBlockDevices.SECTOR_SIZE = 512 from rfl] at hzero
      omega
  | ramdisk ramdisk =>
      show _ ↔ count / BLOCK_SIZE % 256 = 0
      have hresult : blockResult (.ramdisk ramdisk) c = c.toNat := rfl
      rw [hresult, show NeonixBlockDevices.SECTOR_SIZE = 512 from rfl]
      constructor
      · rintro ⟨heq, -⟩
        omega
      · intro hzero
        have hnone : c.toNat = 0 := by omega
        rw [hnone]
        exact ⟨rfl, le_rfl, hpos.le, fun _ => (add_zero _).symm⟩

theorem charKind_reads (hkind : charKind w driver = some kind) : ReadsTrue count kind := by
  cases driver with
  | console | keyboard | serial port =>
      cases hkind
      trivial
  | tty rdev wdev =>
      rw [charKind] at hkind
      split at hkind
      · cases hkind
        trivial
      · cases hkind
  | block driver => cases hkind

theorem blockRead_told {driver : NeonixBlockDevices.Driver} (hpos : 0 < count)
    (hdevice : w.device dev = some (.block driver)) :
    Ends never (deviceRead w dev (BitVec.ofInt 32 (count.tdiv BLOCK_SIZE)) idx) fun r =>
      (Told (blockKind driver) s s k count r.1 r.2.length ↔ ReadsTrue count (blockKind driver)) := by
  refine (deviceGet_finds hdevice).bind fun d hd => ?_
  subst hd
  exact (blockRead_moved driver).mono fun r hr => block_told hr hpos (blocks_setWidth hpos) rfl

theorem blockWrite_told {driver : NeonixBlockDevices.Driver} (hpos : 0 < count)
    (hdevice : w.device dev = some (.block driver)) :
    Ends never (deviceWrite w dev buf (BitVec.ofInt 32 (count.tdiv BLOCK_SIZE)) idx) fun r =>
      (Told (blockKind driver) s s k count r.1 r.2 ↔ ReadsTrue count (blockKind driver)) := by
  refine (deviceGet_finds hdevice).bind fun d hd => ?_
  subst hd
  exact (blockWrite_moved driver).mono fun r hr => block_told hr hpos (blocks_setWidth hpos) rfl

end Drivers

/-! ## The calls -/

section Calls

variable {w : Devices} {s : Kernel} {fd count : Int} {k i : Nat} {kind : Kind} {buf : Nat → Byte}

theorem not_char (h : ISFILE (s.mode i)) : ¬ ISCHR (s.mode i) := by
  rw [ISFILE] at h
  rw [ISCHR, h]
  decide

theorem not_block (h : ISFILE (s.mode i)) : ¬ ISBLK (s.mode i) := by
  rw [ISFILE] at h
  rw [ISBLK, h]
  decide

theorem block_not_char (h : ISBLK (s.mode i)) : ¬ ISCHR (s.mode i) := by
  rw [ISBLK] at h
  rw [ISCHR, h]
  decide

/-- Bytes of a regular file reported by `inode_read` or `inode_write` are told. -/
theorem moved_told {u : Kernel} {r : Int} {n : Nat} (hfiles : u.file_table = s.file_table)
    (hpos : 0 < count) (hr : Reported (s.file_table k).offset r n count.toNat) (heof : r ≠ EOF) :
    Told .regular s (moved u k r) k count r n := by
  obtain ⟨rfl, hle, hlow, hhigh⟩ := hr
  refine ⟨rfl, by omega, by omega, fun _ => ?_⟩
  rw [moved, if_pos heof, offset_setFile, if_pos rfl]
  dsimp only
  rw [hfiles, int32]
  omega

/-- The inode behind an open descriptor. -/
theorem from_inode {α : Type} {bad : Halt → Prop} {f : Nat → Fs α} {R : α → Kernel → Prop}
    {p : Option Nat} (hinode : p = some i) (h : From bad s (f i) R) :
    From bad s (deref p >>= f) R := by
  rw [hinode]
  refine From.bind (Q := fun a t => a = i ∧ t = s) (From.pure ⟨rfl, rfl⟩) fun a t hat => ?_
  rw [hat.1, hat.2]
  exact h

/-- `sys_read` tells what it has read, unless it reads from a disk or a ramdisk. -/
theorem sysRead_told (ho : OpenAs w s fd k kind) (hoff : IsInt (s.file_table k).offset)
    (hlt : count < 2 ^ 31) : From never s (sysRead w fd count) fun r t =>
      r.1 ≠ EOF → (Told kind s t k count r.1 r.2.length ↔ ReadsTrue count kind) := by
  obtain ⟨i, hinode, hkind⟩ := ho.inode
  refine From.bind (openFile_from ho.fd_nonneg ho.fd_lt ho.file) fun a t hat => ?_
  rw [hat.1, hat.2]
  refine from_assert fun hpos => From.get (From.ite (fun _ => From.pure (absurd rfl)) fun _ => ?_)
  refine from_inode hinode (From.get ?_)
  cases hkind with
  | pipe hpipe =>
      rw [if_pos hpipe]
      refine (from_answer pipeRead_all).post fun r t hr _ => ?_
      refine (told_iff id hpos hr.1.2).trans (iff_of_true ?_ trivial)
      exact hr.1.1.trans (Int.toNat_of_nonneg hpos.le)
  | char hpipe hmode hdevice hk =>
      rw [if_neg (ne_true_of_eq_false hpipe), if_pos hmode]
      refine from_assert fun _ => (from_answer (charRead_all hdevice hk hpos hlt)).post ?_
      intro r t hr heof
      refine (told_iff (charKind_seeks hk) hpos (hr.1 heof).2).trans ?_
      exact iff_of_true ((hr.1 heof).1.trans (Int.toNat_of_nonneg hpos.le)) (charKind_reads hk)
  | block hpipe hmode hdevice =>
      rw [if_neg (ne_true_of_eq_false hpipe), if_neg (block_not_char hmode), if_pos hmode]
      refine from_assert fun _ => From.bind (from_answer (ends_all _)) fun _ t ht => ?_
      rw [ht.2]
      refine from_assert fun _ => from_assert fun _ => ?_
      refine (from_answer (blockRead_told (s := s) (k := k) hpos hdevice)).post fun r t hr _ => ?_
      rw [hr.2]
      exact hr.1
  | regular hpipe hmode =>
      rw [if_neg (ne_true_of_eq_false hpipe), if_neg (not_char hmode), if_neg (not_block hmode)]
      have hfiles : From never s (inodeRead i count.toNat (s.file_table k).offset)
          fun _ t => t.file_table = s.file_table :=
        (keeps_inodeRead fun _ _ h => h).start rfl
      refine From.bind ((inodeRead_reported hoff (by omega)).also hfiles) fun r u hr => ?_
      refine From.bind (Q := fun _ t => t = moved u k r.1) (from_moved rfl) fun _ t ht => ?_
      refine From.pure fun heof => iff_of_true ?_ trivial
      rw [ht]
      exact moved_told hr.2 hpos (hr.1 heof) heof

/-- `sys_write` likewise, unless it writes to the console. -/
theorem sysWrite_told (ho : OpenAs w s fd k kind) (hoff : IsInt (s.file_table k).offset)
    (hlt : count < 2 ^ 31) : From never s (sysWrite w fd buf count) fun r t =>
      r.1 ≠ EOF → (Told kind s t k count r.1 r.2 ↔ WritesTrue count kind) := by
  obtain ⟨i, hinode, hkind⟩ := ho.inode
  refine From.bind (openFile_from ho.fd_nonneg ho.fd_lt ho.file) fun a t hat => ?_
  rw [hat.1, hat.2]
  refine from_assert fun hpos => From.get (From.ite (fun _ => From.pure (absurd rfl)) fun _ => ?_)
  refine from_assert fun _ => from_inode hinode (From.get ?_)
  cases hkind with
  | pipe hpipe =>
      rw [if_pos hpipe]
      refine (from_answer pipeWrite_all).post fun r t hr _ => ?_
      refine (told_iff id hpos hr.1.2).trans (iff_of_true ?_ trivial)
      exact hr.1.1.trans (Int.toNat_of_nonneg hpos.le)
  | char hpipe hmode hdevice hk =>
      rw [if_neg (ne_true_of_eq_false hpipe), if_pos hmode]
      refine from_assert fun _ => From.bind (from_answer (ends_all _)) fun _ t ht => ?_
      rw [ht.2]
      refine (from_answer (charWrite_all hdevice hk hpos hlt)).post fun r t hr heof => ?_
      exact (told_iff (charKind_seeks hk) hpos (hr.1 heof).1).trans (hr.1 heof).2
  | @block hpipe hmode driver hdevice =>
      rw [if_neg (ne_true_of_eq_false hpipe), if_neg (block_not_char hmode), if_pos hmode]
      refine from_assert fun _ => From.bind (from_answer (ends_all _)) fun _ t ht => ?_
      rw [ht.2]
      refine from_assert fun _ => from_assert fun _ => ?_
      refine (from_answer (blockWrite_told (s := s) (k := k) hpos hdevice)).post fun r t hr _ => ?_
      rw [hr.2]
      refine hr.1.trans (iff_of_eq ?_)
      cases driver with
      | disk | part | ramdisk => rfl
  | regular hpipe hmode =>
      rw [if_neg (ne_true_of_eq_false hpipe), if_neg (not_char hmode), if_neg (not_block hmode)]
      have hfiles : From never s (inodeMove i buf count.toNat (s.file_table k).offset)
          fun _ t => t.file_table = s.file_table := inodeMove_files
      refine From.bind ((inodeMove_reported hoff (by omega)).also hfiles) fun r u hr => ?_
      refine From.bind (Q := fun _ t => t = moved u k r.1) (from_moved rfl) fun _ t ht => ?_
      refine From.pure fun heof => iff_of_true ?_ trivial
      rw [ht]
      exact moved_told hr.2 hpos hr.1 heof

/-- A call that returns something other than `EOF` tells what it has moved, exactly unless
    it reads or writes a disk, writes to the console or reaches blocks of a ramdisk. -/
theorem transfers_told (ho : OpenAs w s fd k kind) (hoff : IsInt (s.file_table k).offset)
    (hlt : count < 2 ^ 31) :
    (From never s (sysRead w fd count) fun r t =>
      r.1 ≠ EOF → (Told kind s t k count r.1 r.2.length ↔ ReadsTrue count kind)) ∧
    ∀ buf, From never s (sysWrite w fd buf count) fun r t =>
      r.1 ≠ EOF → (Told kind s t k count r.1 r.2 ↔ WritesTrue count kind) :=
  ⟨sysRead_told ho hoff hlt, fun _ => sysWrite_told ho hoff hlt⟩

/-! ### Regular files, as in `FileData` -/

/-- Two calls that begin alike. -/
theorem run_congr {α β : Type} {x : Fs α} {f g : α → Fs β} {n : Nat}
    (h : ∀ a t, x n s = .ok (a, t) → f a n t = g a n t) : (x >>= f) n s = (x >>= g) n s := by
  show (x n s >>= fun r => f r.1 n r.2) = (x n s >>= fun r => g r.1 n r.2)
  cases hx : x n s with
  | error e => rfl
  | ok r => exact h r.1 r.2 hx

theorem assert_congr {β : Type} {p : Prop} [Decidable p] {f g : Unit → Fs β} {n : Nat}
    (h : p → f () n s = g () n s) : (assert p >>= f) n s = (assert p >>= g) n s := by
  rw [assert]
  by_cases hp : p
  · rw [if_pos hp]
    exact h hp
  · rw [if_neg hp]
    rfl

theorem ite_congr_run {α : Type} {p : Prop} [Decidable p] {x y y' : Fs α} {n : Nat}
    (h : ¬ p → y n s = y' n s) : (if p then x else y) n s = (if p then x else y') n s := by
  by_cases hp : p
  · rw [if_pos hp, if_pos hp]
  · rw [if_neg hp, if_neg hp]
    exact h hp

variable {specialRead : Nat → Int → Fs (Int × List Byte)}
  {specialWrite : Nat → (Nat → Byte) → Int → Fs Int}

/-- For a regular file the two models of `sys_read` agree. -/
theorem sysRead_regular (ho : Opens s fd k i) (n : Nat) :
    sysRead w fd count n s = NeonixFileData.sysRead specialRead fd count n s := by
  refine run_congr fun a t hfile => ?_
  obtain ⟨rfl, rfl⟩ := (ho.openFile : From never s _ _).of_ok rfl hfile
  refine assert_congr fun _ => ite_congr_run fun _ => ?_
  show (deref (t.file_table a).inode >>= _) n t = (deref (t.file_table a).inode >>= _) n t
  rw [ho.inode]
  show (if _ then _ else _ : Fs _) n t = (if _ then _ else _ : Fs _) n t
  rw [if_neg ho.not_special, if_neg (ne_true_of_eq_false ho.pipe), if_neg (not_char ho.regular),
    if_neg (not_block ho.regular)]

/-- And so do those of `sys_write`. -/
theorem sysWrite_regular (ho : Opens s fd k i) (n : Nat) :
    (Prod.fst <$> sysWrite w fd buf count) n s =
      NeonixFileData.sysWrite specialWrite fd buf count n s := by
  rw [sysWrite, NeonixFileData.sysWrite, map_bind]
  refine run_congr fun a t hfile => ?_
  obtain ⟨rfl, rfl⟩ := (ho.openFile : From never s _ _).of_ok rfl hfile
  rw [map_bind]
  refine assert_congr fun _ => ?_
  show (Prod.fst <$> (if _ then _ else _ : Fs _)) n t = (if _ then _ else _ : Fs _) n t
  by_cases hreads : (t.file_table a).flags &&& O_ACCMODE = O_RDONLY
  · rw [if_pos hreads, if_pos hreads, map_pure]
  · rw [if_neg hreads, if_neg hreads, map_bind]
    refine assert_congr fun _ => ?_
    rw [ho.inode]
    show (Prod.fst <$> (if _ then _ else _ : Fs _)) n t = (if _ then _ else _ : Fs _) n t
    rw [if_neg ho.not_special, if_neg (ne_true_of_eq_false ho.pipe), if_neg (not_char ho.regular),
      if_neg (not_block ho.regular), ← inodeMove_fst]
    simp only [map_bind, map_pure, bind_map_left]

end Calls

/-! ## A byte for the console -/

theorem page_pos : 0 < 4096 := by decide

theorem page_lt : 4096 < 2 ^ 32 := by decide

/-- A console as `console_init` leaves it, a keyboard and a tty. -/
def terminal : Devices where
  device := fun dev =>
    if dev = 1 then some .console
    else if dev = 2 then some .keyboard
    else if dev = 3 then some (.tty 2 1) else none
  console :=
    { mem_base := 0xb8000, mem_size := 0x3fc0, mem_end := 0xbbfc0
      screen := 0xb8000, scr_size := 4000, pos := 0xb8000
      x := 0, y := 0, saved_x := 0, saved_y := 0
      width := 80, height := 25, row_size := 160
      state := .STATE_NOR, args := fun _ => 0, argc := 0, ques := 0
      erase := 0x0720, style := 7, mem := fun _ => 0 }
  fifo := NeonixFifo.fifoInit (fun _ => 0) 64 (by decide) (by decide)
  rx_fifo := fun _ => NeonixFifo.fifoInit (fun _ => 0) 64 (by decide) (by decide)
  rx_waiter := fun _ => false
  blocks := NeonixBlockDevices.partitioned
  pipe := fun _ => ⟨NeonixFifo.fifoInit (fun _ => 0) 4096 page_pos page_lt, none, none⟩
  arrivals := []
  ready := []
  pipes := []

/-- The file of `emptyFile` made a character device, number 1. -/
def openConsole : Kernel :=
  { emptyFile with disk := fun _ b k =>
      if b = 4 ∧ k = 0 then 0x90 else if b = 4 ∧ k = 1 then 0x21
      else if b = 4 ∧ k = 14 then 1 else 0 }

theorem openConsole_opens : OpenAs terminal openConsole 3 3 .console where
  fd_nonneg := by decide
  fd_lt := by decide
  file := ⟨_, rfl, rfl⟩
  inode := ⟨1, rfl, .char rfl (by decide) rfl rfl⟩

/-- One byte written to the console is reported as two. -/
theorem console_overtold :
    ∃ r t, sysWrite terminal 3 (fun _ => 65) 1 0 openConsole = .ok (r, t) ∧ r.1 ≠ EOF ∧
      ¬ Told .console openConsole t 3 1 r.1 r.2 :=
  ⟨(2, 1), _, rfl, by decide, fun h => absurd h.1 (by decide)⟩

theorem transfers_told_empty :
    (From never emptyFile (sysRead terminal 3 1) fun r t => r.1 ≠ EOF →
      (Told .regular emptyFile t 3 1 r.1 r.2.length ↔ ReadsTrue 1 .regular)) ∧
    ∀ buf, From never emptyFile (sysWrite terminal 3 buf 1) fun r t => r.1 ≠ EOF →
      (Told .regular emptyFile t 3 1 r.1 r.2 ↔ WritesTrue 1 .regular) :=
  transfers_told
    ⟨by decide, by decide, ⟨_, rfl, rfl⟩, ⟨1, rfl, .regular rfl (by decide)⟩⟩
    ⟨by decide, by decide⟩ (by decide)

end NeonixTransfers
