import Neonix.Allocators
import Neonix.BlockTrees
import Neonix.FileData
import Neonix.Frames

/-! # Offsets of open files and bounds of block copies

    An offset that is not negative stays so through `sys_read`, `sys_write` and two of
    the three ways to seek, since `bmap` asserts that the block is one a file can have;
    and from such an offset every `memcpy` is inside its block.  What can make an offset
    negative is a sum with a size, which no check sees. -/

namespace NeonixFileOffsets

open NeonixMachine NeonixOutcome NeonixByteBits NeonixBitmap NeonixWords NeonixVolume NeonixCalls
  NeonixFileSystem NeonixNamei NeonixFiles NeonixFrames NeonixFileData NeonixRuns

/-- A load or store outside the object. -/
def stray : Halt → Prop := fun e => e = .stopped .outOfBounds

/-- An offset that is not negative. -/
def Sound (offset : Int) : Prop := 0 ≤ offset ∧ offset < 2 ^ 31

variable {s t u : Kernel} {α : Type} {dev : Dev} {array : Place} {create : Bool}
  {inode file len left index block : Nat} {offset : Int} {buf : Nat → Byte}

/-! ## No block map strays -/

theorem mapAlloc_inside {v : Volume} {m : BlockMap} (hlen : m.length = NeonixVolume.BLOCK_SIZE) :
    ∀ left i, mapAlloc v m left i ≠ .error .outOfBounds := by
  intro left
  induction left with
  | zero => exact fun i h => nomatch h
  | succ left ih =>
      intro i
      by_cases hi : i < m.blocks
      · by_cases hfull : ∀ k, k < BLOCK_BITS → mapBit v m (i * BLOCK_BITS + k) = true
        · rw [mapAlloc_skip hlen hi hfull]
          exact ih (i + 1)
        · -- the first clear bit of the block
          have hex : ∃ k, k < BLOCK_BITS ∧ mapBit v m (i * BLOCK_BITS + k) = false := by
            by_contra hno
            refine hfull fun k hk => ?_
            by_contra hbit
            exact hno ⟨k, hk, Bool.not_eq_true _ ▸ hbit⟩
          have hfirst := Nat.find_spec hex
          have hmin : ∀ k, k < Nat.find hex → mapBit v m (i * BLOCK_BITS + k) = true := by
            intro k hk
            by_contra hbit
            exact Nat.find_min hex hk ⟨hk.trans hfirst.1, Bool.not_eq_true _ ▸ hbit⟩
          rw [mapAlloc_here left (Nat.le_of_eq hlen.symm) hi hfirst.1 hfirst.2 hmin]
          by_cases hlim : Nat.find hex + m.offset i < m.limit
          · rw [check_pos hlim]
            exact nofun
          · rw [check_neg hlim]
            exact nofun
      · rw [mapAlloc_null hi]
        exact nofun

theorem balloc_inside : From stray s (balloc dev) fun _ _ => True := by
  refine From.bind (Q := fun _ _ => True) ?_ fun _ _ _ => From.pure trivial
  refine From.get ?_
  cases getSuper s dev with
  | none => exact From.stop nofun
  | some k =>
      dsimp only
      cases hb : NeonixVolume.balloc { desc := (s.super_table k).desc, disk := s.disk dev } with
      | error e =>
          refine From.stop fun he => ?_
          cases Halt.stopped.inj he
          exact mapAlloc_inside rfl _ _ hb
      | ok r => exact fun _ _ _ => trivial

theorem slot_inside : From stray s (slot dev create array index) fun _ _ => True := by
  refine From.get ?_
  refine From.bind (Q := fun _ _ => True) ?_ fun _ _ _ => From.get (From.pure trivial)
  rw [onlyIf]
  refine From.ite (fun _ => ?_) fun _ => From.pure trivial
  exact From.bind balloc_inside fun _ _ _ => From.store trivial

theorem reckon_inside {level divider : Nat} :
    From stray s (reckon dev create level array index block divider) fun _ _ => True := by
  induction level generalizing s array index block divider with
  | zero => exact slot_inside
  | succ level ih =>
      exact From.bind slot_inside fun _ _ _ => From.ite (fun _ => From.pure trivial) fun _ => ih

theorem from_assert_stray {β : Type} {p : Prop} [Decidable p] {f : Unit → Fs β}
    {R : β → Kernel → Prop} (h : p → From stray s (f ()) R) : From stray s (assert p >>= f) R := by
  rw [assert]
  by_cases hp : p
  · rw [if_pos hp]
    exact h hp
  · rw [if_neg hp]
    rintro _ _ _ ⟨⟩

theorem assert_inside {p : Prop} [Decidable p] : From stray s (assert p) fun _ _ => True :=
  From.ite (fun _ => From.pure trivial) fun _ => From.stop nofun

/-- `bmap` returns for a block that a file can have. -/
theorem bmap_inside : From stray s (bmap inode block create) fun _ _ => block < TOTAL_BLOCK := by
  refine from_assert_stray fun hblock => From.get ?_
  refine From.ite (fun _ => ?_) fun _ => From.ite (fun _ => ?_) fun _ => ?_
  · exact reckon_inside.post fun _ _ _ => hblock
  · exact reckon_inside.post fun _ _ _ => hblock
  · refine From.bind (Q := fun _ _ => True) ?_ ?_
    · exact assert_inside
    · exact fun _ _ _ => reckon_inside.post fun _ _ _ => hblock

/-! ## The loops -/

theorem startOf_eq (h : 0 ≤ offset) : startOf offset = (offset % 1024).toNat := by
  have hmod : offset.tmod BLOCK_SIZE = offset % 1024 := Int.tmod_eq_emod_of_nonneg h
  rw [startOf, hmod, u32]
  omega

theorem blockIn_eq (h : Sound offset) : blockIn offset = (offset / 1024).toNat := by
  have hdiv : offset.tdiv BLOCK_SIZE = offset / 1024 := Int.tdiv_eq_ediv_of_nonneg h.1
  obtain ⟨hpos, hlt⟩ := h
  rw [blockIn, hdiv, u32]
  omega

theorem charsOf_eq (h : 0 ≤ offset) (left : Nat) :
    charsOf offset left = min (1024 - (offset % 1024).toNat) left := by
  have hroom : u32 ((BLOCK_SIZE : Int) - (offset % 1024).toNat) = 1024 - (offset % 1024).toNat := by
    rw [u32, show (BLOCK_SIZE : Int) = 1024 from rfl]
    omega
  rw [charsOf, startOf_eq h, hroom]

/-- From an offset that is not negative a copy stays in its block. -/
theorem copy_inside (h : 0 ≤ offset) (left : Nat) :
    startOf offset + charsOf offset left ≤ BLOCK_SIZE := by
  rw [startOf_eq h, charsOf_eq h, show BLOCK_SIZE = 1024 from rfl]
  omega

theorem next_eq (h : Sound offset) (hblock : blockIn offset < TOTAL_BLOCK) (left : Nat) :
    int32 (offset + charsOf offset left) = offset + charsOf offset left ∧
      offset + charsOf offset left < 2 ^ 31 := by
  have hpos := h.1
  rw [blockIn_eq h, show TOTAL_BLOCK = 262663 from rfl] at hblock
  rw [charsOf_eq h.1, int32]
  omega

theorem next_sound (h : Sound offset) (hblock : blockIn offset < TOTAL_BLOCK) (left : Nat) :
    Sound (int32 (offset + charsOf offset left)) := by
  obtain ⟨heq, hlt⟩ := next_eq h hblock left
  rw [heq]
  exact ⟨by have := h.1; omega, hlt⟩

theorem copyOut_inside {nr start chars : Nat} (h : start + chars ≤ BLOCK_SIZE) :
    From stray s (copyOut dev nr start chars) fun _ _ => True := by
  rw [copyOut, if_pos h]
  exact From.get (From.pure trivial)

theorem copyIn_inside {nr start chars : Nat} (h : start + chars ≤ BLOCK_SIZE) :
    From stray s (copyIn dev nr start chars buf) fun _ _ => True := by
  rw [copyIn, if_pos h]
  exact From.store trivial

/-- The loop of `inode_read` copies inside the blocks and ends at a sound offset. -/
theorem readLoop_sound : ∀ (turns : Nat) (offset : Int) (left : Nat) (bytes : List Byte) (s : Kernel),
    Sound offset → From stray s (readLoop inode turns offset left bytes) fun r _ => Sound r.1 := by
  intro turns
  induction turns with
  | zero => exact fun offset left bytes s h => From.pure h
  | succ turns ih =>
      intro offset left bytes s h
      rw [readLoop]
      refine From.ite (fun _ => From.pure h) fun _ => ?_
      refine From.bind bmap_inside fun nr t hblock => ?_
      refine from_assert_stray fun _ => From.get ?_
      refine From.bind (copyOut_inside (copy_inside h.1 left)) fun chunk u _ => ?_
      exact ih _ _ _ u (next_sound h hblock left)

/-- The loop of `inode_write` likewise. -/
theorem writeLoop_sound : ∀ (turns : Nat) (offset : Int) (left : Nat) (buf : Nat → Byte) (s : Kernel),
    Sound offset → From stray s (writeLoop inode turns offset left buf) fun r _ => Sound r := by
  intro turns
  induction turns with
  | zero => exact fun offset left buf s h => From.pure h
  | succ turns ih =>
      intro offset left buf s h
      rw [writeLoop]
      refine From.ite (fun _ => From.pure h) fun _ => ?_
      refine From.bind bmap_inside fun nr t hblock => ?_
      refine from_assert_stray fun _ => From.get ?_
      refine From.get ?_
      have hrest : ∀ u, From stray u (do
          copyIn (t.inode_table inode).dev nr (startOf offset) (charsOf offset left) buf
          writeLoop inode turns (int32 (offset + charsOf offset left)) (left - charsOf offset left)
            fun k => buf (k + charsOf offset left)) fun r _ => Sound r := by
        intro u
        refine From.bind (copyIn_inside (copy_inside h.1 left)) fun _ v _ => ?_
        exact ih _ _ _ v (next_sound h hblock left)
      exact From.onlyIf (fun _ => From.set (hrest _)) fun _ => hrest _

theorem int32_sub {a b : Int} (ha : Sound a) (hb : Sound b) : int32 (a - b) = a - b := by
  obtain ⟨ha, ha'⟩ := ha
  obtain ⟨hb, hb'⟩ := hb
  rw [int32]
  omega

/-- What `inode_read` returns leads from a sound offset to a sound one. -/
theorem inodeRead_sound (h : Sound offset) : From stray s (inodeRead inode len offset)
    fun r _ => r.1 = EOF ∨ Sound (offset + r.1) := by
  refine From.get (from_assert_stray fun _ => From.ite (fun _ => From.pure (.inl rfl)) fun _ => ?_)
  refine From.bind (readLoop_sound _ _ _ _ s h) fun r _ hr => From.pure (.inr ?_)
  rw [int32_sub hr h]
  show Sound (offset + (r.1 - offset))
  rw [add_sub_cancel]
  exact hr

theorem inodeWrite_sound (h : Sound offset) : From stray s (inodeWrite inode buf len offset)
    fun r _ => Sound (offset + r) := by
  refine From.get (from_assert_stray fun _ => ?_)
  refine From.bind (writeLoop_sound _ _ _ _ s h) fun r _ hr => From.set (From.pure ?_)
  rw [int32_sub hr h, add_sub_cancel]
  exact hr

/-! ## The tables are left alone -/

variable {P : Kernel → Prop}

theorem keeps_readLoop (hP : DiskFree P) : ∀ (turns : Nat) (offset : Int) (left : Nat)
    (bytes : List Byte), Keeps P (readLoop inode turns offset left bytes) := by
  intro turns
  induction turns with
  | zero => exact fun _ _ _ => .pure
  | succ turns ih =>
      intro offset left bytes
      refine .ite .pure (.bind (keeps_bmap hP) fun _ => .bind .assert fun _ => .bind .get fun _ => ?_)
      exact .bind (.ite (.bind .get fun _ => .pure) .stop) fun _ => ih _ _ _

theorem keeps_inodeRead (hP : DiskFree P) : Keeps P (inodeRead inode len offset) :=
  .bind .get fun _ => .bind .assert fun _ => .ite .pure <|
    .bind (keeps_readLoop hP _ _ _ _) fun _ => .pure

theorem keeps_writeLoop (hP : DiskFree P) : ∀ (turns : Nat) (offset : Int) (left : Nat)
    (buf : Nat → Byte), Keeps P (writeLoop inode turns offset left buf) := by
  intro turns
  induction turns with
  | zero => exact fun _ _ _ => .pure
  | succ turns ih =>
      intro offset left buf
      refine .ite .pure (.bind (keeps_bmap hP) fun _ => .bind .assert fun _ => .bind .get fun _ => ?_)
      refine .bind .get fun _ => .bind (.onlyIf (keeps_modifyDisk hP)) fun _ => ?_
      exact .bind (.ite (keeps_modifyDisk hP) .stop) fun _ => ih _ _ _

theorem keeps_inodeWrite (hP : DiskFree P) : Keeps P (inodeWrite inode buf len offset) :=
  .bind .get fun _ => .bind .assert fun _ => .bind (keeps_writeLoop hP _ _ _ _) fun _ =>
    .bind (keeps_modifyDisk hP) fun _ => .pure

/-! ## The calls -/

/-- The running task has descriptor `fd` open on a regular file: `k` in `file_table`, `i`
    in `inode_table`. -/
structure Opens (s : Kernel) (fd : Int) (k i : Nat) : Prop where
  fd_nonneg : 0 ≤ fd
  fd_lt : fd < TASK_FILE_NR
  file : ∃ task, s.task_table s.current = some task ∧ task.files fd.toNat = some k
  inode : (s.file_table k).inode = some i
  pipe : (s.inode_table i).pipe = false
  regular : ISFILE (s.mode i)

variable {bad : Halt → Prop} {fd count : Int} {k i : Nat}
  {specialRead : Nat → Int → Fs (Int × List Byte)}
  {specialWrite : Nat → (Nat → Byte) → Int → Fs Int}

theorem Opens.not_special (h : Opens s fd k i) : ¬ Special s i := by
  have hreg := h.regular
  rintro (hp | hc | hb)
  · rw [h.pipe] at hp
    cases hp
  · rw [ISFILE] at hreg
    rw [ISCHR, hreg] at hc
    exact absurd hc (by decide)
  · rw [ISFILE] at hreg
    rw [ISBLK, hreg] at hb
    exact absurd hb (by decide)

/-- What `task->files[fd]` finds at an open descriptor. -/
theorem openFile_from (hnonneg : 0 ≤ fd) (hlt : fd < TASK_FILE_NR)
    (hopen : ∃ task, s.task_table s.current = some task ∧ task.files fd.toNat = some k) :
    From bad s (openFile fd) fun a t => a = k ∧ t = s := by
  obtain ⟨task, htask, hfile⟩ := hopen
  rw [NeonixFileData.openFile, if_neg (not_le.mpr hlt)]
  refine From.bind (Q := fun a t => a = some k ∧ t = s) ?_ ?_
  · rw [getFd, if_neg (not_lt.mpr hnonneg)]
    refine From.bind (Q := fun a t => a = task ∧ t = s) ?_ ?_
    · refine From.get ?_
      rw [htask]
      exact From.pure ⟨rfl, rfl⟩
    · rintro _ _ ⟨rfl, rfl⟩
      exact From.pure ⟨hfile, rfl⟩
  · rintro _ _ ⟨rfl, rfl⟩
    exact From.pure ⟨rfl, rfl⟩

theorem Opens.openFile (h : Opens s fd k i) : From bad s (openFile fd) fun a t => a = k ∧ t = s :=
  openFile_from h.fd_nonneg h.fd_lt h.file

/-- Every offset in `file_table` is sound. -/
def OffsetsSound (s : Kernel) : Prop := ∀ k, Sound (s.file_table k).offset

theorem offset_setFile {f : File → File} (j : Nat) : ((s.setFile k f).file_table j).offset =
    if j = k then (f (s.file_table k)).offset else (s.file_table j).offset := by
  by_cases hj : j = k
  · subst hj
    rw [if_pos rfl]
    show ((Function.update s.file_table j (f (s.file_table j))) j).offset = _
    rw [Function.update_self]
  · rw [if_neg hj]
    show ((Function.update s.file_table k (f (s.file_table k))) j).offset = _
    rw [Function.update_of_ne hj]

theorem OffsetsSound.setFile {f : File → File} (h : OffsetsSound s)
    (hk : Sound (f (s.file_table k)).offset) : OffsetsSound (s.setFile k f) := by
  intro j
  by_cases hj : j = k
  · subst hj
    show Sound ((Function.update s.file_table j (f (s.file_table j))) j).offset
    rw [Function.update_self]
    exact hk
  · show Sound ((Function.update s.file_table k (f (s.file_table k))) j).offset
    rw [Function.update_of_ne hj]
    exact h j

/-- The update of the offset behind `inode_read` and `inode_write`, which returned `len`. -/
def moved (s : Kernel) (k : Nat) (len : Int) : Kernel :=
  if len ≠ EOF then s.setFile k fun f => { f with offset := int32 (f.offset + len) } else s

theorem from_moved {len : Int} {R : Unit → Kernel → Prop} (h : R () (moved s k len)) :
    From bad s (onlyIf (len ≠ EOF) (modify fun s =>
      s.setFile k fun f => { f with offset := int32 (f.offset + len) })) R := by
  rw [onlyIf]
  refine From.ite (fun he => From.store ?_) fun he => From.pure ?_
  · rwa [moved, if_pos he] at h
  · rwa [moved, if_neg he] at h

theorem OffsetsSound.moved {len : Int} (h : OffsetsSound s)
    (hlen : len ≠ EOF → Sound ((s.file_table k).offset + len)) :
    OffsetsSound (NeonixFileOffsets.moved s k len) := by
  rw [NeonixFileOffsets.moved]
  split_ifs with he
  · refine h.setFile ?_
    have hs := hlen he
    have hint : int32 ((s.file_table k).offset + len) = (s.file_table k).offset + len := by
      obtain ⟨hpos, hlt⟩ := hs
      rw [int32]
      omega
    rw [hint]
    exact hs
  · exact h

theorem from_count {β : Type} {f : Unit → Fs β} {R : β → Kernel → Prop}
    (hcount : bad (.stopped .assertion) → 0 < count)
    (h : 0 < count → From bad s (f ()) R) : From bad s (assert (count > 0) >>= f) R := by
  rw [assert]
  by_cases hp : count > 0
  · rw [if_pos hp]
    exact h hp
  · rw [if_neg hp]
    exact fun _ _ _ hbad => hp (hcount hbad)

/-- `sys_read` on a regular file is `inode_read`, if the descriptor may read. -/
theorem sysRead_from {Q : Int × List Byte → Kernel → Prop} (ho : Opens s fd k i)
    (hcount : bad (.stopped .assertion) → 0 < count)
    (hread : 0 < count → (s.file_table k).flags &&& O_ACCMODE ≠ O_WRONLY →
      From bad s (inodeRead i count.toNat (s.file_table k).offset) Q) :
    From bad s (sysRead specialRead fd count) fun r t => 0 < count ∧
      ((s.file_table k).flags &&& O_ACCMODE = O_WRONLY ∧ r = (EOF, []) ∧ t = s ∨
        (s.file_table k).flags &&& O_ACCMODE ≠ O_WRONLY ∧ ∃ u, Q r u ∧ t = moved u k r.1) := by
  refine From.bind ho.openFile fun a t hat => ?_
  rw [hat.1, hat.2]
  refine from_count hcount fun hpos => From.get ?_
  refine From.ite (fun hw => From.pure ⟨hpos, .inl ⟨hw, rfl, rfl⟩⟩) fun hw => ?_
  rw [ho.inode]
  refine From.bind (Q := fun a t => a = i ∧ t = s) (From.pure ⟨rfl, rfl⟩) fun a t hat => ?_
  rw [hat.1, hat.2]
  refine From.get ?_
  rw [if_neg ho.not_special]
  refine From.bind (hread hpos hw) fun r u hr => ?_
  refine From.bind (Q := fun _ t => t = moved u k r.1) (from_moved rfl) fun _ t ht => ?_
  exact From.pure ⟨hpos, .inr ⟨hw, u, hr, ht⟩⟩

/-- `sys_write` likewise. -/
theorem sysWrite_from {Q : Int → Kernel → Prop} (ho : Opens s fd k i)
    (hcount : bad (.stopped .assertion) → 0 < count)
    (hwrite : 0 < count → (s.file_table k).flags &&& O_ACCMODE ≠ O_RDONLY →
      From bad s (inodeWrite i buf count.toNat (s.file_table k).offset) Q) :
    From bad s (sysWrite specialWrite fd buf count) fun r t => 0 < count ∧
      ((s.file_table k).flags &&& O_ACCMODE = O_RDONLY ∧ r = EOF ∧ t = s ∨
        (s.file_table k).flags &&& O_ACCMODE ≠ O_RDONLY ∧ ∃ u, Q r u ∧ t = moved u k r) := by
  refine From.bind ho.openFile fun a t hat => ?_
  rw [hat.1, hat.2]
  refine from_count hcount fun hpos => From.get ?_
  refine From.ite (fun hw => From.pure ⟨hpos, .inl ⟨hw, rfl, rfl⟩⟩) fun hw => ?_
  rw [ho.inode]
  refine NeonixDirectories.past_assert rfl ?_
  refine From.bind (Q := fun a t => a = i ∧ t = s) (From.pure ⟨rfl, rfl⟩) fun a t hat => ?_
  rw [hat.1, hat.2]
  refine From.get ?_
  rw [if_neg ho.not_special]
  refine From.bind (hwrite hpos hw) fun r u hr => ?_
  refine From.bind (Q := fun _ t => t = moved u k r) (from_moved rfl) fun _ t ht => ?_
  exact From.pure ⟨hpos, .inr ⟨hw, u, hr, ht⟩⟩

/-- `sys_read` on a regular file keeps the offsets sound, and copies inside the blocks. -/
theorem sysRead_sound (h : OffsetsSound s) (ho : Opens s fd k i) :
    From stray s (sysRead specialRead fd count) fun _ t => OffsetsSound t := by
  have hfiles : From never s (inodeRead i count.toNat (s.file_table k).offset)
      fun _ t => t.file_table = s.file_table :=
    (keeps_inodeRead fun _ _ h => h).start rfl
  refine (sysRead_from ho nofun fun _ _ => (inodeRead_sound (h k)).also hfiles).post ?_
  rintro r t ⟨-, ⟨-, -, rfl⟩ | ⟨-, u, ⟨hr, hf⟩, rfl⟩⟩
  · exact h
  · have hu : OffsetsSound u := fun j => by rw [hf]; exact h j
    refine hu.moved fun he => ?_
    rw [hf]
    exact hr.resolve_left he

theorem sysWrite_sound (h : OffsetsSound s) (ho : Opens s fd k i) :
    From stray s (sysWrite specialWrite fd buf count) fun _ t => OffsetsSound t := by
  have hfiles : From never s (inodeWrite i buf count.toNat (s.file_table k).offset)
      fun _ t => t.file_table = s.file_table :=
    (keeps_inodeWrite fun _ _ h => h).start rfl
  refine (sysWrite_from ho nofun fun _ _ => (inodeWrite_sound (h k)).also hfiles).post ?_
  rintro r t ⟨-, ⟨-, -, rfl⟩ | ⟨-, u, ⟨hr, hf⟩, rfl⟩⟩
  · exact h
  · have hu : OffsetsSound u := fun j => by rw [hf]; exact h j
    refine hu.moved fun _ => ?_
    rw [hf]
    exact hr

/-- `sys_lseek` stores a new offset, which is sound, unless it is that of a seek from the
    end. -/
theorem sysLseek_from {whence : Whence} (ho : Opens s fd k i)
    (hoff : -2 ^ 31 ≤ offset ∧ offset < 2 ^ 31) :
    From never s (sysLseek fd offset whence) fun _ t => ∃ x,
      t = s.setFile k (fun f => { f with offset := x }) ∧
        (x = int32 (s.size i + offset) ∧ whence = .end ∨ Sound x ∧ whence ≠ .end) := by
  refine from_assert fun _ => From.bind ho.openFile fun a t hat => ?_
  rw [hat.1, hat.2]
  refine From.get (from_assert fun _ => From.get ?_)
  rw [ho.inode]
  refine From.bind (Q := fun a t => a = i ∧ t = s) (From.pure ⟨rfl, rfl⟩) fun a t hat => ?_
  rw [hat.1, hat.2]
  cases whence with
  | set =>
      refine from_assert fun hpos => From.set (From.get (From.pure ⟨_, rfl, .inr ⟨?_, nofun⟩⟩))
      exact ⟨hpos, hoff.2⟩
  | cur =>
      refine from_assert fun hpos => From.set (From.get (From.pure ⟨_, rfl, .inr ⟨?_, nofun⟩⟩))
      refine ⟨hpos, ?_⟩
      show int32 ((s.file_table k).offset + offset) < 2 ^ 31
      rw [int32]
      omega
  | «end» =>
      exact from_assert fun hpos => From.set (From.get (From.pure ⟨_, rfl, .inl ⟨rfl, rfl⟩⟩))
  | other => exact From.bind (Q := fun _ _ => False) (From.stop not_false) fun _ _ h => h.elim

theorem sysLseek_sound {whence : Whence} (h : OffsetsSound s) (ho : Opens s fd k i)
    (hoff : -2 ^ 31 ≤ offset ∧ offset < 2 ^ 31) :
    From never s (sysLseek fd offset whence) fun _ t =>
      (∀ j ≠ k, Sound (t.file_table j).offset) ∧
        ((t.file_table k).offset = int32 (s.size i + offset) ∧ whence = .end ∨
          Sound (t.file_table k).offset ∧ whence ≠ .end) := by
  refine (sysLseek_from ho hoff).post ?_
  rintro _ _ ⟨x, rfl, hx⟩
  refine ⟨fun j hj => ?_, ?_⟩
  · rw [offset_setFile, if_neg hj]
    exact h j
  · rw [offset_setFile, if_pos rfl]
    exact hx

/-! ## `sys_open` -/

/-- The inodes and the offsets are those of `u`. -/
structure SameFiles (u t : Kernel) : Prop where
  disk : t.disk = u.disk
  inodes : t.inode_table = u.inode_table
  offsets : ∀ j, (t.file_table j).offset = (u.file_table j).offset

theorem SameFiles.size (h : SameFiles u t) (i : Nat) : t.size i = u.size i := by
  have hbytes : t.bytes (t.desc i) = u.bytes (u.desc i) := by
    funext k
    rw [Kernel.bytes, Kernel.bytes, Kernel.desc, Kernel.desc, h.disk, h.inodes]
  rw [Kernel.size, Kernel.size, hbytes]

theorem keeps_taskGetFd {P : Kernel → Prop} : Keeps P taskGetFd := by
  refine .bind keeps_runningTask fun task => ?_
  cases (List.range' 3 (TASK_FILE_NR - 3)).find? fun fd => task.files fd = none with
  | none => exact .stop
  | some fd => exact .pure

theorem getFile_same : Keeps (SameFiles u) getFile := by
  refine Keeps.bind Keeps.get fun s => ?_
  cases (List.range' 3 (FILE_NR - 3)).find? fun k => (s.file_table k).count = 0 with
  | none => exact Keeps.stop
  | some k =>
      refine Keeps.bind ?_ fun _ => Keeps.pure
      intro _ t ht
      refine ⟨ht.disk, ht.inodes, fun j => ?_⟩
      rw [offset_setFile]
      by_cases hj : j = k
      · rw [if_pos hj, hj]
        exact ht.offsets k
      · rw [if_neg hj]
        exact ht.offsets j

/-- The offset `sys_open` sets. -/
def openOffset (flags : BitVec 32) (size : Nat) : Int :=
  if flags &&& O_APPEND ≠ 0 then (BitVec.ofNat 32 size).toInt else 0

/-- The descriptor behind `inode_open`: one file of the table has a new offset. -/
theorem opened_offset {flags : BitVec 32} : From never u (do
    let fd ← taskGetFd
    let file ← getFile
    assert ((← runningTask).files fd = none)
    setFd fd (some file)
    modify fun s => s.setFile file fun _ =>
      { inode := some i, count := 1, offset := 0, flags := flags, mode := s.mode i }
    onlyIf (flags &&& O_APPEND ≠ 0) do
      modify fun s => s.setFile file fun file =>
        { file with offset := (BitVec.ofNat 32 (s.size i)).toInt }
    return (fd : Int)) fun _ t => ∃ k, ∀ j, (t.file_table j).offset =
      if j = k then openOffset flags (u.size i) else (u.file_table j).offset := by
  have hu : SameFiles u u := ⟨rfl, rfl, fun _ => rfl⟩
  refine From.bind (keeps_taskGetFd.start hu) fun fd t ht => ?_
  refine From.bind (getFile_same.start ht) fun file t ht => ?_
  refine From.bind (keeps_runningTask.start ht) fun task t ht => from_assert fun _ => ?_
  refine From.bind (Q := fun _ t => SameFiles u t) (From.store ⟨ht.disk, ht.inodes, ht.offsets⟩)
    fun _ t ht => From.set ?_
  have hzero : ∀ j, ((t.setFile file fun _ =>
      { inode := some i, count := 1, offset := 0, flags := flags, mode := t.mode i }).file_table
        j).offset = if j = file then 0 else (u.file_table j).offset := by
    intro j
    rw [offset_setFile, ht.offsets]
  refine From.onlyIf (fun happend => From.set (From.pure ⟨file, fun j => ?_⟩))
    fun happend => From.pure ⟨file, fun j => ?_⟩
  · rw [openOffset, if_pos happend, offset_setFile, hzero j]
    by_cases hj : j = file
    · rw [if_pos hj, if_pos hj]
      exact congrArg (fun n => (BitVec.ofNat 32 n).toInt) (ht.size i)
    · rw [if_neg hj, if_neg hj, if_neg hj]
  · rw [openOffset, if_neg happend]
    exact hzero j

variable {flags mode : BitVec 32} {filename : Str} {n : Nat}

/-- `sys_open` leaves no offset negative exactly if a file it opens to append to is small
    enough for its size to be an offset. -/
theorem sysOpen_sound (h : OffsetsSound s) {r : Int}
    (hrun : sysOpen filename flags mode n s = .ok (r, t)) :
    ((∀ k, 0 ≤ (t.file_table k).offset) ↔ ∀ i u, flags &&& O_APPEND ≠ 0 →
      inodeOpen filename flags mode n s = .ok (some i, u) → u.size i < 2 ^ 31) ∧
    ((∀ k, 0 ≤ (t.file_table k).offset) → OffsetsSound t) := by
  have hkeeps : Keeps (fun u => u.file_table = s.file_table) (inodeOpen filename flags mode) :=
    keeps_inodeOpen (Fixed.stable fun _ _ hf _ _ _ _ hs => hf.trans hs)
  cases hopen : inodeOpen filename flags mode n s with
  | error e =>
      change (inodeOpen filename flags mode n s >>= _) = _ at hrun
      rw [hopen] at hrun
      cases hrun
  | ok p =>
      obtain ⟨found, u⟩ := p
      have hu : u.file_table = s.file_table := hkeeps.of_ok rfl hopen
      rw [sysOpen, bind_run hopen] at hrun
      cases found with
      | none =>
          have ht : u = t := congrArg Prod.snd (Except.ok.inj hrun)
          subst ht
          have hsound : OffsetsSound u := by
            intro k
            rw [hu]
            exact h k
          have hnone : ∀ i v, flags &&& O_APPEND ≠ 0 →
              (Except.ok (none, u) : Except Halt _) = .ok (some i, v) → v.size i < 2 ^ 31 := by
            intro i v _ hsome
            cases hsome
          exact ⟨⟨fun _ => hnone, fun _ k => (hsound k).1⟩, fun _ => hsound⟩
      | some i =>
          obtain ⟨k, hk⟩ := Triple.of_ok (opened_offset (i := i)) rfl hrun
          -- the offset of an opened file is that of its size, or 0
          have hnew : 0 ≤ openOffset flags (u.size i) ↔
              (flags &&& O_APPEND ≠ 0 → u.size i < 2 ^ 31) := by
            have hlt : u.size i < 2 ^ 32 := (u32At (u.bytes (u.desc i)) 4).isLt
            rw [openOffset]
            by_cases happend : flags &&& O_APPEND ≠ 0
            · rw [if_pos happend, BitVec.toInt_eq_toNat_cond, BitVec.toNat_ofNat]
              constructor
              · intro h _
                split at h <;> omega
              · intro h
                have := h happend
                split <;> omega
            · rw [if_neg happend]
              exact ⟨fun _ h => absurd h happend, fun _ => le_refl 0⟩
          have hle : openOffset flags (u.size i) < 2 ^ 31 := by
            rw [openOffset]
            split
            · have := BitVec.toInt_lt (x := BitVec.ofNat 32 (u.size i))
              simpa using this
            · decide
          have hold : ∀ j, Sound (u.file_table j).offset := by
            intro j
            rw [hu]
            exact h j
          have hall : (∀ j, 0 ≤ (t.file_table j).offset) ↔ 0 ≤ openOffset flags (u.size i) := by
            constructor
            · intro hj
              have := hj k
              rwa [hk k, if_pos rfl] at this
            · intro hpos j
              rw [hk j]
              by_cases hj : j = k
              · rwa [if_pos hj]
              · rw [if_neg hj]
                exact (hold j).1
          refine ⟨hall.trans (hnew.trans ⟨?_, fun hsize happend => hsize i u happend rfl⟩), ?_⟩
          · rintro hsize _ _ happend hsome
            cases hsome
            exact hsize happend
          · intro hpos j
            rw [hk j]
            by_cases hj : j = k
            · rw [if_pos hj]
              exact ⟨hall.mp hpos, hle⟩
            · rw [if_neg hj]
              exact hold j

/-! ## Runs -/

inductive FileCall where
  | open (filename : Str) (flags mode : BitVec 32)
  | lseek (fd : Int) (offset : BitVec 32) (whence : Whence)
  | read (fd count : Int)
  | write (fd : Int) (buf : Nat → Byte) (count : Int)

/-- A task makes a call, whose unbounded loops take at most `fuel` turns. -/
structure FileEvent where
  task : Nat
  fuel : Nat
  time : BitVec 32
  call : FileCall

def enter (s : Kernel) (e : FileEvent) : Kernel := { s with current := e.task, time := e.time }

/-- The descriptor a call is for is open on a regular file. -/
def Enabled (s : Kernel) (e : FileEvent) : Prop :=
  match e.call with
  | .open .. => True
  | .lseek fd _ _ | .read fd _ | .write fd _ _ => ∃ k i, Opens (enter s e) fd k i

section System

variable (specialRead : Nat → Int → Fs (Int × List Byte))
  (specialWrite : Nat → (Nat → Byte) → Int → Fs Int)

def perform : FileCall → Fs Unit
  | .open filename flags mode => do let _ ← sysOpen filename flags mode
  | .lseek fd offset whence => do let _ ← sysLseek fd offset.toInt whence
  | .read fd count => do let _ ← sysRead specialRead fd count
  | .write fd buf count => do let _ ← sysWrite specialWrite fd buf count

def exec (s : Kernel) (e : FileEvent) : Except Halt Kernel := do
  let (_, t) ← perform specialRead specialWrite e.call e.fuel (enter s e)
  return t

/-- Calls on regular files, one after the other, from offsets that are sound. -/
def system : System Kernel FileEvent :=
  execSystem OffsetsSound Enabled (exec specialRead specialWrite)

end System

/-- The sums with a size that a call makes fit into an offset: the size of a file opened
    to append to, and the size and the offset of a seek from the end. -/
def Fits (s : Kernel) (e : FileEvent) : Prop :=
  match e.call with
  | .open filename flags mode => ∀ i u, flags &&& O_APPEND ≠ 0 →
      inodeOpen filename flags mode e.fuel (enter s e) = .ok (some i, u) → u.size i < 2 ^ 31
  | .lseek fd offset .end => ∀ k i, Opens (enter s e) fd k i →
      u32 ((enter s e).size i + offset.toInt) < 2 ^ 31
  | _ => True

/-- The call copies data of a file. -/
def Copies (e : FileEvent) : Prop :=
  match e.call with
  | .read .. | .write .. => True
  | _ => False

theorem Opens.unique {k' i' : Nat} (h : Opens s fd k i) (h' : Opens s fd k' i') :
    k = k' ∧ i = i' := by
  obtain ⟨task, htask, hfile⟩ := h.file
  obtain ⟨task', htask', hfile'⟩ := h'.file
  cases htask.symm.trans htask'
  cases hfile.symm.trans hfile'
  exact ⟨rfl, Option.some.inj (h.inode.symm.trans h'.inode)⟩

theorem int32_nonneg (x : Int) : 0 ≤ int32 x ↔ u32 x < 2 ^ 31 := by
  rw [int32, u32]
  omega

/-- A call that ends returns from the call it performs. -/
theorem perform_bind {x : Fs α} {n : Nat}
    (h : ((do let _ ← x : Fs Unit) n s >>= fun r => (.ok r.2 : Except Halt Kernel)) = .ok t) :
    ∃ a, x n s = .ok (a, t) := by
  cases hx : x n s with
  | error e =>
      change ((x n s >>= fun _ => _) >>= _) = _ at h
      rw [hx] at h
      cases h
  | ok r =>
      obtain ⟨a, u⟩ := r
      rw [bind_run hx] at h
      have hut : u = t := Except.ok.inj h
      exact ⟨a, by rw [hut]⟩

/-- What a step does to the offsets: they stay sound exactly if the sums fit. -/
theorem step_sound {e : FileEvent} (h : OffsetsSound s)
    (hstep : (system specialRead specialWrite).step s e t) :
    ((∀ k, 0 ≤ (t.file_table k).offset) ↔ Fits s e) ∧
      ((∀ k, 0 ≤ (t.file_table k).offset) → OffsetsSound t) := by
  obtain ⟨henabled, hexec⟩ := hstep
  have hs : OffsetsSound (enter s e) := h
  obtain ⟨task, fuel, time, call⟩ := e
  cases call with
  | «open» filename flags mode =>
      obtain ⟨r, hrun⟩ := perform_bind hexec
      exact sysOpen_sound hs hrun
  | lseek fd offset whence =>
      obtain ⟨k, i, ho⟩ := henabled
      obtain ⟨r, hrun⟩ := perform_bind hexec
      have hoff : -2 ^ 31 ≤ offset.toInt ∧ offset.toInt < 2 ^ 31 :=
        ⟨BitVec.le_toInt offset, BitVec.toInt_lt⟩
      obtain ⟨hothers, hself⟩ := (sysLseek_sound hs ho hoff).of_ok rfl hrun
      have hall : ∀ {p : Int → Prop}, (∀ x, Sound x → p x) →
          ((∀ j, p (t.file_table j).offset) ↔ p (t.file_table k).offset) := by
        intro p hp
        refine ⟨fun hj => hj k, fun hk j => ?_⟩
        by_cases hj : j = k
        · rwa [hj]
        · exact hp _ (hothers j hj)
      rcases hself with ⟨hend, rfl⟩ | ⟨hsound, hwhence⟩
      · -- the sum of the size and the offset, as it comes out in 32 bits
        have hfits : Fits s ⟨task, fuel, time, .lseek fd offset .end⟩ ↔
            u32 ((enter s ⟨task, fuel, time, .lseek fd offset .end⟩).size i + offset.toInt) < 2 ^ 31 := by
          refine ⟨fun hf => hf k i ho, fun hlt k' i' ho' => ?_⟩
          rw [← (ho.unique ho').2]
          exact hlt
        have hlt : int32 ((enter s ⟨task, fuel, time, .lseek fd offset .end⟩).size i +
            offset.toInt) < 2 ^ 31 := by
          rw [int32]
          omega
        refine ⟨?_, fun hpos => ?_⟩
        · rw [hall fun _ hx => hx.1, hend, int32_nonneg, hfits]
        · refine (hall fun _ hx => hx).mpr ⟨hpos k, ?_⟩
          rw [hend]
          exact hlt
      · have ht : OffsetsSound t := (hall fun _ hx => hx).mpr hsound
        refine ⟨⟨fun _ => ?_, fun _ j => (ht j).1⟩, fun _ => ht⟩
        cases whence with
        | «end» => exact absurd rfl hwhence
        | set | cur | other => trivial
  | read fd count =>
      obtain ⟨k, i, ho⟩ := henabled
      obtain ⟨r, hrun⟩ := perform_bind hexec
      have ht : OffsetsSound t := (sysRead_sound hs ho).of_ok rfl hrun
      exact ⟨⟨fun _ => trivial, fun _ k => (ht k).1⟩, fun _ => ht⟩
  | write fd buf count =>
      obtain ⟨k, i, ho⟩ := henabled
      obtain ⟨r, hrun⟩ := perform_bind hexec
      have ht : OffsetsSound t := (sysWrite_sound hs ho).of_ok rfl hrun
      exact ⟨⟨fun _ => trivial, fun _ k => (ht k).1⟩, fun _ => ht⟩

/-- In a run whose sums fit no offset is negative, every copy is inside its block, and a
    further step keeps this exactly if its sum fits. -/
theorem offsets_never_negative (h : Reach (system specialRead specialWrite) Fits s) :
    (∀ k, 0 ≤ (s.file_table k).offset) ∧
    (∀ e, Enabled s e → Copies e →
      exec specialRead specialWrite s e ≠ .error (.stopped .outOfBounds)) ∧
    ∀ e t, (system specialRead specialWrite).step s e t →
      ((∀ k, 0 ≤ (t.file_table k).offset) ↔ Fits s e) := by
  have hinit : ∀ s, (system specialRead specialWrite).init s → OffsetsSound s := fun _ hs => hs
  have hsound : OffsetsSound s := h.invariant hinit fun s e t hs hfits hstep =>
    (step_sound hs hstep).2 ((step_sound hs hstep).1.mpr hfits)
  refine ⟨fun k => (hsound k).1, fun e henabled hcopies => ?_, fun e t hstep =>
    (step_sound hsound hstep).1⟩
  have hs : OffsetsSound (enter s e) := hsound
  obtain ⟨task, fuel, time, call⟩ := e
  intro hexec
  have herror : perform specialRead specialWrite call fuel (enter s ⟨task, fuel, time, call⟩) =
      .error (.stopped .outOfBounds) := by
    rw [exec] at hexec
    cases hrun : perform specialRead specialWrite call fuel (enter s ⟨task, fuel, time, call⟩) with
    | error e =>
        rw [hrun] at hexec
        rw [Except.error.inj hexec]
    | ok r =>
        rw [hrun] at hexec
        cases hexec
  cases call with
  | «open» _ _ _ => exact hcopies
  | lseek _ _ _ => exact hcopies
  | read fd count =>
      obtain ⟨k, i, ho⟩ := henabled
      have hends : From stray (enter s ⟨task, fuel, time, .read fd count⟩)
          (perform specialRead specialWrite (.read fd count)) fun _ _ => True :=
        From.bind (sysRead_sound hs ho) fun _ _ _ => From.pure trivial
      exact (hends fuel _ rfl).not_bad rfl herror
  | write fd buf count =>
      obtain ⟨k, i, ho⟩ := henabled
      have hends : From stray (enter s ⟨task, fuel, time, .write fd buf count⟩)
          (perform specialRead specialWrite (.write fd buf count)) fun _ _ => True :=
        From.bind (sysWrite_sound hs ho) fun _ _ _ => From.pure trivial
      exact (hends fuel _ rfl).not_bad rfl herror

/-! ## One byte in front of a file -/

/-- A mounted volume with an empty regular file whose first zone is block 6, open for
    reading and writing as descriptor 3 of task 1. -/
def emptyFile : Kernel where
  inode_table := fun i =>
    if i = 1 then { desc := ⟨1, 4, 0⟩, dev := 1, nr := 1, count := 1, mount := 0, pipe := false }
    else { desc := ⟨0, 0, 0⟩, dev := EOF, nr := 0, count := 0, mount := 0, pipe := false }
  super_table := fun _ =>
    { desc := { NeonixAllocators.oneMapDesc with zones := 100, zones_le := by decide },
      dev := 1, count := 1, inode_list := [1], iroot := none, imount := none }
  root := 0
  file_table := fun k =>
    if k = 3 then { inode := some 1, count := 1, offset := 0, flags := O_RDWR, mode := 0o100644 }
    else { inode := none, count := 0, offset := 0, flags := 0, mode := 0 }
  task_table := fun _ => some
    { uid := 0, gid := 0, umask := 0, ipwd := 0, iroot := 0, iexec := none,
      files := fun fd => if fd = 3 then some 3 else none, died := false }
  current := 1
  disk := fun _ b k => if b = 4 ∧ k = 1 then 0x81 else if b = 4 ∧ k = 14 then 6 else 0
  time := 0

theorem emptyFile_opens : Opens emptyFile 3 3 1 where
  fd_nonneg := by decide
  fd_lt := by decide
  file := ⟨_, rfl, rfl⟩
  inode := rfl
  pipe := rfl
  regular := by decide

theorem emptyFile_sound : OffsetsSound emptyFile := by
  intro k
  have hzero : (emptyFile.file_table k).offset = 0 := by
    rw [emptyFile]
    dsimp only
    split <;> rfl
  rw [hzero]
  exact ⟨by decide, by decide⟩

/-- `lseek(fd, -1, SEEK_END)` on an empty file passes its assertion and leaves the offset
    at -1; a byte written there is copied to the address in front of the block buffer. -/
theorem seek_before_start :
    ∃ s, Reach (system (fun _ _ => halt .panic) fun _ _ _ => halt .panic) free s ∧
      (s.file_table 3).offset = -1 ∧ ∃ e, Enabled s e ∧ Copies e ∧
        exec (fun _ _ => halt .panic) (fun _ _ _ => halt .panic) s e =
          .error (.stopped .outOfBounds) := by
  have hseek : (system (fun _ _ => halt .panic) fun _ _ _ => halt .panic).step emptyFile
      ⟨1, 0, 0, .lseek 3 (-1) .end⟩ (emptyFile.setFile 3 fun f => { f with offset := -1 }) :=
    ⟨⟨3, 1, emptyFile_opens⟩, rfl⟩
  refine ⟨_, (Reach.start emptyFile_sound).step trivial hseek, rfl,
    ⟨1, 0, 0, .write 3 (fun _ => 0) 1⟩,
    ⟨3, 1, ?_⟩, trivial, rfl⟩
  exact ⟨by decide, by decide, ⟨_, rfl, rfl⟩, rfl, rfl, by decide⟩

theorem offsets_never_negative_start :
    (∀ k, 0 ≤ (emptyFile.file_table k).offset) ∧
    (∀ e, Enabled emptyFile e → Copies e → exec (fun _ _ => halt .panic)
      (fun _ _ _ => halt .panic) emptyFile e ≠ .error (.stopped .outOfBounds)) ∧
    ∀ e t, (system (fun _ _ => halt .panic) fun _ _ _ => halt .panic).step emptyFile e t →
      ((∀ k, 0 ≤ (t.file_table k).offset) ↔ Fits emptyFile e) :=
  offsets_never_negative (Reach.start emptyFile_sound)

end NeonixFileOffsets
