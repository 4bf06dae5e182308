import Mathlib.Algebra.Group.Pi.Basic
import Neonix.Frames
import Neonix.Files
import Neonix.Tally

/-! # Reference counts of descriptors and in-memory inodes

    `inodeRefs s i` counts the pointers to an in-memory inode the tables hold,
    `fileRefs s k` the descriptors of live tasks that point to an open file.
    Inside a call the counts differ from that by what the call itself holds: a
    `Ledger H G s` has the references `H` to inodes and `G` to files on top.  `H`
    may be negative where a pointer outlives the reference behind it. -/

namespace NeonixInodeRefs

open NeonixMachine NeonixOutcome NeonixByteBits NeonixVolume NeonixCalls NeonixFileSystem
  NeonixNamei NeonixFiles NeonixFrames NeonixTally NeonixRuns

/-- One if the pointer is `p`. -/
def points {α : Type} [DecidableEq α] (q : Option α) (p : α) : Nat := if q = some p then 1 else 0

/-- The pointers of an open file. -/
def fileHolds (file : File) (i : Nat) : Nat := if file.count = 0 then 0 else points file.inode i

/-- The inode pointers of a live task. -/
def taskHolds (task : Option Task) (i : Nat) : Nat :=
  match task with
  | none => 0
  | some task =>
      if task.died then 0
      else points (some task.ipwd) i + points (some task.iroot) i + points task.iexec i

/-- The inode pointers of a super block in use. -/
def superHolds (sb : SuperBlock) (i : Nat) : Nat :=
  if sb.dev = EOF then 0 else points sb.iroot i + points sb.imount i

/-- The descriptors of a task that point to a file. -/
def slots (files : Nat → Option Nat) (k : Nat) : Nat :=
  ∑ fd ∈ Finset.range TASK_FILE_NR, points (files fd) k

/-- The descriptors of a live task. -/
def taskSlots (task : Option Task) (k : Nat) : Nat :=
  match task with
  | none => 0
  | some task => if task.died then 0 else slots task.files k

/-- The pointers to an in-memory inode. -/
def inodeRefs (s : Kernel) (i : Nat) : Nat :=
  (∑ k ∈ Finset.range FILE_NR, fileHolds (s.file_table k) i) +
    (∑ t ∈ Finset.range TASK_NR, taskHolds (s.task_table t) i) +
    ∑ k ∈ Finset.range SUPER_NR, superHolds (s.super_table k) i

/-- The descriptors that point to a file. -/
def fileRefs (s : Kernel) (k : Nat) : Nat :=
  ∑ t ∈ Finset.range TASK_NR, taskSlots (s.task_table t) k

/-- The file system the inode is in is mounted at the inode itself. -/
def ImountOf (s : Kernel) (m : Nat) : Prop :=
  ∀ k, getSuper s (s.inode_table m).dev = some k → (s.super_table k).imount = some m

/-- The counts are exact but for the references `H` and `G` of a call; a free slot
    of the inode table has none; the list of a super block has inodes in use; only
    the root file system is mounted at the root of a file system, its own. -/
structure Ledger (H G : Nat → Int) (s : Kernel) : Prop where
  inodes : ∀ i, ((s.inode_table i).count : Int) = inodeRefs s i + H i
  files : ∀ k, ((s.file_table k).count : Int) = fileRefs s k + G k
  free : ∀ i, (s.inode_table i).dev = EOF →
    (s.inode_table i).count = 0 ∧ (s.inode_table i).pipe = false
  listed : ∀ k < SUPER_NR, ∀ i ∈ (s.super_table k).inode_list,
    (s.inode_table i).dev ≠ EOF ∧ (s.inode_table i).pipe = false
  nodup : ∀ k < SUPER_NR, (s.super_table k).inode_list.Nodup
  mounts : ∀ i, (s.inode_table i).mount ≠ EOF
  fileEnd : ∀ k, FILE_NR ≤ k → (s.file_table k).count = 0
  taskEnd : ∀ t, TASK_NR ≤ t → s.task_table t = none
  top : ∀ k < SUPER_NR, (s.super_table k).dev ≠ EOF → ∀ m, (s.super_table k).imount = some m →
    (s.inode_table m).nr = 1 → (s.inode_table m).dev ≠ EOF → ImountOf s m

/-- One reference. -/
def one (i : Nat) : Nat → Int := fun j => if j = i then 1 else 0

/-- The references of a list of pointers. -/
def held (L : List Nat) : Nat → Int := fun i => (L.count i : Int)

theorem held_cons (i : Nat) (L : List Nat) : held (i :: L) = held L + one i := by
  funext j
  show ((i :: L).count j : Int) = (L.count j : Int) + if j = i then 1 else 0
  rw [List.count_cons]
  by_cases h : j = i
  · subst h
    simp
  · simp [h, Ne.symm h]

theorem held_nil : held [] = 0 := by
  funext j
  rfl

theorem held_one (i : Nat) : held [i] = one i := by
  rw [held_cons, held_nil, zero_add]

theorem points_none {α : Type} [DecidableEq α] (p : α) : points none p = 0 := if_neg nofun

theorem points_some (i j : Nat) : ((points (some i) j : Nat) : Int) = one i j := by
  by_cases h : j = i
  · subst h
    rw [points, one, if_pos rfl, if_pos rfl]
    rfl
  · rw [points, one, if_neg (fun heq => h (Option.some.inj heq).symm), if_neg h]
    rfl

theorem held_nonneg (L : List Nat) (i : Nat) : 0 ≤ held L i := Int.natCast_nonneg _

variable {H G : Nat → Int} {s : Kernel} {L : List Nat} {i k : Nat}

/-- The ledger does not depend on the contents of the blocks. -/
theorem ledger_diskFree : DiskFree (Ledger H G) := fun _ _ h =>
  ⟨h.inodes, h.files, h.free, h.listed, h.nodup, h.mounts, h.fileEnd, h.taskEnd, h.top⟩

/-- A pointer a call holds points to an inode in use. -/
theorem Ledger.used (h : Ledger H G s) (hi : 0 < (s.inode_table i).count) :
    (s.inode_table i).dev ≠ EOF := by
  intro hdev
  rw [(h.free i hdev).1] at hi
  exact Nat.lt_irrefl 0 hi

theorem Ledger.count_pos (h : Ledger H G s) (hi : 0 < inodeRefs s i + H i) :
    0 < (s.inode_table i).count := by
  rw [← h.inodes i] at hi
  exact_mod_cast hi

theorem superHolds_le (hk : k < SUPER_NR) : superHolds (s.super_table k) i ≤ inodeRefs s i := by
  have hterm := term_le (f := fun k => superHolds (s.super_table k) i) (Finset.mem_range.mpr hk)
  exact hterm.trans (Nat.le_add_left _ _)

/-- A super block in use points to where it is mounted. -/
theorem imount_refs (hk : k < SUPER_NR) (hdev : (s.super_table k).dev ≠ EOF)
    (hm : (s.super_table k).imount = some i) : inodeRefs s i ≠ 0 := by
  have hle := superHolds_le (s := s) (i := i) hk
  rw [superHolds, if_neg hdev, hm, points, points, if_pos rfl] at hle
  omega

/-- A super block in use points to its root directory. -/
theorem iroot_refs (hk : k < SUPER_NR) (hdev : (s.super_table k).dev ≠ EOF)
    (hm : (s.super_table k).iroot = some i) : inodeRefs s i ≠ 0 := by
  have hle := superHolds_le (s := s) (i := i) hk
  rw [superHolds, if_neg hdev, hm, points, points, if_pos rfl] at hle
  omega

/-! ## Stores to the inode table -/

/-- The inode is on the list of a super block. -/
def Listed (s : Kernel) (i : Nat) : Prop := ∃ k < SUPER_NR, i ∈ (s.super_table k).inode_list

/-- One in-memory inode is stored to. -/
theorem Ledger.setInode {H' : Nat → Int} {f : Inode → Inode} (h : Ledger H G s)
    (hH : ∀ j, H' j = H j +
      if j = i then ((f (s.inode_table i)).count : Int) - (s.inode_table i).count else 0)
    (hfree : (f (s.inode_table i)).dev = EOF →
      (f (s.inode_table i)).count = 0 ∧ (f (s.inode_table i)).pipe = false)
    (hlisted : Listed s i →
      (f (s.inode_table i)).dev ≠ EOF ∧ (f (s.inode_table i)).pipe = false)
    (hmount : (f (s.inode_table i)).mount ≠ EOF)
    (htop : (f (s.inode_table i)).nr = 1 → (f (s.inode_table i)).dev ≠ EOF →
      ((f (s.inode_table i)).nr = (s.inode_table i).nr ∧
        (f (s.inode_table i)).dev = (s.inode_table i).dev) ∨ inodeRefs s i = 0) :
    Ledger H' G (s.setInode i f) := by
  have hself : (s.setInode i f).inode_table i = f (s.inode_table i) := Function.update_self ..
  have hother : ∀ {j}, j ≠ i → (s.setInode i f).inode_table j = s.inode_table j :=
    fun hj => Function.update_of_ne hj ..
  constructor
  · intro j
    show _ = (inodeRefs s j : Int) + H' j
    rw [hH]
    have hj := h.inodes j
    by_cases hji : j = i
    · subst hji
      rw [hself, if_pos rfl]
      omega
    · rw [hother hji, if_neg hji]
      omega
  · exact h.files
  · intro j hj
    by_cases hji : j = i
    · subst hji
      rw [hself] at hj ⊢
      exact hfree hj
    · rw [hother hji] at hj ⊢
      exact h.free j hj
  · intro k hk j hj
    by_cases hji : j = i
    · subst hji
      rw [hself]
      exact hlisted ⟨k, hk, hj⟩
    · rw [hother hji]
      exact h.listed k hk j hj
  · exact h.nodup
  · intro j
    by_cases hji : j = i
    · subst hji
      rw [hself]
      exact hmount
    · rw [hother hji]
      exact h.mounts j
  · exact h.fileEnd
  · exact h.taskEnd
  · intro k hk hdev m hm hnr hin
    by_cases hmi : m = i
    · subst hmi
      rw [hself] at hnr hin
      rcases htop hnr hin with ⟨hnr', hdev'⟩ | hno
      · rw [hnr'] at hnr
        rw [hdev'] at hin
        intro k' hk'
        rw [hself, hdev'] at hk'
        exact h.top k hk hdev m hm hnr hin k' hk'
      · exact absurd hno (imount_refs hk hdev hm)
    · rw [hother hmi] at hnr hin
      intro k' hk'
      rw [hother hmi] at hk'
      exact h.top k hk hdev m hm hnr hin k' hk'

theorem Ledger.listedInUse (h : Ledger H G s) (hi : Listed s i) :
    (s.inode_table i).dev ≠ EOF ∧ (s.inode_table i).pipe = false := by
  obtain ⟨k, hk, hi⟩ := hi
  exact h.listed k hk i hi

/-- `count++`. -/
theorem Ledger.hold (h : Ledger H G s) (hi : (s.inode_table i).dev ≠ EOF) :
    Ledger (H + one i) G (s.hold i) := by
  refine h.setInode ?_ (fun hdev => absurd hdev hi) h.listedInUse (h.mounts i)
    fun _ _ => Or.inl ⟨rfl, rfl⟩
  intro j
  show H j + one i j = H j + _
  rw [one]
  split_ifs
  · push_cast
    omega
  · rfl

/-- `count--`. -/
theorem Ledger.drop (h : Ledger H G s) (hi : 0 < (s.inode_table i).count) :
    Ledger (H - one i) G
      (s.setInode i fun inode => { inode with count := decr inode.count }) := by
  refine h.setInode ?_ (fun hdev => absurd hdev (h.used hi)) h.listedInUse (h.mounts i)
    fun _ _ => Or.inl ⟨rfl, rfl⟩
  intro j
  show H j - one i j = H j + if j = i then ((decr (s.inode_table i).count : Nat) : Int) - _ else 0
  rw [one, decr, if_neg (Nat.pos_iff_ne_zero.mp hi)]
  split_ifs
  · omega
  · rfl

/-- A store that leaves the count alone. -/
theorem Ledger.keepCount {f : Inode → Inode} (h : Ledger H G s)
    (hcount : (f (s.inode_table i)).count = (s.inode_table i).count)
    (hfree : (f (s.inode_table i)).dev = EOF →
      (f (s.inode_table i)).count = 0 ∧ (f (s.inode_table i)).pipe = false)
    (hlisted : Listed s i →
      (f (s.inode_table i)).dev ≠ EOF ∧ (f (s.inode_table i)).pipe = false)
    (hmount : (f (s.inode_table i)).mount ≠ EOF)
    (htop : (f (s.inode_table i)).nr = 1 → (f (s.inode_table i)).dev ≠ EOF →
      (f (s.inode_table i)).nr = (s.inode_table i).nr ∧
        (f (s.inode_table i)).dev = (s.inode_table i).dev) : Ledger H G (s.setInode i f) := by
  refine h.setInode ?_ hfree hlisted hmount fun hnr hdev => Or.inl (htop hnr hdev)
  intro j
  rw [hcount]
  split_ifs
  · omega
  · omega

/-! ## `iput` -/

/-- An inode that is on no list and is no pipe. -/
def Loose (s : Kernel) (i : Nat) : Prop := ¬ Listed s i ∧ (s.inode_table i).pipe = false

theorem putFreeInode_ledger :
    Triple never (fun s => Ledger H G s ∧ Loose s i) (putFreeInode i) fun _ s => Ledger H G s := by
  refine Triple.intro fun s ⟨h, hl, hp⟩ => ?_
  refine from_assert fun h0 => From.get (from_assert fun hcount => From.store ?_)
  exact h.keepCount (f := fun inode => { inode with dev := EOF }) rfl (fun _ => ⟨hcount, hp⟩)
    (fun hi => absurd hi hl) (h.mounts i) fun _ hdev => absurd rfl hdev

theorem listRemove_ledger :
    Triple never (fun s => Ledger H G s ∧ (s.inode_table i).pipe = false) (listRemove i)
      fun _ s => Ledger H G s ∧ Loose s i := by
  refine Triple.intro fun s ⟨h, hp⟩ => ?_
  refine From.get (from_assert fun _ => ?_)
  rintro n _ rfl
  refine ⟨⟨h.inodes, h.files, h.free, ?_, ?_, h.mounts, h.fileEnd, h.taskEnd, h.top⟩, ?_, hp⟩
  · intro k hk j hj
    exact h.listed k hk j (List.mem_of_mem_erase hj)
  · intro k hk
    exact (h.nodup k hk).erase i
  · rintro ⟨k, hk, hi⟩
    exact (h.nodup k hk).not_mem_erase hi

/-- `put_pipe_inode` of an inode with a reference. -/
theorem putPipeInode_ledger :
    Triple never
      (fun s => Ledger H G s ∧ 0 < (s.inode_table i).count ∧ (s.inode_table i).pipe = true)
      (putPipeInode i) fun _ s => Ledger (H - one i) G s := by
  refine Triple.intro fun s ⟨h, hpos, hpipe⟩ => ?_
  have hl : ¬ Listed s i := by
    intro hi
    have hnot := (h.listedInUse hi).2
    rw [hpipe] at hnot
    cases hnot
  have hd := h.drop hpos
  refine From.set (From.get (From.ite (fun _ => From.pure hd) fun _ => ?_))
  refine From.set (putFreeInode_ledger.start ⟨?_, hl, ?_⟩)
  · exact hd.keepCount (f := fun inode => { inode with pipe := false }) rfl
      (fun hdev => ⟨(hd.free i hdev).1, rfl⟩) (fun hi => absurd hi hl) (hd.mounts i)
      fun _ _ => ⟨rfl, rfl⟩
  · simp only [Kernel.setInode, Function.update_self]

/-- `iput` of an inode with a reference. -/
theorem iput_ledger :
    Triple never (fun s => Ledger H G s ∧ 0 < (s.inode_table i).count) (iput (some i))
      fun _ s => Ledger (H - one i) G s := by
  refine Triple.intro fun s ⟨h, hpos⟩ => ?_
  refine From.get (From.ite (fun hpipe => ?_) fun hpipe => ?_)
  · exact putPipeInode_ledger.start ⟨h, hpos, hpipe⟩
  · have hd := h.drop hpos
    refine From.set (From.get (From.ite (fun _ => From.pure hd) fun _ => ?_))
    refine From.bind (listRemove_ledger.start ⟨hd, ?_⟩) fun _ t ht => putFreeInode_ledger.start ht
    simp only [Kernel.setInode, Function.update_self]
    exact Bool.eq_false_iff.mpr hpipe

/-! ## The references of a call as a list -/

/-- A pointer of the list points to an inode in use. -/
theorem Ledger.held_pos (h : Ledger (held (i :: L)) G s) : 0 < (s.inode_table i).count := by
  refine h.count_pos ?_
  have hpos := held_nonneg L i
  rw [held_cons]
  show 0 < (inodeRefs s i : Int) + (held L i + if i = i then 1 else 0)
  rw [if_pos rfl]
  omega

/-- `iput` of a pointer of the list. -/
theorem iput_held :
    Triple never (Ledger (held (i :: L)) G) (iput (some i)) fun _ => Ledger (held L) G := by
  refine iput_ledger.conseq (fun s h => ⟨h, h.held_pos⟩) fun _ s h => ?_
  rw [held_cons, add_sub_cancel_right] at h
  exact h

theorem held_perm {L L' : List Nat} (hp : L.Perm L') : held L = held L' :=
  funext fun i => congrArg Nat.cast (hp.count_eq i)

/-- The tables are exact but for one reference for each pointer of the list. -/
def Holds (L : List Nat) : Kernel → Prop := Ledger (held L) 0

theorem holds_diskFree : DiskFree (Holds L) := ledger_diskFree

theorem Holds.perm {L' : List Nat} (h : Holds L s) (hp : L.Perm L') : Holds L' s := by
  rw [Holds, ← held_perm hp]
  exact h

theorem Holds.swap {j : Nat} (h : Holds (i :: j :: L) s) : Holds (j :: i :: L) s :=
  h.perm (.swap j i L)

/-- A pointer of a table points to an inode in use. -/
theorem Holds.refs (h : Holds L s) (hi : inodeRefs s i ≠ 0) : (s.inode_table i).dev ≠ EOF := by
  refine Ledger.used h (Ledger.count_pos h ?_)
  have hpos := held_nonneg L i
  omega

theorem Holds.count_pos (h : Holds (i :: L) s) : 0 < (s.inode_table i).count := Ledger.held_pos h

/-- A pointer the call holds points to an inode in use. -/
theorem Holds.dev (h : Holds (i :: L) s) : (s.inode_table i).dev ≠ EOF :=
  Ledger.used h h.count_pos

theorem Holds.hold (h : Holds L s) (hi : (s.inode_table i).dev ≠ EOF) :
    Holds (i :: L) (s.hold i) := by
  rw [Holds, held_cons]
  exact Ledger.hold h hi

theorem iput_holds : Triple never (Holds (i :: L)) (iput (some i)) fun _ => Holds L := iput_held

theorem rollback_holds : Triple never (Holds L) (rollback L) fun _ => Holds [] := by
  induction L with
  | nil => exact fun _ _ h => h
  | cons i L ih => exact Triple.bind iput_holds fun _ => ih

theorem fitInode_holds :
    Triple never (Holds (i :: L)) (fitInode i) fun r => Holds (r :: L) := by
  refine Triple.intro fun s h => From.get (From.ite (fun _ => From.pure h) fun _ => ?_)
  refine From.bind theSuper_spec ?_
  rintro k s ⟨rfl, hk⟩
  obtain ⟨hk, hdev⟩ := getSuper_some hk
  have hfixed : Fixed fun t => (t.super_table k).dev = (s.inode_table i).mount := by
    intro t u _ _ _ _ hsuper ht
    rw [(hsuper k).1]
    exact ht
  refine From.bind ((iput_holds.and (keeps_iput hfixed)).start ⟨h, hdev⟩) ?_
  rintro _ t ⟨ht, hdev'⟩
  refine From.get (from_deref fun r hr => From.set (From.pure (ht.hold (ht.refs ?_))))
  refine iroot_refs hk ?_ hr
  rw [hdev']
  exact Ledger.mounts h i

/-- The mounts of two states are the same. -/
def SameMounts (s t : Kernel) : Prop :=
  ∀ k, (t.super_table k).dev = (s.super_table k).dev ∧
    (t.super_table k).iroot = (s.super_table k).iroot ∧
    (t.super_table k).imount = (s.super_table k).imount

theorem SameMounts.getSuper {t : Kernel} (h : SameMounts s t) (dev : Dev) :
    getSuper t dev = getSuper s dev := by
  rw [NeonixFileSystem.getSuper, NeonixFileSystem.getSuper]
  congr 1
  funext k
  rw [(h k).1]

theorem SameMounts.inodeRefs {t : Kernel} (h : SameMounts s t)
    (hfile : t.file_table = s.file_table) (htask : t.task_table = s.task_table) (i : Nat) :
    inodeRefs t i = inodeRefs s i := by
  have hsuper : ∑ k ∈ Finset.range SUPER_NR, superHolds (t.super_table k) i =
      ∑ k ∈ Finset.range SUPER_NR, superHolds (s.super_table k) i := by
    refine Finset.sum_congr rfl fun k _ => ?_
    obtain ⟨hdev, hroot, hmount⟩ := h k
    rw [superHolds, superHolds, hdev, hroot, hmount]
  rw [NeonixInodeRefs.inodeRefs, NeonixInodeRefs.inodeRefs, hfile, htask, hsuper]

/-- `list_push` of an inode in use that is on no list. -/
theorem Ledger.push (h : Ledger H G s)
    (hi : (s.inode_table i).dev ≠ EOF ∧ (s.inode_table i).pipe = false)
    (hnot : i ∉ (s.super_table k).inode_list) :
    Ledger H G (s.setSuper k fun sb => { sb with inode_list := i :: sb.inode_list }) := by
  have hlist : ∀ j, ((s.setSuper k fun sb => { sb with inode_list := i :: sb.inode_list
      }).super_table j).inode_list =
      if j = k then i :: (s.super_table k).inode_list else (s.super_table j).inode_list := by
    intro j
    by_cases hj : j = k
    · subst hj
      simp only [Kernel.setSuper, Function.update_self, if_pos]
    · simp only [Kernel.setSuper, Function.update_of_ne hj, if_neg hj]
  have hsame : SameMounts s
      (s.setSuper k fun sb => { sb with inode_list := i :: sb.inode_list }) := by
    intro j
    by_cases hj : j = k
    · subst hj
      simp only [Kernel.setSuper, Function.update_self, and_self]
    · simp only [Kernel.setSuper, Function.update_of_ne hj, and_self]
  constructor
  · intro j
    rw [hsame.inodeRefs rfl rfl]
    exact h.inodes j
  · exact h.files
  · exact h.free
  · intro j hj x hx
    rw [hlist] at hx
    split_ifs at hx with hjk
    · rcases List.mem_cons.mp hx with rfl | hx
      · exact hi
      · exact h.listed k (hjk ▸ hj) x hx
    · exact h.listed j hj x hx
  · intro j hj
    rw [hlist]
    split_ifs with hjk
    · exact List.nodup_cons.mpr ⟨hnot, h.nodup k (hjk ▸ hj)⟩
    · exact h.nodup j hj
  · exact h.mounts
  · exact h.fileEnd
  · exact h.taskEnd
  · intro j hj hdev m hm hnr hin k' hk'
    rw [hsame.getSuper] at hk'
    rw [(hsame j).1] at hdev
    rw [(hsame j).2.2] at hm
    rw [(hsame k').2.2]
    exact h.top j hj hdev m hm hnr hin k' hk'

/-- `iget` of a number on a device. -/
theorem iget_holds {dev : Dev} {nr : Nat} (hdev : dev ≠ EOF) :
    Triple never (Holds L) (iget dev nr) fun r => Holds (r :: L) := by
  refine Triple.intro fun s h => From.bind findInode_spec ?_
  rintro found s ⟨rfl, k, hk, rfl⟩
  cases hfind : (s.super_table k).inode_list.find? fun i => (s.inode_table i).nr = nr with
  | some i =>
      have hi : Listed s i :=
        ⟨k, (getSuper_some hk).1, List.mem_of_find?_eq_some hfind⟩
      exact From.set (fitInode_holds.start (h.hold (Ledger.listedInUse h hi).1))
  | none =>
      refine From.bind theSuper_spec ?_
      rintro k' s ⟨rfl, hk'⟩
      refine From.get (from_assert fun _ => From.bind getFreeInode_spec ?_)
      rintro i s ⟨rfl, -, hfree⟩
      have hnot : ¬ Listed s i := fun hl => (Ledger.listedInUse h hl).1 hfree
      obtain ⟨hcount, hpipe⟩ := Ledger.free h i hfree
      have hrefs : inodeRefs s i = 0 := by
        have hi := Ledger.inodes h i
        have hpos := held_nonneg L i
        omega
      have hone : Holds (i :: L) (s.setInode i fun inode =>
          { inode with dev := dev, nr := nr, count := inode.count + 1 }) := by
        rw [Holds, held_cons]
        refine Ledger.setInode h ?_ (fun heq => absurd heq hdev) (fun hl => absurd hl hnot)
          (Ledger.mounts h i) fun _ _ => Or.inr hrefs
        intro j
        show held L j + one i j = held L j + _
        rw [one]
        split_ifs
        · push_cast
          omega
        · rfl
      refine From.set (From.get (from_assert fun hin => From.set (From.set (From.pure ?_))))
      have hinode : ((s.setInode i fun inode =>
          { inode with dev := dev, nr := nr, count := inode.count + 1 }).inode_table i).dev = dev ∧
          ((s.setInode i fun inode =>
          { inode with dev := dev, nr := nr, count := inode.count + 1 }).inode_table i).pipe =
            false := by
        simp only [Kernel.setInode, Function.update_self]
        exact ⟨trivial, hpipe⟩
      have hpush := Ledger.push hone (k := k') ⟨by rw [hinode.1]; exact hdev, hinode.2⟩ hin
      exact hpush.keepCount rfl (hpush.free i) hpush.listedInUse (hpush.mounts i)
        fun _ _ => ⟨rfl, rfl⟩

end NeonixInodeRefs
