import Neonix.Creations

/-! # What the creating calls do to a directory

    Each call follows the path to the directory, finds no entry of that name there
    and puts one in; what it does after that are the stores of `Tail`.  A call that
    fails is not looked at. -/

namespace NeonixCreationCalls

open NeonixMachine NeonixOutcome NeonixByteBits NeonixWords NeonixVolume NeonixAllocators NeonixCalls
  NeonixFileSystem NeonixNamei NeonixFiles NeonixFrames NeonixInodeRefs NeonixPathRefs
  NeonixComponents NeonixDirectories NeonixResolver NeonixReferenceCounts NeonixWalks
  NeonixPathResolution NeonixDescriptorRefs NeonixBlockTrees NeonixNewEntries NeonixCreatedNames NeonixBlindCalls
  NeonixNewInodes NeonixCreations

variable {s t u v w : Kernel} {sb : SuperDesc} {m n : Node} {d p : Place} {name path : Str}
  {dir i nr : Nat} {L : List Nat} {task : Task}

/-! ## To the directory -/

/-- `named` of a path that leads to a directory. -/
theorem named_from (hs : Tree s) (ha : Alive s) (ht : s.task_table s.current = some task)
    (hpath : resolveParent s task path = some (m, name)) (h : Walk s L t) :
    From never t (named path) fun r u => ∃ j, r = (some j, name) ∧ slotNode u j = m ∧ DirSlot u j ∧
      Walk s (j :: L) u := by
  rintro fuel t rfl
  have hnamed : Ends never (named path fuel t) fun r =>
      NamesBeside s L (resolveParent s task path) r.1 r.2 :=
    named_beside hs ha ht h (mayStop_never s L.length) Nat.le.refl (Or.inr not_false)
  rw [hpath] at hnamed
  exact hnamed

/-- `find_entry` of a name that is not in the directory. -/
theorem findEntry_absent (hfit : Fit s sb m d) (hplain : ¬ Split name)
    (habsent : lookup s d name = none) (h : Walk s (i :: L) t) (hm : slotNode t i = m)
    {next : Str} :
    From never t (findEntry i name next) fun r u => u = t ∧ r.1 = none ∧ r.2.1 = i := by
  have hdisk : t.disk = s.disk := by rw [h.frame]
  have hfirst := (first_of_not_split hplain).1
  have hdesc : t.desc i = d := by
    have hi := (over_of_walk h).desc (i := i) List.mem_cons_self
    rw [hm, hfit.desc] at hi
    exact (Option.some.inj hi).symm
  have hdd : first name ≠ dotdot := by
    rw [hfirst]
    rintro rfl
    exact hfit.parent habsent
  refine (findEntry_plain hdesc ?_ (directoryOk_disk hdisk hfit.directory.entries) ?_
    fun h => hdd h.1).post ?_
  · rw [hfit.device]
    exact congrArg Node.dev hm
  · rw [h.bytes]
    exact hfit.directory.isDir
  · rintro ⟨entry, j, next'⟩ u ⟨rfl, hj, hfound⟩
    rw [hfirst, (lookup_disk hdisk).1, habsent] at hfound
    exact ⟨rfl, hfound, hj⟩

theorem permission_from {inode : Nat} {mask : BitVec 16} :
    From never t (permission inode mask) fun _ u => u = t :=
  (keeps_permission (P := fun u => u = t)).start rfl

theorem runningTask_from : From never t runningTask fun _ u => u = t :=
  (keeps_runningTask (P := fun u => u = t)).start rfl

/-- Whatever a call does. -/
theorem from_any {α : Type} (x : Fs α) : From never t x fun _ _ => True := by
  intro fuel u _
  cases x fuel u with
  | error e => exact not_false
  | ok r => exact trivial

/-- The name and the number of a free inode, then the rest. -/
theorem entry_then {β : Type} {f : Place → Fs β} {R : β → Kernel → Prop} (hfit : Fit s sb m d)
    (hname : ∀ c ∈ name, c ≠ 0) (hplain : ¬ Split name) (habsent : lookup s d name = none)
    (h : Walk s (dir :: L) u) (hm : slotNode u dir = m)
    (hf : ∀ p nr v, Stage s sb m d name dir L (EntryBytes sb d) p v → v.entryNr p = nr →
      InodeFree (vol s sb d.dev) nr → From never v (f p) R) :
    From never u (do
      let entry ← addEntry dir name
      let nr ← ialloc ((← get).inode_table dir).dev
      modify fun s => s.setEntryNr entry nr
      f entry) R := by
  refine From.bind (addEntry_stage hfit h hm hname hplain habsent) ?_
  rintro p v ⟨hv, -⟩
  refine From.get (From.bind (ialloc_stage hfit hv) ?_)
  rintro nr w ⟨hw, hfree⟩
  have hlt : nr < 2 ^ 16 := by
    have h1 : nr ≤ sb.inodes := hfree.1.2
    have h2 := sb.inodes_le
    omega
  obtain ⟨hnumbered, hnr⟩ := stage_numbered hfit hw (fun _ _ hb => Or.inl (Or.inr (Or.inr hb))) hlt
  exact From.set (hf p nr _ hnumbered hnr hfree)

/-- The new inode besides, then the rest. -/
theorem inode_then {β : Type} {f : Nat → Fs β} {R : β → Kernel → Prop} (hs : Tree s)
    (hfit : Fit s sb m d) (hu : Stage s sb m d name dir L (EntryBytes sb d) p u)
    (hnr : u.entryNr p = nr) (hfree : InodeFree (vol s sb d.dev) nr)
    (hf : ∀ i v d', Fresh s sb m d d' dir i L u v → From never v (f i) R) :
    From never u (do
      let s ← get
      let inode ← newInode (s.inode_table dir).dev (s.entryNr p)
      f inode) R := by
  refine From.get ?_
  rw [hnr]
  exact From.bind (newInode_fresh hs hfit hu hfree) fun i v hv => hf i v _ hv

/-- The two references are dropped. -/
theorem drop_over {α : Type} {a : α} {i j : Nat} (hs : Tree s) (h : Over s (i :: j :: L) v) :
    From never v (do
      iput (some i)
      iput (some j)
      return a : Fs α) fun _ w => w.disk = v.disk := by
  refine From.bind (iput_over hs h) ?_
  rintro _ w ⟨hdisk, hw, -⟩
  refine From.bind (iput_over hs hw) ?_
  rintro _ x ⟨hdiskx, -, -⟩
  exact From.pure (hdiskx.trans hdisk)

theorem tail_drop (h : Tail sb d u v) (hw : w.disk = v.disk) : Tail sb d u w :=
  h.trans (.of_disk hw)

/-- `makeup` after a creation. -/
theorem makeup_tail {d' : Place} {flag : BitVec 32} (hs : Tree s) (hd : DescPlace sb d)
    (h : Fresh s sb m d d' dir i L u v) :
    From never v (makeup dir i flag) fun _ w => Tail sb d u w := by
  have hfail : From never v (do
      iput (some dir)
      iput (some i)
      return none : Fs (Option Nat)) fun _ w => Tail sb d u w :=
    (drop_over hs (Walk.swap h.tables)).post fun _ w hdisk => tail_drop h.tail hdisk
  refine From.bind permission_from ?_
  rintro ok v rfl
  refine From.ite (fun _ => hfail) fun _ => From.get (From.ite (fun _ => hfail) fun _ => ?_)
  have hput : ∀ x, Fresh s sb m d d' dir i L u x → From never x (do
      iput (some dir)
      return some i : Fs (Option Nat)) fun _ w => Tail sb d u w := by
    intro x hx
    refine From.bind (iput_over hs (Walk.swap hx.tables)) ?_
    rintro _ w ⟨hdisk, -, -⟩
    exact From.pure (tail_drop hx.tail hdisk)
  refine From.onlyIf (fun _ => ?_) fun _ => hput _ h
  exact From.bind (h.truncate hd) fun _ x hx => hput x hx

/-- `inode_open` from the creation on, whatever it returns. -/
theorem openNew_made {flag mode : BitVec 32} (hs : Tree s) (hfit : Fit s sb m d)
    (hname : ∀ c ∈ name, c ≠ 0) (hplain : ¬ Split name) (habsent : lookup s d name = none)
    (h : Walk s (dir :: L) t) (hm : slotNode t dir = m) : From never t (do
      let entry ← addEntry dir name
      let nr ← ialloc ((← get).inode_table dir).dev
      modify fun s => s.setEntryNr entry nr
      let s ← get
      let inode ← newInode (s.inode_table dir).dev (s.entryNr entry)
      let task ← runningTask
      modify fun s => s.setMode inode
        ((mode &&& (0o777 &&& ~~~ task.umask.setWidth 32)).setWidth 16 ||| IFREG)
      makeup dir inode flag) fun _ w => Made s sb d name w := by
  have hd := hfit.directory.place
  refine entry_then hfit hname hplain habsent h hm fun p nr v hv hnr hfree => ?_
  refine inode_then hs hfit hv hnr hfree fun i x d' hx => ?_
  refine From.bind runningTask_from ?_
  rintro owner x rfl
  refine From.set ?_
  refine (makeup_tail hs hd (hx.head hd (within_setMode hx.desc _) (by omega))).post
    fun _ w htail => hv.made hfit ?_ htail
  rw [hnr]
  exact hfree.1

section Calls

variable (hs : Tree s) (ha : Alive s) (ht : s.task_table s.current = some task)
  (hpath : resolveParent s task path = some (m, name))
  (hfit : Fit s sb m d) (habsent : lookup s d name = none) (hne : name ≠ [])
  (hname : ∀ c ∈ name, c ≠ 0)
include hs ha ht hpath hfit habsent hne hname

end Calls

/-! ## Any of the calls -/

/-- A call that creates a name. -/
inductive Creation where
  | mkdir (pathname : Str) (mode : BitVec 32)
  | mknod (filename : Str) (mode dev : BitVec 32)
  | link (oldname newname : Str)
  | «open» (filename : Str) (flags mode : BitVec 32)

/-- The path that ends in the new name. -/
def Creation.target : Creation → Str
  | mkdir pathname _ => pathname
  | mknod filename _ _ => filename
  | link _ newname => newname
  | «open» filename _ _ => filename

def Creation.run : Creation → Fs Int
  | mkdir pathname mode => sysMkdir pathname mode
  | mknod filename mode dev => sysMknod filename mode dev
  | link oldname newname => sysLink oldname newname
  | «open» filename flags mode => sysOpen filename flags mode

def bootPlace : Place := inodeDesc bootDesc 1 1

theorem bootState_blocks {z : Nat} {js : List Nat} (hp : Position z js)
    (hne : blockAt bootState bootPlace z js ≠ 0) : z = 0 ∧ js = [] := by
  have hzones : ∀ z < 9, z ≠ 0 → bootState.index (bootPlace.add 14) z = 0 := by decide +kernel
  by_cases hz : z = 0
  · subst hz
    exact ⟨rfl, List.length_eq_zero_iff.mp (Nat.le_zero.mp hp.depth)⟩
  · refine absurd ?_ hne
    rw [blockAt]
    cases js with
    | nil =>
        rw [through, hzones z hp.zone hz]
        rfl
    | cons j js => rw [through, if_pos (hzones z hp.zone hz)]

theorem bootState_fit : Fit bootState bootDesc { dev := 1, nr := 1 } bootPlace where
  directory :=
    { place := descPlace_inode ⟨by decide, by decide⟩
      volume := ⟨0, by decide, rfl⟩
      reserved := fun _ => by decide +kernel
      tree :=
        { used := fun z js hp hne => by
            obtain ⟨rfl, rfl⟩ := bootState_blocks hp hne
            rw [show blockAt bootState bootPlace 0 [] = 5 by decide +kernel]
            refine ⟨⟨by decide, by decide⟩, ?_, by decide +kernel⟩
            show zoneIdx bootDesc 5 < BLOCK_BITS * bootDesc.zmap_blocks
            decide
          once := fun z js z' js' hp hp' hne heq => by
            obtain ⟨rfl, rfl⟩ := bootState_blocks hp hne
            obtain ⟨rfl, rfl⟩ := bootState_blocks hp' (heq ▸ hne)
            exact ⟨rfl, rfl⟩ }
      isDir := by decide +kernel
      whole := by decide +kernel
      entries := bootState_directories (by decide) (by decide +kernel)
      unique := fun m n hm hn _ _ heq => by
        have htwo : entriesOf bootState bootPlace = 2 := by decide +kernel
        have hall : ∀ m < 2, ∀ n < 2, nameOf bootState (entryPlace bootState bootPlace m) =
            nameOf bootState (entryPlace bootState bootPlace n) → m = n := by decide +kernel
        rw [htwo] at hm hn
        exact hall m hm n hn heq }
  desc := by decide +kernel
  self := by
    refine ⟨⟨by decide, by decide⟩, ?_, by decide +kernel⟩
    show 1 < BLOCK_BITS * bootDesc.imap_blocks
    decide
  zero := fun _ => by decide +kernel
  parent := by decide +kernel
  blank := fun n hfree k hk => by
    have hzero : ∀ n < 33, n ≠ 1 → n ≠ 0 → ∀ k < 18,
        bootState.bytes ((inodeDesc bootDesc 1 n).add 14) k = 0 := by decide +kernel
    refine hzero n (Nat.lt_succ_of_le hfree.1.2) ?_ (Nat.one_le_iff_ne_zero.mp hfree.1.1) k hk
    rintro rfl
    exact absurd (hfree.2.2.symm.trans (by decide +kernel)) Bool.false_ne_true
  mounts := fun i _ _ hfree => by
    have hone : inodeBit (vol bootState bootDesc bootPlace.dev) 1 = true := by decide +kernel
    exact absurd (hfree.2.2.symm.trans hone) Bool.false_ne_true
  spare := Or.inl (by decide)
  grows := fun _ => Or.inr fun k hk => absurd hk (by
    rw [show slotsOn (entriesOf bootState bootPlace / BLOCK_DENTRIES) = [] by decide +kernel]
    exact Nat.not_lt_zero k)

end NeonixCreationCalls
