import Neonix.ReferenceCounts
import Neonix.FileOffsets
import Neonix.Walks

/-! # In-memory inodes on their lists

    An in-memory inode that is in use is on the list of a super block, unless it is a
    pipe, and an open file has an inode.  All calls of tasks keep it so; with the exact
    reference counts it is what `put_file` needs to return. -/

namespace NeonixWiredTables

open NeonixMachine NeonixOutcome NeonixByteBits NeonixVolume NeonixCalls NeonixFileSystem NeonixNamei
  NeonixFiles NeonixFrames NeonixInodeRefs NeonixPathRefs NeonixDescriptorRefs NeonixReferenceCounts
  NeonixRuns NeonixFileOffsets NeonixResolver NeonixWalks

variable {s t : Kernel} {P Q : Kernel → Prop} {L : List Nat} {i j k : Nat}

/-- The descriptor of the inode is one of those of its file system. -/
def Placed (s : Kernel) (i : Nat) : Prop := ∀ k, getSuper s (s.inode_table i).dev = some k →
  ∃ nr, s.desc i = inodeDesc (s.super_table k).desc (s.inode_table i).dev nr

/-- The root file system is mounted, its root is slot 0, and no file system is on the
    device of pipes. -/
def Rooted (s : Kernel) : Prop := (s.super_table 0).dev ≠ EOF ∧ (s.super_table 0).iroot = some 0 ∧
  ∀ k, (s.super_table k).dev ≠ -2

/-- Inodes in use are on lists and have their descriptors. -/
structure Linked (s : Kernel) : Prop where
  listed : ∀ i, (s.inode_table i).dev ≠ EOF → (s.inode_table i).pipe = false → Listed s i
  placed : ∀ i, (s.inode_table i).dev ≠ EOF → Placed s i
  root : Listed s 0
  rooted : Rooted s

/-- The open files of a task, but for some, have inodes. -/
def FilesOf (L : List Nat) (task : Task) (s : Kernel) : Prop :=
  ∀ fd k, task.files fd = some k → k ∉ L → (s.file_table k).inode.isSome

/-- Those of all tasks. -/
def Filed (L : List Nat) (s : Kernel) : Prop :=
  ∀ c task, s.task_table c = some task → FilesOf L task s

def WiredBut (L : List Nat) (s : Kernel) : Prop := Linked s ∧ Filed L s

abbrev Wired : Kernel → Prop := WiredBut []

/-! ## Inodes -/

theorem setInode_self {f : Inode → Inode} : (s.setInode i f).inode_table i = f (s.inode_table i) :=
  Function.update_self ..

theorem setInode_of_ne {f : Inode → Inode} (h : j ≠ i) :
    (s.setInode i f).inode_table j = s.inode_table j :=
  Function.update_of_ne h ..

/-- The super blocks differ in their lists only. -/
def SameSupers (s t : Kernel) : Prop := SameMounts s t ∧
    ∀ k, (t.super_table k).desc = (s.super_table k).desc

theorem SameSupers.placed (h : SameSupers s t)
    (hdev : (t.inode_table j).dev = (s.inode_table j).dev)
    (hdesc : t.desc j = s.desc j) (hj : Placed s j) : Placed t j := by
  intro k hk
  rw [hdev, h.1.getSuper] at hk
  rw [hdesc, hdev, h.2]
  exact hj k hk

theorem SameSupers.rooted (h : SameSupers s t) (hr : Rooted s) : Rooted t := by
  obtain ⟨hdev, hiroot, hpipes⟩ := hr
  refine ⟨?_, ?_, fun k => ?_⟩
  · rwa [(h.1 0).1]
  · rwa [(h.1 0).2.1]
  · rw [(h.1 k).1]
    exact hpipes k

theorem SameSupers.setInode {f : Inode → Inode} : SameSupers s (s.setInode i f) :=
  ⟨fun _ => ⟨rfl, rfl, rfl⟩, fun _ => rfl⟩

/-- A store that leaves alone what `Linked` looks at. -/
theorem Linked.setInode {f : Inode → Inode} (h : Linked s)
    (hdev : (f (s.inode_table i)).dev = (s.inode_table i).dev)
    (hpipe : (f (s.inode_table i)).pipe = (s.inode_table i).pipe)
    (hdesc : (f (s.inode_table i)).desc = (s.inode_table i).desc) : Linked (s.setInode i f) := by
  have hsame : ∀ j, ((s.setInode i f).inode_table j).dev = (s.inode_table j).dev ∧
      ((s.setInode i f).inode_table j).pipe = (s.inode_table j).pipe ∧
      (s.setInode i f).desc j = s.desc j := by
    intro j
    by_cases hji : j = i
    · subst hji
      rw [Kernel.desc, setInode_self]
      exact ⟨hdev, hpipe, hdesc⟩
    · rw [Kernel.desc, setInode_of_ne hji]
      exact ⟨rfl, rfl, rfl⟩
  refine ⟨fun j hj hp => ?_, fun j hj => ?_, h.root, h.rooted⟩
  · rw [(hsame j).1] at hj
    rw [(hsame j).2.1] at hp
    exact h.listed j hj hp
  · rw [(hsame j).1] at hj
    exact SameSupers.setInode.placed (hsame j).1 (hsame j).2.2 (h.placed j hj)

/-- Other inodes than `i` are on lists; `i` itself may be on one no more. -/
structure LinkedBut (i : Nat) (s : Kernel) : Prop where
  listed : ∀ j, j ≠ i → (s.inode_table j).dev ≠ EOF → (s.inode_table j).pipe = false → Listed s j
  placed : ∀ j, j ≠ i → (s.inode_table j).dev ≠ EOF → Placed s j
  root : i ≠ 0 → Listed s 0
  rooted : Rooted s

theorem LinkedBut.setInode {f : Inode → Inode} (h : LinkedBut i s) :
    LinkedBut i (s.setInode i f) := by
  refine ⟨fun j hj hdev hp => ?_, fun j hj hdev => ?_, h.root, h.rooted⟩
  · rw [setInode_of_ne hj] at hdev hp
    exact h.listed j hj hdev hp
  · have hother := setInode_of_ne (s := s) (f := f) hj
    rw [hother] at hdev
    refine SameSupers.setInode.placed ?_ ?_ (h.placed j hj hdev)
    · rw [hother]
    · rw [Kernel.desc, hother]
      rfl

theorem Linked.but (h : Linked s) : LinkedBut i s :=
  ⟨fun j _ => h.listed j, fun j _ => h.placed j, fun _ => h.root, h.rooted⟩

/-- A slot that is given back has no inode that would have to be on a list. -/
theorem putFreeInode_linked : Triple never (LinkedBut i) (putFreeInode i) fun _ => Linked := by
  refine Triple.intro fun s h => from_assert fun hi => From.get (from_assert fun _ => From.store ?_)
  have hset := h.setInode (f := fun inode => { inode with dev := EOF })
  have hfree : ∀ {j}, ((s.setInode i fun inode => { inode with dev := EOF }).inode_table j).dev ≠ EOF → j ≠ i := by
    rintro j hdev rfl
    rw [setInode_self] at hdev
    exact hdev rfl
  exact ⟨fun j hdev => hset.listed j (hfree hdev) hdev,
    fun j hdev => hset.placed j (hfree hdev) hdev,
    hset.root hi, hset.rooted⟩

theorem listRemove_linked : Triple never Linked (listRemove i) fun _ => LinkedBut i := by
  refine Triple.intro fun s h => From.get (from_assert fun _ => From.store ?_)
  have hother : ∀ {j}, j ≠ i → Listed s j →
      ∃ k < SUPER_NR, j ∈ ((s.super_table k).inode_list.erase i) := by
    rintro j hj ⟨k, hk, hin⟩
    exact ⟨k, hk, (List.mem_erase_of_ne hj).mpr hin⟩
  exact ⟨fun j hj hdev hp => hother hj (h.listed j hdev hp), fun j _ hdev => h.placed j hdev,
    fun hi => hother (Ne.symm hi) h.root, h.rooted⟩

theorem iput_linked (p : Option Nat) : Keeps Linked (iput p) := by
  cases p with
  | none => exact .pure
  | some i =>
      refine Triple.intro fun s h => From.get (From.ite (fun _ => ?_) fun _ => ?_)
      · have hcount : Linked (s.setInode i fun inode => { inode with count := decr inode.count }) :=
          h.setInode rfl rfl rfl
        refine From.set (From.get (From.ite (fun _ => From.pure hcount) fun _ => ?_))
        exact From.set (putFreeInode_linked.start hcount.but.setInode)
      · have hcount : Linked (s.setInode i fun inode => { inode with count := decr inode.count }) :=
          h.setInode rfl rfl rfl
        refine From.set (From.get (From.ite (fun _ => From.pure hcount) fun _ => ?_))
        exact From.bind (listRemove_linked.start hcount) fun _ t ht => putFreeInode_linked.start ht

theorem hold_linked (g : Kernel → Nat) : Keeps Linked (modify fun s => s.hold (g s)) := by
  intro _ s hs
  have hset : Linked (s.setInode (g s) fun inode => { inode with count := inode.count + 1 }) :=
    hs.setInode rfl rfl rfl
  exact hset

theorem fitInode_linked : Keeps Linked (fitInode i) := by
  refine .bind .get fun _ => .ite .pure (.bind keeps_theSuper fun _ => ?_)
  refine .bind (iput_linked _) fun _ => .bind .get fun _ => .bind .deref fun _ => ?_
  exact .bind (hold_linked _) fun _ => .pure

/-- A free slot is loaded with an inode, which is then on the list of its super
    block. -/
theorem Linked.loaded {n : Node} (h : Linked s) (hk : getSuper s n.dev = some k) :
    Linked (NeonixWalks.loaded s k i n) := by
  have hsup : SameSupers s (NeonixWalks.loaded s k i n) := by
    refine ⟨fun k' => ?_, fun k' => ?_⟩
    · rw [loaded_super]
      exact ⟨rfl, rfl, rfl⟩
    · rw [loaded_super]
  have hpushed : ∀ {j}, Listed s j → Listed (NeonixWalks.loaded s k i n) j := by
    rintro j ⟨k', hk', hin⟩
    refine ⟨k', hk', ?_⟩
    rw [loaded_super]
    dsimp only
    split_ifs
    · exact List.mem_cons_of_mem _ hin
    · exact hin
  refine ⟨fun j hdev hp => ?_, fun j hdev => ?_, hpushed h.root, hsup.rooted h.rooted⟩
  · by_cases hji : j = i
    · refine ⟨k, (getSuper_some hk).1, ?_⟩
      rw [loaded_super, hji]
      dsimp only
      rw [if_pos rfl]
      exact List.mem_cons_self
    · rw [loaded_other s hji] at hdev hp
      exact hpushed (h.listed j hdev hp)
  · by_cases hji : j = i
    · subst hji
      intro k' hk'
      rw [loaded_self, hsup.1.getSuper, hk] at hk'
      rw [← Option.some.inj hk', Kernel.desc, loaded_self, hsup.2]
      exact ⟨n.nr, rfl⟩
    · have hother := loaded_other s (k := k) (n := n) hji
      rw [hother] at hdev
      refine hsup.placed ?_ ?_ (h.placed j hdev)
      · rw [hother]
      · rw [Kernel.desc, hother]
        rfl

theorem iget_linked (dev : Dev) (nr : Nat) : Keeps Linked (iget dev nr) := by
  refine Keeps.bind keeps_findInode fun found => ?_
  cases found with
  | some i => exact Keeps.bind (hold_linked _) fun _ => fitInode_linked
  | none =>
      refine Triple.intro fun s h => From.bind theSuper_spec ?_
      rintro k s ⟨rfl, hk⟩
      refine From.get (from_assert fun _ => From.bind getFreeInode_spec ?_)
      rintro i s ⟨rfl, -, hfree⟩
      refine From.set (From.get (from_assert fun _ => From.set (From.set (From.pure ?_))))
      have hend : Linked (NeonixWalks.loaded s k i { dev := dev, nr := nr }) := Linked.loaded h hk
      simp only [NeonixWalks.loaded, Kernel.setSuper, Kernel.setInode,
        Function.update_self] at hend ⊢
      exact hend

theorem linked_stable : Stable Linked where
  diskFree := fun _ _ h => ⟨h.listed, h.placed, h.root, h.rooted⟩
  hold := hold_linked
  iput := iput_linked
  iget := iget_linked

theorem stable_and (hP : Stable P) (hQ : Stable Q) : Stable fun s => P s ∧ Q s where
  diskFree := fun s d h => ⟨hP.diskFree s d h.1, hQ.diskFree s d h.2⟩
  hold := fun g => (Triple.and (hP.hold g) (hQ.hold g)).conseq (fun _ h => h) fun _ _ h => h
  iput := fun i => (Triple.and (hP.iput i) (hQ.iput i)).conseq (fun _ h => h) fun _ _ h => h
  iget := fun dev nr => (Triple.and (hP.iget dev nr) (hQ.iget dev nr)).conseq (fun _ h => h) fun _ _ h => h

theorem filesOf_fixed {task : Task} : Fixed (FilesOf L task) := by
  intro s t hf _ _ _ _ h fd k hfd hk
  rw [hf]
  exact h fd k hfd hk

theorem filed_fixed : Fixed (Filed L) := by
  intro s t hf ht _ _ _ h c task hc fd k hfd hk
  rw [hf]
  rw [ht] at hc
  exact h c task hc fd k hfd hk

theorem wired_stable : Stable Wired := stable_and linked_stable filed_fixed.stable

/-! ## Calls on directories -/

section Directories

theorem rollback_wired : Keeps Wired (rollback L) := keeps_rollback wired_stable

theorem keeps_disk {g : Kernel → Dev → Nat → Bytes} :
    Keeps Wired (modify fun s => { s with disk := g s }) :=
  keeps_modifyDisk wired_stable.diskFree

theorem iput_wired {p : Option Nat} : Keeps Wired (iput p) := wired_stable.iput p

/-- The end of a call that has made or removed something. -/
theorem done_wired {r : Int} : Keeps Wired (do iput (some i); iput (some j); return r : Fs Int) :=
  .bind iput_wired fun _ => .bind iput_wired fun _ => .pure

theorem sysMkdir_wired {pathname : Str} {mode : BitVec 32} :
    Keeps Wired (sysMkdir pathname mode) := by
  have hP := wired_stable
  refine .bind (keeps_named hP) fun r => ?_
  rcases r with ⟨_ | dir, _ | ⟨c, name⟩⟩
  · exact rollback_wired
  · exact rollback_wired
  · exact rollback_wired
  refine .bind keeps_permission fun _ => .ite rollback_wired (.bind (keeps_findEntry hP) fun r => ?_)
  refine .ite rollback_wired (.bind (keeps_addEntry hP) fun _ => .bind .get fun _ => ?_)
  refine .bind (keeps_ialloc hP.diskFree) fun _ => .bind keeps_disk fun _ => ?_
  refine .bind keeps_runningTask fun _ => .bind .get fun _ => .bind (keeps_newInode hP) fun _ => ?_
  refine .bind keeps_disk fun _ => .bind keeps_disk fun _ => .bind keeps_disk fun _ => ?_
  refine .bind keeps_disk fun _ => .bind (keeps_bmap hP.diskFree) fun _ => .bind .get fun _ => ?_
  refine .bind keeps_disk fun _ => .bind keeps_disk fun _ => .bind keeps_disk fun _ => ?_
  exact .bind keeps_disk fun _ => done_wired

theorem sysRmdir_wired {pathname : Str} : Keeps Wired (sysRmdir pathname) := by
  have hP := wired_stable
  refine .bind (keeps_named hP) fun r => ?_
  rcases r with ⟨_ | dir, _ | ⟨c, name⟩⟩
  · exact rollback_wired
  · exact rollback_wired
  · exact rollback_wired
  refine .bind keeps_permission fun _ => .ite rollback_wired (.bind (keeps_findEntry hP) fun r => ?_)
  obtain ⟨entry, dir', _⟩ := r
  cases entry with
  | none => exact rollback_wired
  | some entry =>
      refine .bind .get fun _ => .bind (hP.iget _ _) fun inode => .bind .get fun _ => ?_
      refine .ite rollback_wired (.ite rollback_wired (.bind keeps_runningTask fun _ => ?_))
      refine .ite rollback_wired (.ite rollback_wired (.bind (keeps_isEmpty hP.diskFree) fun _ => ?_))
      refine .ite rollback_wired (.bind .get fun _ => .bind .assert fun _ => ?_)
      refine .bind (keeps_inodeTruncate hP.diskFree) fun _ => .bind .get fun _ => ?_
      refine .bind (keeps_onVolume hP.diskFree) fun _ => .bind keeps_disk fun _ =>
        .bind ?_ fun _ => ?_
      · intro _ s hs
        have hset : Linked (s.setInode inode fun inode => { inode with nr := 0 }) :=
          hs.1.setInode rfl rfl rfl
        exact ⟨hset, hs.2⟩
      refine .bind keeps_disk fun _ => .bind keeps_disk fun _ => .bind .get fun _ => ?_
      exact .bind .assert fun _ => .bind keeps_disk fun _ => done_wired

theorem sysLink_wired {oldname newname : Str} : Keeps Wired (sysLink oldname newname) := by
  have hP := wired_stable
  refine .bind (keeps_namei hP) fun r => ?_
  cases r with
  | none => exact rollback_wired
  | some inode =>
      refine .bind .get fun _ => .ite rollback_wired (.bind (keeps_named hP) fun r => ?_)
      rcases r with ⟨_ | dir, _ | ⟨c, name⟩⟩
      · exact rollback_wired
      · exact rollback_wired
      · exact rollback_wired
      refine .bind .get fun _ => .ite rollback_wired (.bind keeps_permission fun _ => ?_)
      refine .ite rollback_wired (.bind (keeps_findEntry hP) fun r => .ite rollback_wired ?_)
      refine .bind (keeps_addEntry hP) fun _ => .bind keeps_disk fun _ => ?_
      exact .bind keeps_disk fun _ => done_wired

theorem sysUnlink_wired {filename : Str} : Keeps Wired (sysUnlink filename) := by
  have hP := wired_stable
  refine .bind (keeps_named hP) fun r => ?_
  rcases r with ⟨_ | dir, _ | ⟨c, name⟩⟩
  · exact rollback_wired
  · exact rollback_wired
  · exact rollback_wired
  refine .bind keeps_permission fun _ => .ite rollback_wired (.bind (keeps_findEntry hP) fun r => ?_)
  obtain ⟨entry, dir', _⟩ := r
  cases entry with
  | none => exact rollback_wired
  | some entry =>
      refine .bind .get fun _ => .bind (hP.iget _ _) fun inode => .bind .get fun _ => ?_
      refine .ite rollback_wired (.bind keeps_runningTask fun _ => .ite rollback_wired ?_)
      refine .bind keeps_disk fun _ => .bind keeps_disk fun _ => .bind .get fun _ => ?_
      refine .bind (.onlyIf ?_) fun _ => done_wired
      refine .bind (keeps_inodeTruncate hP.diskFree) fun _ => .bind .get fun _ => ?_
      exact keeps_onVolume hP.diskFree

theorem sysMknod_wired {filename : Str} {mode dev : BitVec 32} :
    Keeps Wired (sysMknod filename mode dev) := by
  have hP := wired_stable
  refine .bind (keeps_named hP) fun r => ?_
  rcases r with ⟨_ | dir, _ | ⟨c, name⟩⟩
  · exact rollback_wired
  · exact rollback_wired
  · exact rollback_wired
  refine .bind keeps_permission fun _ => .ite rollback_wired (.bind (keeps_findEntry hP) fun r => ?_)
  refine .ite rollback_wired (.bind (keeps_addEntry hP) fun _ => .bind .get fun _ => ?_)
  refine .bind (keeps_ialloc hP.diskFree) fun _ => .bind keeps_disk fun _ => .bind .get fun _ => ?_
  refine .bind (keeps_newInode hP) fun _ => .bind keeps_disk fun _ => ?_
  exact .bind (.onlyIf keeps_disk) fun _ => done_wired

theorem sysStat_wired {filename : Str} : Keeps Wired (sysStat filename) := by
  refine .bind (keeps_namei wired_stable) fun r => ?_
  cases r with
  | none => exact .pure
  | some inode => exact .bind iput_wired fun _ => .pure

end Directories

/-! ## Calls of a task on its own pointers -/

/-- A store to the running task that leaves its descriptors alone. -/
theorem keeps_setTask {f : Task → Task} (hf : ∀ task, (f task).files = task.files) :
    Keeps Wired (modify fun s => s.setTask f) := by
  intro _ s hs
  refine ⟨⟨hs.1.listed, hs.1.placed, hs.1.root, hs.1.rooted⟩, fun c task hc fd k hfd => ?_⟩
  by_cases hcur : c = s.current
  · subst hcur
    change Function.update s.task_table s.current ((s.task_table s.current).map f) s.current = _ at hc
    rw [Function.update_self] at hc
    obtain ⟨old, hold, rfl⟩ := Option.map_eq_some_iff.mp hc
    rw [hf] at hfd
    exact hs.2 _ old hold fd k hfd
  · change Function.update s.task_table s.current _ c = _ at hc
    rw [Function.update_of_ne hcur] at hc
    exact hs.2 c task hc fd k hfd

theorem sysChdir_wired {pathname : Str} : Keeps Wired (sysChdir pathname) := by
  refine .bind (keeps_namei wired_stable) fun r => ?_
  cases r with
  | none => exact rollback_wired
  | some inode =>
      refine .bind keeps_runningTask fun _ => .bind .get fun _ => .ite rollback_wired ?_
      exact .bind iput_wired fun _ => .bind (keeps_setTask fun _ => rfl) fun _ => .pure

theorem sysChroot_wired {pathname : Str} : Keeps Wired (sysChroot pathname) := by
  refine .bind (keeps_namei wired_stable) fun r => ?_
  cases r with
  | none => exact rollback_wired
  | some inode =>
      refine .bind keeps_runningTask fun _ => .bind .get fun _ => .ite rollback_wired ?_
      exact .bind iput_wired fun _ => .bind (keeps_setTask fun _ => rfl) fun _ => .pure

theorem sysExecve_wired {filename : Str} {loaded : Bool} :
    Keeps Wired (sysExecve filename loaded) := by
  refine .bind (keeps_namei wired_stable) fun r => ?_
  cases r with
  | none => exact rollback_wired
  | some inode =>
      refine .bind .get fun _ => .ite rollback_wired (.bind keeps_permission fun _ => ?_)
      refine .ite rollback_wired (.ite rollback_wired (.bind keeps_runningTask fun _ => ?_))
      exact .bind iput_wired fun _ => .bind (keeps_setTask fun _ => rfl) fun _ => .pure

/-! ## Descriptors -/

/-- A store to an open file that does not take its inode away. -/
theorem FilesOf.setFile {task : Task} {f : File → File} (h : FilesOf L task s)
    (hf : ∀ file, file.inode.isSome → (f file).inode.isSome) : FilesOf L task (s.setFile i f) := by
  intro fd k hfd hk
  have hsome := h fd k hfd hk
  show ((Function.update s.file_table i (f (s.file_table i))) k).inode.isSome
  by_cases hki : k = i
  · subst hki
    rw [Function.update_self]
    exact hf _ hsome
  · rw [Function.update_of_ne hki]
    exact hsome

theorem keeps_setFile {g : Kernel → Nat} {f : Kernel → File → File}
    (hf : ∀ s file, file.inode.isSome → (f s file).inode.isSome) :
    Keeps (WiredBut L) (modify fun s => s.setFile (g s) (f s)) := by
  intro _ s hs
  exact ⟨⟨hs.1.listed, hs.1.placed, hs.1.root, hs.1.rooted⟩,
    fun c task hc => (hs.2 c task hc).setFile (hf s)⟩

/-- A store that gives an open file its inode. -/
theorem settle_wired {f : Kernel → File → File} (hf : ∀ s file, (f s file).inode.isSome) :
    Triple never (WiredBut (k :: L)) (modify fun s => s.setFile k (f s)) fun _ => WiredBut L := by
  intro _ s hs
  refine ⟨⟨hs.1.listed, hs.1.placed, hs.1.root, hs.1.rooted⟩, fun c task hc fd k' hfd hk => ?_⟩
  show ((Function.update s.file_table k (f s (s.file_table k))) k').inode.isSome
  by_cases hkk : k' = k
  · subst hkk
    rw [Function.update_self]
    exact hf s _
  · rw [Function.update_of_ne hkk]
    exact hs.2 c task hc fd k' hfd fun hin => (List.mem_cons.mp hin).elim hkk hk

theorem WiredBut.more (h : WiredBut L s) : WiredBut (k :: L) s :=
  ⟨h.1, fun c task hc fd k' hfd hk => h.2 c task hc fd k' hfd fun hin => hk (List.mem_cons_of_mem _ hin)⟩

/-- A descriptor of the running task gets a file that has an inode, or none. -/
theorem setFd_wired {fd : Nat} {file : Option Nat} (h : WiredBut L s)
    (hfile : ∀ k, file = some k → k ∉ L → (s.file_table k).inode.isSome) :
    From never s (setFd fd file) fun _ => WiredBut L := by
  refine From.store ⟨⟨h.1.listed, h.1.placed, h.1.root, h.1.rooted⟩, fun c task hc fd' k hfd hk => ?_⟩
  by_cases hcur : c = s.current
  · subst hcur
    change Function.update s.task_table s.current ((s.task_table s.current).map _) s.current = _ at hc
    rw [Function.update_self] at hc
    obtain ⟨old, hold, rfl⟩ := Option.map_eq_some_iff.mp hc
    change Function.update old.files fd file fd' = some k at hfd
    by_cases hfd' : fd' = fd
    · rw [hfd', Function.update_self] at hfd
      exact hfile k hfd hk
    · rw [Function.update_of_ne hfd'] at hfd
      exact h.2 _ old hold fd' k hfd hk
  · change Function.update s.task_table s.current _ c = _ at hc
    rw [Function.update_of_ne hcur] at hc
    exact h.2 c task hc fd' k hfd hk

/-- A descriptor gets a file whose inode is still to come. -/
theorem newFd_wired {fd : Nat} :
    Triple never (WiredBut L) (setFd fd (some k)) fun _ => WiredBut (k :: L) :=
  Triple.intro fun _ h => setFd_wired h.more fun _ hk' hno =>
    absurd (Option.some.inj hk' ▸ List.mem_cons_self) hno

theorem WiredBut.swap (h : WiredBut (i :: j :: L) s) : WiredBut (j :: i :: L) s := by
  refine ⟨h.1, fun c task hc fd k hfd hk => h.2 c task hc fd k hfd fun hin => hk ?_⟩
  exact (List.Perm.swap j i L).mem_iff.mp hin

theorem getFile_wired : Keeps (WiredBut L) getFile := by
  refine .bind .get fun s => ?_
  cases (List.range' 3 (FILE_NR - 3)).find? fun k => (s.file_table k).count = 0 with
  | none => exact .stop
  | some k => exact .bind (keeps_setFile (g := fun _ => k) fun _ _ h => h) fun _ => .pure

theorem sysOpen_wired {filename : Str} {flags mode : BitVec 32} :
    Keeps Wired (sysOpen filename flags mode) := by
  refine .bind (keeps_inodeOpen wired_stable) fun r => ?_
  cases r with
  | none => exact .pure
  | some inode =>
      refine .bind keeps_taskGetFd fun fd => .bind getFile_wired fun file => ?_
      refine .bind keeps_runningTask fun task => .bind .assert fun _ => ?_
      refine Triple.bind newFd_wired fun _ => Triple.bind (settle_wired fun _ _ => rfl) fun _ => ?_
      exact Keeps.bind (.onlyIf (keeps_setFile (g := fun _ => file) fun _ _ h => h)) fun _ => .pure

theorem sysCreat_wired {filename : Str} {mode : BitVec 32} : Keeps Wired (sysCreat filename mode) :=
  sysOpen_wired

theorem getPipeInode_wired : Keeps Wired getPipeInode := by
  refine Triple.intro fun s h => From.bind getFreeInode_spec ?_
  rintro i s ⟨rfl, -, -⟩
  refine From.set (From.pure ⟨⟨fun j hdev hp => ?_, fun j hdev => ?_, h.1.root, h.1.rooted⟩, h.2⟩)
  · by_cases hji : j = i
    · subst hji
      rw [setInode_self] at hp
      cases hp
    · rw [setInode_of_ne hji] at hdev hp
      exact h.1.listed j hdev hp
  · by_cases hji : j = i
    · -- no file system is on the device of pipes
      subst hji
      intro k hk
      rw [setInode_self] at hk
      exact absurd (getSuper_some hk).2 (h.1.rooted.2.2 k)
    · have hother := setInode_of_ne (s := s) (f := fun inode => { inode with dev := -2, count := 2, pipe := true }) hji
      rw [hother] at hdev
      refine SameSupers.setInode.placed ?_ ?_ (h.1.placed j hdev)
      · rw [hother]
      · rw [Kernel.desc, hother]
        rfl

theorem sysPipe_wired : Keeps Wired sysPipe := by
  refine Triple.bind getPipeInode_wired fun inode => Triple.bind keeps_taskGetFd fun fd0 => ?_
  refine Triple.bind getFile_wired fun file0 => Triple.bind newFd_wired fun _ => ?_
  refine Triple.bind keeps_taskGetFd fun fd1 => Triple.bind getFile_wired fun file1 => ?_
  refine Triple.bind newFd_wired fun _ => ?_
  refine Triple.bind ((settle_wired fun _ _ => rfl).pre fun _ hs => hs.swap) fun _ => ?_
  exact Triple.bind (settle_wired fun _ _ => rfl) fun _ => Keeps.pure

theorem putFile_wired : Keeps Wired (putFile k) := by
  refine .bind .get fun _ => .bind .assert fun _ => .bind ?_ fun _ => .bind .get fun _ =>
    .onlyIf iput_wired
  exact keeps_setFile (g := fun _ => k) fun _ _ h => h

theorem getFd_wired {fd : Int} {P : Kernel → Prop} : Keeps P (getFd fd) :=
  .ite .stop (.bind keeps_runningTask fun _ => .pure)

theorem sysClose_wired {fd : Int} : Keeps Wired (sysClose fd) := by
  refine .bind .assert fun _ => .bind getFd_wired fun file => ?_
  cases file with
  | none => exact .pure
  | some file =>
      refine .bind .get fun _ => .bind .assert fun _ => .bind putFile_wired fun _ => ?_
      exact Triple.intro fun s h => setFd_wired h fun _ hk => nomatch hk

theorem dupfd_wired {fd arg : Int} : Keeps Wired (dupfd fd arg) := by
  refine Triple.intro fun s h => From.ite (fun _ => From.pure h) fun _ => From.bind getFd_spec ?_
  rintro file s ⟨rfl, -, task, ht, hfile⟩
  cases file with
  | none => exact From.pure h
  | some k =>
      refine From.ite (fun _ => From.pure h) fun _ =>
        From.ite (fun _ => From.stop not_false) fun _ => ?_
      refine From.bind runningTask_spec ?_
      rintro task' s ⟨rfl, -⟩
      cases (List.range' arg.toNat (TASK_FILE_NR - arg.toNat)).find? fun fd => task'.files fd =
        none with
      | none => exact From.pure h
      | some arg' =>
          refine From.bind (setFd_wired h fun k' hk' _ => ?_) fun _ t ht => ?_
          · rw [← Option.some.inj hk']
            exact h.2 _ task ht _ k hfile List.not_mem_nil
          · exact Triple.start (Keeps.bind (keeps_setFile (g := fun _ => k) fun _ _ h => h) fun _ => .pure) ht

theorem sysDup2_wired {oldfd newfd : Int} : Keeps Wired (sysDup2 oldfd newfd) :=
  .bind sysClose_wired fun _ => dupfd_wired

/-! ## Tasks -/

/-- The files of the child are those of its father. -/
theorem taskFork_wired : Keeps Wired taskFork := by
  refine Triple.intro fun s h => From.bind runningTask_spec ?_
  rintro task s ⟨rfl, ht⟩
  refine from_assert fun _ => From.get ?_
  cases (List.range TASK_NR).find? fun i => (s.task_table i).isNone with
  | none => exact From.stop not_false
  | some child =>
      have hfiles : FilesOf [] task s := h.2 _ task ht
      have hboth := stable_and wired_stable filesOf_fixed.stable (Q := FilesOf [] task)
      refine From.bind ((hboth.hold _).start ⟨h, hfiles⟩) fun _ t ht => ?_
      refine From.bind ((hboth.hold _).start ht) fun _ u hu => ?_
      have hexec : Keeps (fun s => Wired s ∧ FilesOf [] task s) (shareExec task.iexec) := by
        cases task.iexec with
        | none => exact .pure
        | some e => exact hboth.hold fun _ => e
      refine From.bind (hexec.start hu) fun _ v hv => ?_
      have hshare : Keeps (fun s => Wired s ∧ FilesOf [] task s)
          (loop (shareFile task) 0 TASK_FILE_NR) := by
        refine Keeps.loop (fun fd => ?_) _ _
        rw [shareFile]
        cases task.files fd with
        | none => exact .pure
        | some k =>
            refine Triple.modify fun s hs => ⟨?_, hs.2.setFile fun _ h => h⟩
            exact ⟨⟨hs.1.1.listed, hs.1.1.placed, hs.1.1.root, hs.1.1.rooted⟩,
              fun c task' hc => (hs.1.2 c task' hc).setFile fun _ h => h⟩
      refine From.bind (hshare.start hv) fun _ w hw => From.set (From.pure ?_)
      refine ⟨⟨hw.1.1.listed, hw.1.1.placed, hw.1.1.root, hw.1.1.rooted⟩, fun c task' hc => ?_⟩
      change Function.update w.task_table child (some task) c = _ at hc
      by_cases hcc : c = child
      · rw [hcc, Function.update_self] at hc
        exact Option.some.inj hc ▸ hw.2
      · rw [Function.update_of_ne hcc] at hc
        exact hw.1.2 c task' hc

theorem closeFd_wired {fd : Nat} : Keeps Wired (closeFd fd) := by
  refine .bind keeps_runningTask fun task => ?_
  cases task.files fd with
  | none => exact .pure
  | some _ => exact sysClose_wired

theorem taskExit_wired : Keeps Wired taskExit := by
  refine .bind keeps_runningTask fun task => .bind .assert fun _ => ?_
  refine .bind (keeps_setTask fun _ => rfl) fun _ => .bind iput_wired fun _ => ?_
  refine .bind iput_wired fun _ => .bind iput_wired fun _ => ?_
  exact Keeps.loop (fun _ => closeFd_wired) _ _

/-! ## Runs -/

theorem perform_wired (call : Syscall) : Keeps Wired (perform call) := by
  cases call with
  | «open» filename flags mode => exact sysOpen_wired.bind fun _ => .pure
  | creat filename mode => exact sysCreat_wired.bind fun _ => .pure
  | pipe => exact sysPipe_wired.bind fun _ => .pure
  | dup oldfd => exact dupfd_wired.bind fun _ => .pure
  | dup2 oldfd newfd => exact sysDup2_wired.bind fun _ => .pure
  | close fd => exact sysClose_wired
  | fork => exact taskFork_wired.bind fun _ => .pure
  | exit => exact taskExit_wired
  | chdir pathname => exact sysChdir_wired.bind fun _ => .pure
  | chroot pathname => exact sysChroot_wired.bind fun _ => .pure
  | execve filename loaded => exact sysExecve_wired.bind fun _ => .pure
  | stat filename => exact sysStat_wired.bind fun _ => .pure
  | mkdir pathname mode => exact sysMkdir_wired.bind fun _ => .pure
  | rmdir pathname => exact sysRmdir_wired.bind fun _ => .pure
  | link oldname newname => exact sysLink_wired.bind fun _ => .pure
  | unlink filename => exact sysUnlink_wired.bind fun _ => .pure
  | mknod filename mode dev => exact sysMknod_wired.bind fun _ => .pure

theorem exec_wired {e : Event} {t : Kernel} (h : Wired s) (hx : exec s e = .ok t) : Wired t := by
  cases e with
  | call c fuel time syscall =>
      have hstart : Wired { s with current := c, time := time } :=
        ⟨⟨h.1.listed, h.1.placed, h.1.root, h.1.rooted⟩, h.2⟩
      have hend := perform_wired syscall fuel _ hstart
      change (perform syscall fuel { s with current := c, time := time } >>= fun r =>
        Except.ok r.2) = Except.ok t at hx
      cases hr : perform syscall fuel { s with current := c, time := time } with
      | error e =>
          rw [hr] at hx
          cases hx
      | ok r =>
          rw [hr] at hx hend
          rw [← Except.ok.inj hx]
          exact hend
  | reap c =>
      rw [← Except.ok.inj hx]
      refine ⟨⟨h.1.listed, h.1.placed, h.1.root, h.1.rooted⟩, fun c' task hc => ?_⟩
      change Function.update s.task_table c none c' = _ at hc
      by_cases hcc : c' = c
      · rw [hcc, Function.update_self] at hc
        cases hc
      · rw [Function.update_of_ne hcc] at hc
        exact h.2 c' task hc

end NeonixWiredTables
