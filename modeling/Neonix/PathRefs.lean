import Neonix.InodeRefs

/-! # The references of path walks and directory calls

    A path walk trades the reference to one directory for that to the next, and
    a call drops what it holds on every way out. -/

namespace NeonixPathRefs

open NeonixMachine NeonixByteBits NeonixCalls NeonixFileSystem NeonixNamei NeonixFrames
  NeonixInodeRefs

variable {L : List Nat} {s : Kernel} {dir i : Nat} {name next : Str}

/-- The name is `..` up to a separator. -/
def DotDot (name : Str) : Prop := ∃ next, matchName name DOTDOT 3 = .ok (some next)

/-- `..` does not lead to another file system any more. -/
def Settled (dir : Nat) (up : Prop) (s : Kernel) : Prop :=
  up → (s.inode_table dir).nr = 1 → ImountOf s dir

theorem settled_diskFree {up : Prop} : DiskFree (Settled dir up) := fun _ _ h => h

theorem crossUp_holds :
    Triple never (Holds (dir :: L)) (crossUp dir) fun m s =>
      Holds (m :: L) s ∧ ((s.inode_table m).nr = 1 → ImountOf s m) := by
  refine Triple.intro fun s h => From.get (From.get (from_deref fun k hk => ?_))
  refine From.get (from_deref fun m hm => From.set ?_)
  obtain ⟨hk, hdev⟩ := getSuper_some hk
  have hused : (s.super_table k).dev ≠ EOF := by
    rw [hdev]
    exact h.dev
  have hfixed : Fixed fun t =>
      (t.super_table k).dev ≠ EOF ∧ (t.super_table k).imount = some m := by
    intro t u _ _ _ _ hsuper ht
    rw [(hsuper k).1, (hsuper k).2.2.2.2]
    exact ht
  have hhold : Holds (dir :: m :: L) (s.hold m) :=
    (Holds.hold h (Holds.refs h (imount_refs hk hused hm))).swap
  refine From.bind ((iput_holds.and (keeps_iput hfixed)).start ⟨hhold, hused, hm⟩) ?_
  rintro _ t ⟨ht, hdev', hm'⟩
  refine From.pure ⟨ht, fun hnr => ?_⟩
  exact Ledger.top ht k hk hdev' m hm' hnr ht.dev

theorem startDir_holds {up : Bool} :
    Triple never (Holds (dir :: L)) (startDir dir up) fun m s =>
      Holds (m :: L) s ∧ Settled m (up = true) s := by
  refine Triple.intro fun s h => From.get (From.ite (fun _ => ?_) fun hup => ?_)
  · exact (crossUp_holds.start h).post fun m t ht => ⟨ht.1, fun _ => ht.2⟩
  · exact From.pure ⟨h, fun hu hnr => absurd ⟨hu, hnr⟩ hup⟩

/-- Where `..` does not lead to another file system the directory stays. -/
theorem startDir_settled {up : Bool} :
    Triple never (fun s => Holds (dir :: L) s ∧ Settled dir (up = true) s) (startDir dir up)
      fun m s => m = dir ∧ Holds (dir :: L) s := by
  refine Triple.intro fun s ⟨h, hs⟩ => From.get (From.ite (fun hup => ?_) fun _ => ?_)
  · refine From.get (From.get (from_deref fun k hk => From.get (from_deref fun m hm => ?_)))
    have hmd : m = dir := Option.some.inj (hm.symm.trans (hs hup.1 hup.2 k hk))
    subst hmd
    refine From.set (From.bind (iput_holds.start (h.hold h.dev)) fun _ t ht => ?_)
    exact From.pure ⟨rfl, ht⟩
  · exact From.pure ⟨rfl, h⟩

theorem findEntry_holds :
    Triple never (Holds (dir :: L)) (findEntry dir name next) fun r s =>
      Holds (r.2.1 :: L) s ∧ Settled r.2.1 (DotDot name) s := by
  refine Triple.intro fun s h => From.get (from_assert fun _ => from_ofRes fun up hup => ?_)
  refine From.bind (startDir_holds.start h) fun m t ht => From.get ?_
  have hkeep : Holds (m :: L) t ∧ Settled m (DotDot name) t := by
    refine ⟨ht.1, fun hdd => ht.2 ?_⟩
    obtain ⟨next', hnext⟩ := hdd
    rw [hup] at hnext
    rw [Except.ok.inj hnext]
    rfl
  have hfree : DiskFree fun t => Holds (m :: L) t ∧ Settled m (DotDot name) t :=
    fun s d hs => ⟨holds_diskFree s d hs.1, settled_diskFree s d hs.2⟩
  exact From.bind ((keeps_findLoop hfree).start hkeep) fun r u hu => From.pure hu

theorem findEntry_settled :
    Triple never (fun s => Holds (dir :: L) s ∧ Settled dir (DotDot name) s)
      (findEntry dir name next) fun r s => r.2.1 = dir ∧ Holds (dir :: L) s := by
  refine Triple.intro fun s ⟨h, hs⟩ => ?_
  refine From.get (from_assert fun _ => from_ofRes fun up hup => ?_)
  have hup' : Settled dir (up.isSome = true) s := by
    intro hsome
    obtain ⟨next', rfl⟩ := Option.isSome_iff_exists.mp hsome
    exact hs ⟨next', hup⟩
  refine From.bind (startDir_settled.start ⟨h, hup'⟩) ?_
  rintro _ t ⟨rfl, ht⟩
  refine From.get (From.bind ((keeps_findLoop holds_diskFree).start ht) fun r u hu => ?_)
  exact From.pure ⟨rfl, hu⟩

theorem addEntry_holds :
    Triple never (fun s => Holds (dir :: L) s ∧ Settled dir (DotDot name) s)
      (addEntry dir name) fun _ => Holds (dir :: L) := by
  refine Triple.intro fun s hs => From.bind (findEntry_settled.start hs) ?_
  rintro ⟨entry, _, _⟩ t ⟨rfl, ht⟩
  cases entry with
  | some entry => exact From.pure ht
  | none =>
      refine from_assert fun _ => Triple.start ?_ ht
      exact Keeps.bind Keeps.fuel fun _ => keeps_addLoop holds_diskFree

/-- The last reference is dropped. -/
theorem drop_return {α : Type} {a : α} {Q : α → Kernel → Prop} (h : Holds (i :: L) s)
    (hQ : ∀ t, Holds L t → Q a t) :
    From never s (do iput (some i); return a) Q :=
  From.bind (iput_holds.start h) fun _ t ht => From.pure (hQ t ht)

/-- What a walk that may fail holds. -/
def HoldsFound (L : List Nat) (found : Option Nat) : Kernel → Prop :=
  match found with
  | none => Holds L
  | some i => Holds (i :: L)

theorem namedLoop_holds {fuel : Nat} {right left : Str} :
    Triple never (Holds (i :: L)) (namedLoop right fuel i left next) fun r =>
      HoldsFound L r.1 := by
  induction fuel generalizing i left next with
  | zero => exact Triple.stop not_false
  | succ fuel ih =>
      refine Triple.bind findEntry_holds fun r => ?_
      obtain ⟨entry, m, next'⟩ := r
      cases entry with
      | none => exact Triple.intro fun s hs => drop_return hs.1 fun _ ht => ht
      | some entry =>
          refine Triple.intro fun s hs => From.get ?_
          have hdev := hs.1.dev
          refine From.bind (iput_holds.start hs.1) fun _ t ht => From.get ?_
          refine From.bind ((iget_holds hdev).start ht) fun m' u hu => From.get ?_
          refine From.ite (fun _ => ?_) fun _ => ?_
          · exact drop_return hu fun _ hv => hv
          · refine From.bind (keeps_permission.start hu) fun ok v hv => ?_
            refine From.ite (fun _ => ?_) fun _ => From.ite (fun _ => From.pure hv) fun _ => ?_
            · exact drop_return hv fun _ hw => hw
            · exact ih.start hv

/-- The running task is a live one. -/
def Alive (s : Kernel) : Prop :=
  s.current < TASK_NR ∧ ∃ task, s.task_table s.current = some task ∧ task.died = false

theorem alive_fixed : Fixed Alive := by
  intro s t _ htask hcur _ _ h
  rw [Alive, htask, hcur]
  exact h

theorem runningTask_spec :
    From never s runningTask fun task t => t = s ∧ s.task_table s.current = some task := by
  refine From.get ?_
  cases h : s.task_table s.current with
  | none => exact From.stop not_false
  | some task => exact From.pure ⟨rfl, rfl⟩

theorem taskHolds_le {t : Nat} (ht : t < TASK_NR) :
    taskHolds (s.task_table t) i ≤ inodeRefs s i := by
  have hterm := NeonixTally.term_le (f := fun t => taskHolds (s.task_table t) i)
    (Finset.mem_range.mpr ht)
  refine hterm.trans ?_
  rw [inodeRefs]
  omega

/-- A live task points to its directories. -/
theorem Alive.dirs (h : Alive s) {task : Task} (ht : s.task_table s.current = some task) :
    inodeRefs s task.ipwd ≠ 0 ∧ inodeRefs s task.iroot ≠ 0 := by
  obtain ⟨hcur, task', ht', hlive⟩ := h
  rw [ht] at ht'
  obtain rfl := Option.some.inj ht'
  have hpwd := taskHolds_le (s := s) (i := task.ipwd) hcur
  have hroot := taskHolds_le (s := s) (i := task.iroot) hcur
  rw [ht, taskHolds, hlive] at hpwd hroot
  simp only [points, Bool.false_eq_true, if_false, if_true] at hpwd hroot
  constructor
  · omega
  · omega

theorem namedFrom_holds {left : Str} (hi : (s.inode_table i).dev ≠ EOF) (h : Holds L s) :
    From never s (namedFrom i left) fun r => HoldsFound L r.1 := by
  have hh := h.hold hi
  refine From.set (From.ite (fun _ => From.pure hh) fun _ => ?_)
  cases strrsep left with
  | none => exact From.pure hh
  | some right =>
      exact Triple.start (Triple.bind (Q := fun _ => Holds (i :: L)) (fun _ _ hs => hs)
        fun _ => namedLoop_holds) hh

theorem named_holds {pathname : Str} :
    Triple never (fun s => Holds L s ∧ Alive s) (named pathname) fun r => HoldsFound L r.1 := by
  refine Triple.intro fun s ⟨h, ha⟩ => From.bind runningTask_spec ?_
  rintro task s ⟨rfl, ht⟩
  obtain ⟨hpwd, hroot⟩ := ha.dirs ht
  cases pathname with
  | nil => exact From.pure h
  | cons c rest =>
      exact From.ite (fun _ => namedFrom_holds (h.refs hroot) h)
        fun _ => namedFrom_holds (h.refs hpwd) h

theorem namei_holds {pathname : Str} :
    Triple never (fun s => Holds L s ∧ Alive s) (namei pathname) fun r => HoldsFound L r := by
  refine Triple.bind named_holds fun r => ?_
  rcases r with ⟨_ | dir, _ | ⟨c, next⟩⟩
  · exact fun _ _ hs => hs
  · exact fun _ _ hs => hs
  · exact fun _ _ hs => hs
  · refine Triple.bind findEntry_holds fun r => ?_
    obtain ⟨entry, m, _⟩ := r
    cases entry with
    | none => exact Triple.intro fun s hs => drop_return hs.1 fun _ ht => ht
    | some entry =>
        refine Triple.intro fun s hs => From.get ?_
        refine From.bind ((iget_holds hs.1.dev).start hs.1) fun i t ht => ?_
        exact drop_return ht.swap fun _ hu => hu

theorem newInode_holds {dev : Dev} {nr : Nat} (hdev : dev ≠ EOF) :
    Triple never (Holds L) (newInode dev nr) fun r => Holds (r :: L) := by
  refine Triple.bind keeps_runningTask fun task => Triple.bind (iget_holds hdev) fun i => ?_
  have hd : DiskFree (Holds (i :: L)) := holds_diskFree
  refine Triple.bind (keeps_modifyDisk hd) fun _ => Triple.bind (keeps_modifyDisk hd) fun _ => ?_
  refine Triple.bind (keeps_modifyDisk hd) fun _ => Triple.bind (keeps_modifyDisk hd) fun _ => ?_
  refine Triple.bind (keeps_modifyDisk hd) fun _ => Triple.bind (keeps_modifyDisk hd) fun _ => ?_
  exact fun _ _ hs => hs

/-! ## Calls on directories -/

/-- The end of a call that holds two references. -/
theorem drop_two {α : Type} {a : α} :
    Triple never (Holds [i, dir]) (do iput (some i); iput (some dir); return a : Fs α)
      fun _ => Holds [] :=
  Triple.bind iput_holds fun _ => Triple.bind iput_holds fun _ => fun _ _ hs => hs

theorem sysMkdir_holds {pathname : Str} {mode : BitVec 32} :
    Triple never (fun s => Holds [] s ∧ Alive s) (sysMkdir pathname mode) fun _ => Holds [] := by
  refine Triple.bind named_holds fun r => ?_
  rcases r with ⟨_ | dir, _ | ⟨c, next⟩⟩
  · exact rollback_holds
  · exact rollback_holds
  · exact rollback_holds
  refine Triple.bind keeps_permission fun _ => Triple.ite (fun _ => rollback_holds) fun _ => ?_
  refine Triple.bind findEntry_holds fun r => ?_
  obtain ⟨entry, dir, _⟩ := r
  refine Triple.ite (fun _ => rollback_holds.pre fun _ hs => hs.1) fun _ => ?_
  refine Triple.bind addEntry_holds fun entry => Triple.intro fun s hs => From.get ?_
  refine From.bind ((keeps_ialloc holds_diskFree).start hs) fun nr t ht => ?_
  refine From.bind ((keeps_modifyDisk holds_diskFree).start ht) fun _ u hu => ?_
  refine From.bind (keeps_runningTask.start hu) fun task v hv => From.get ?_
  refine From.bind ((newInode_holds hv.dev).start hv) fun i w hw => Triple.start ?_ hw
  have hd : DiskFree (Holds [i, dir]) := holds_diskFree
  refine Triple.bind (keeps_modifyDisk hd) fun _ => Triple.bind (keeps_modifyDisk hd) fun _ => ?_
  refine Triple.bind (keeps_modifyDisk hd) fun _ => Triple.bind (keeps_modifyDisk hd) fun _ => ?_
  refine Triple.bind (keeps_bmap hd) fun block => Triple.bind Keeps.get fun _ => ?_
  refine Triple.bind (keeps_modifyDisk hd) fun _ => Triple.bind (keeps_modifyDisk hd) fun _ => ?_
  refine Triple.bind (keeps_modifyDisk hd) fun _ => Triple.bind (keeps_modifyDisk hd) fun _ => ?_
  exact drop_two

theorem sysMknod_holds {filename : Str} {mode dev : BitVec 32} :
    Triple never (fun s => Holds [] s ∧ Alive s) (sysMknod filename mode dev)
      fun _ => Holds [] := by
  refine Triple.bind named_holds fun r => ?_
  rcases r with ⟨_ | dir, _ | ⟨c, next⟩⟩
  · exact rollback_holds
  · exact rollback_holds
  · exact rollback_holds
  refine Triple.bind keeps_permission fun _ => Triple.ite (fun _ => rollback_holds) fun _ => ?_
  refine Triple.bind findEntry_holds fun r => ?_
  obtain ⟨entry, dir, _⟩ := r
  refine Triple.ite (fun _ => rollback_holds.pre fun _ hs => hs.1) fun _ => ?_
  refine Triple.bind addEntry_holds fun entry => Triple.intro fun s hs => From.get ?_
  refine From.bind ((keeps_ialloc holds_diskFree).start hs) fun nr t ht => ?_
  refine From.bind ((keeps_modifyDisk holds_diskFree).start ht) fun _ u hu => From.get ?_
  refine From.bind ((newInode_holds hu.dev).start hu) fun i w hw => Triple.start ?_ hw
  have hd : DiskFree (Holds [i, dir]) := holds_diskFree
  refine Triple.bind (keeps_modifyDisk hd) fun _ => ?_
  exact Triple.bind (Keeps.onlyIf (keeps_modifyDisk hd)) fun _ => drop_two

theorem sysLink_holds {oldname newname : Str} :
    Triple never (fun s => Holds [] s ∧ Alive s) (sysLink oldname newname)
      fun _ => Holds [] := by
  refine Triple.bind ((namei_holds.and (keeps_namei alive_fixed.stable)).pre fun s hs => ⟨hs, hs.2⟩)
    fun r => ?_
  cases r with
  | none => exact rollback_holds.pre fun _ hs => hs.1
  | some i =>
      refine Triple.bind Keeps.get fun _ => ?_
      refine Triple.ite (fun _ => rollback_holds.pre fun _ hs => hs.1) fun _ => ?_
      refine Triple.bind named_holds fun r => ?_
      rcases r with ⟨_ | dir, _ | ⟨c, next⟩⟩
      · exact rollback_holds
      · exact rollback_holds
      · exact rollback_holds.pre fun _ hs => Holds.swap hs
      refine Triple.bind Keeps.get fun _ => ?_
      refine Triple.ite (fun _ => rollback_holds.pre fun _ hs => Holds.swap hs) fun _ => ?_
      refine Triple.bind keeps_permission fun _ => ?_
      refine Triple.ite (fun _ => rollback_holds.pre fun _ hs => Holds.swap hs) fun _ => ?_
      refine Triple.bind findEntry_holds fun r => ?_
      obtain ⟨entry, dir, _⟩ := r
      refine Triple.ite (fun _ => rollback_holds.pre fun _ hs => hs.1.swap) fun _ => ?_
      refine Triple.bind addEntry_holds fun entry => Triple.pre ?_ fun _ hs => Holds.swap hs
      have hd : DiskFree (Holds [i, dir]) := holds_diskFree
      refine Triple.bind (keeps_modifyDisk hd) fun _ => ?_
      exact Triple.bind (keeps_modifyDisk hd) fun _ => drop_two

theorem sysUnlink_holds {filename : Str} :
    Triple never (fun s => Holds [] s ∧ Alive s) (sysUnlink filename) fun _ => Holds [] := by
  refine Triple.bind named_holds fun r => ?_
  rcases r with ⟨_ | dir, _ | ⟨c, next⟩⟩
  · exact rollback_holds
  · exact rollback_holds
  · exact rollback_holds
  refine Triple.bind keeps_permission fun _ => Triple.ite (fun _ => rollback_holds) fun _ => ?_
  refine Triple.bind findEntry_holds fun r => ?_
  obtain ⟨entry, dir, _⟩ := r
  cases entry with
  | none => exact rollback_holds.pre fun _ hs => hs.1
  | some entry =>
      refine Triple.intro fun s hs => From.get ?_
      refine From.bind ((iget_holds hs.1.dev).start hs.1) fun i t ht => Triple.start ?_ ht
      have hd : DiskFree (Holds [i, dir]) := holds_diskFree
      refine Triple.bind Keeps.get fun _ => Triple.ite (fun _ => rollback_holds) fun _ => ?_
      refine Triple.bind keeps_runningTask fun _ => Triple.ite (fun _ => rollback_holds) fun _ => ?_
      refine Triple.bind (keeps_modifyDisk hd) fun _ =>
        Triple.bind (keeps_modifyDisk hd) fun _ => ?_
      refine Triple.bind Keeps.get fun _ => ?_
      refine Triple.bind (Keeps.onlyIf (Keeps.bind (keeps_inodeTruncate hd) fun _ =>
        Keeps.bind Keeps.get fun _ => keeps_onVolume hd)) fun _ => drop_two

/-- `inode->nr = 0` of a removed directory. -/
theorem keeps_clearNr :
    Keeps (Holds L) (modify fun s => s.setInode i fun inode => { inode with nr := 0 }) :=
  Triple.modify fun _ h => Ledger.keepCount h rfl (Ledger.free h i) (Ledger.listedInUse h)
    (Ledger.mounts h i) fun hnr _ => absurd hnr.symm (Nat.succ_ne_zero 0)

theorem sysRmdir_holds {pathname : Str} :
    Triple never (fun s => Holds [] s ∧ Alive s) (sysRmdir pathname) fun _ => Holds [] := by
  refine Triple.bind named_holds fun r => ?_
  rcases r with ⟨_ | dir, _ | ⟨c, next⟩⟩
  · exact rollback_holds
  · exact rollback_holds
  · exact rollback_holds
  refine Triple.bind keeps_permission fun _ => Triple.ite (fun _ => rollback_holds) fun _ => ?_
  refine Triple.bind findEntry_holds fun r => ?_
  obtain ⟨entry, dir, _⟩ := r
  cases entry with
  | none => exact rollback_holds.pre fun _ hs => hs.1
  | some entry =>
      refine Triple.intro fun s hs => From.get ?_
      refine From.bind ((iget_holds hs.1.dev).start hs.1) fun i t ht => Triple.start ?_ ht
      have hd : DiskFree (Holds [i, dir]) := holds_diskFree
      refine Triple.bind Keeps.get fun _ => Triple.ite (fun _ => rollback_holds) fun _ => ?_
      refine Triple.ite (fun _ => rollback_holds) fun _ => ?_
      refine Triple.bind keeps_runningTask fun _ => Triple.ite (fun _ => rollback_holds) fun _ => ?_
      refine Triple.ite (fun _ => rollback_holds) fun _ => ?_
      refine Triple.bind (keeps_isEmpty hd) fun _ =>
        Triple.ite (fun _ => rollback_holds) fun _ => ?_
      refine Triple.bind Keeps.get fun _ => Triple.bind Keeps.assert fun _ => ?_
      refine Triple.bind (keeps_inodeTruncate hd) fun _ => Triple.bind Keeps.get fun _ => ?_
      refine Triple.bind (keeps_onVolume hd) fun _ => Triple.bind (keeps_modifyDisk hd) fun _ => ?_
      refine Triple.bind keeps_clearNr fun _ => ?_
      refine Triple.bind (keeps_modifyDisk hd) fun _ =>
        Triple.bind (keeps_modifyDisk hd) fun _ => ?_
      refine Triple.bind Keeps.get fun _ => Triple.bind Keeps.assert fun _ => ?_
      exact Triple.bind (keeps_modifyDisk hd) fun _ => drop_two

theorem makeup_holds {flag : BitVec 32} :
    Triple never (Holds [i, dir]) (makeup dir i flag) fun r => HoldsFound [] r := by
  have hd : DiskFree (Holds [i, dir]) := holds_diskFree
  have hfail : Triple never (Holds [i, dir]) (do iput (some dir); iput (some i); return none)
      fun r => HoldsFound [] r := by
    refine Triple.bind (iput_holds.pre fun _ hs => Holds.swap hs) fun _ => ?_
    exact Triple.bind iput_holds fun _ => fun _ _ hs => hs
  refine Triple.bind keeps_permission fun _ => Triple.ite (fun _ => hfail) fun _ => ?_
  refine Triple.bind Keeps.get fun _ => Triple.ite (fun _ => hfail) fun _ => ?_
  refine Triple.bind (Keeps.onlyIf (keeps_inodeTruncate hd)) fun _ => ?_
  exact Triple.bind (iput_holds.pre fun _ hs => Holds.swap hs) fun _ => fun _ _ hs => hs

theorem inodeOpen_holds {pathname : Str} {flag mode : BitVec 32} :
    Triple never (fun s => Holds [] s ∧ Alive s) (inodeOpen pathname flag mode)
      fun r => HoldsFound [] r := by
  refine Triple.bind named_holds fun r => ?_
  rcases r with ⟨_ | dir, _ | ⟨c, next⟩⟩
  · exact fun _ _ hs => hs
  · exact fun _ _ hs => hs
  · exact fun _ _ hs => hs
  refine Triple.bind findEntry_holds fun r => ?_
  obtain ⟨entry, dir, _⟩ := r
  have hfail : Triple never (fun s => Holds [dir] s ∧ Settled dir (DotDot (c :: next)) s)
      (do iput (some dir); return none) fun r => HoldsFound [] r :=
    Triple.intro fun s hs => drop_return hs.1 fun _ ht => ht
  cases entry with
  | some entry =>
      refine Triple.intro fun s hs => From.get ?_
      exact From.bind ((iget_holds hs.1.dev).start hs.1) fun i t ht => makeup_holds.start ht
  | none =>
      refine Triple.ite (fun _ => hfail) fun _ => ?_
      refine Triple.bind keeps_permission fun _ => Triple.ite (fun _ => hfail) fun _ => ?_
      refine Triple.bind addEntry_holds fun entry => Triple.intro fun s hs => From.get ?_
      refine From.bind ((keeps_ialloc holds_diskFree).start hs) fun nr t ht => ?_
      refine From.bind ((keeps_modifyDisk holds_diskFree).start ht) fun _ u hu => From.get ?_
      refine From.bind ((newInode_holds hu.dev).start hu) fun i w hw => Triple.start ?_ hw
      have hd : DiskFree (Holds [i, dir]) := holds_diskFree
      refine Triple.bind keeps_runningTask fun _ => ?_
      exact Triple.bind (keeps_modifyDisk hd) fun _ => makeup_holds

end NeonixPathRefs
