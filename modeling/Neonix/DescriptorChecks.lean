import Neonix.Duplicates

/-! # What the calls on descriptors check

    Eight calls take descriptors, and each looks a descriptor up before it goes on with
    the open file: `run` is a call, `check` the part of it that looks up.  A lookup is
    good if it indexes `task->files` inside and goes on with a file that is there, or
    returns an error; `InRange` says for which descriptors it is. -/

namespace NeonixDescriptorChecks

open NeonixMachine NeonixOutcome NeonixByteBits NeonixVolume NeonixCalls NeonixFileSystem NeonixNamei
  NeonixFiles NeonixFileData NeonixFrames NeonixRuns NeonixInodeRefs NeonixPathRefs NeonixDescriptorRefs
  NeonixWiredTables NeonixDuplicates

def EBADF : Int := 9
def EINVAL : Int := 22
def ENOTTY : Int := 25
def DEVICE_NR : Nat := 64

/-! ## `fs/stat.c` and `fs/ioctl.c` -/

/-- `sys_fstat`, less the copy to the caller. -/
def sysFstat (fd : Int) : Fs Int := do
  if fd ≥ TASK_FILE_NR then return EOF
  else
    match ← getFd fd with
    | none => return EOF
    | some file =>
        assert ((← get).file_table file).inode.isSome
        return 0

section Ioctl

-- what `device_ioctl` does
variable (deviceIoctl : Nat → Int → Nat → Fs Int)

/-- `sys_ioctl`. -/
def sysIoctl (fd cmd : Int) (args : Nat) : Fs Int := do
  if fd ≥ TASK_FILE_NR then return -EBADF
  else
    match ← getFd fd with
    | none => return -EBADF
    | some file =>
        let s ← get
        let inode ← deref (s.file_table file).inode
        if ¬ ISCHR (s.mode inode) ∧ ¬ ISBLK (s.mode inode) then return -EINVAL
        else
          let dev := (s.index (s.zone inode) 0).toNat
          if dev ≥ DEVICE_NR then return -ENOTTY
          else deviceIoctl dev cmd args

end Ioctl

/-! ## The calls -/

/-- A call and the values it is given; `sys_write` has an unsigned descriptor. -/
inductive DescriptorCall where
  | read (fd : BitVec 32) (count : Int)
  | write (fd : BitVec 32) (buf : Nat → Byte) (count : Int)
  | lseek (fd : BitVec 32) (offset : Int) (whence : Whence)
  | close (fd : BitVec 32)
  | dup (oldfd : BitVec 32)
  | dup2 (oldfd newfd : BitVec 32)
  | fstat (fd : BitVec 32)
  | ioctl (fd : BitVec 32) (cmd : Int) (args : Nat)

/-- What a lookup comes to: the call returns, or goes on with an open file. -/
inductive Lookup where
  | returns (r : Int)
  | file (k : Nat)

/-- `task->files[fd]`; an index outside stops the call. -/
def slotAt (fd : Int) : Fs (Option Nat) := do
  if 0 ≤ fd ∧ fd < TASK_FILE_NR then
    let task ← runningTask
    return task.files fd.toNat
  else halt .outOfBounds

/-- The file is asserted to be there: `sys_read`, `sys_write`, `sys_lseek`. -/
def asserted (fd : Int) : Fs Lookup := do
  match ← slotAt fd with
  | none => halt .assertion
  | some k => return .file k

/-- Where it is not there the call returns. -/
def tested (fd r : Int) : Fs Lookup := do
  match ← slotAt fd with
  | none => return .returns r
  | some k => return .file k

/-- The descriptor is compared with the length first: `dupfd`, `sys_fstat`,
    `sys_ioctl`. -/
def compared (fd r : Int) : Fs Lookup :=
  if fd ≥ TASK_FILE_NR then return .returns r else tested fd r

/-- How each call looks up. -/
def check : DescriptorCall → Fs Lookup
  | .read fd _ => asserted fd.toInt
  | .write fd _ _ => asserted fd.toNat
  | .lseek fd _ _ => do
      assert (fd.toInt < TASK_FILE_NR)
      asserted fd.toInt
  | .close fd => do
      assert (fd.toInt < TASK_FILE_NR)
      tested fd.toInt 0
  | .dup oldfd => compared oldfd.toInt EOF
  | .dup2 oldfd newfd => do
      sysClose newfd.toInt
      compared oldfd.toInt EOF
  | .fstat fd => compared fd.toInt EOF
  | .ioctl fd _ _ => compared fd.toInt (-EBADF)

section Calls

-- what the drivers do
variable (specialRead : Nat → Int → Fs (Int × List Byte))
  (specialWrite : Nat → (Nat → Byte) → Int → Fs Int) (deviceIoctl : Nat → Int → Nat → Fs Int)

/-- What a call returns; `sys_close` returns nothing, here 0. -/
def run : DescriptorCall → Fs Int
  | .read fd count => do
      let (len, _) ← sysRead specialRead fd.toInt count
      return len
  | .write fd buf count => sysWrite specialWrite fd.toNat buf count
  | .lseek fd offset whence => sysLseek fd.toInt offset whence
  | .close fd => do
      sysClose fd.toInt
      return 0
  | .dup oldfd => sysDup oldfd.toInt
  | .dup2 oldfd newfd => sysDup2 oldfd.toInt newfd.toInt
  | .fstat fd => sysFstat fd.toInt
  | .ioctl fd cmd args => sysIoctl deviceIoctl fd.toInt cmd args

/-- A lookup, and what comes after it. -/
def andThen (x : Fs Lookup) (goOn : Nat → Fs Int) : Fs Int := do
  match ← x with
  | .returns r => return r
  | .file k => goOn k

theorem getFd_slotAt {fd : Int} (h : fd < TASK_FILE_NR) : getFd fd = slotAt fd := by
  rw [getFd, slotAt]
  by_cases hneg : fd < 0
  · rw [if_pos hneg, if_neg (by omega)]
  · rw [if_neg hneg, if_pos (by omega)]

/-- The calls that assert the file to be there. -/
theorem openFile_asserted {fd : Int} {f : Nat → Fs Int} :
    (openFile fd >>= f) = andThen (asserted fd) f := by
  rw [openFile]
  by_cases hfd : fd ≥ TASK_FILE_NR
  · rw [if_pos hfd, andThen, asserted, slotAt, if_neg (by omega)]
    rfl
  · rw [if_neg hfd, getFd_slotAt (by omega), andThen, asserted]
    simp only [bind_assoc]
    congr 1
    funext file
    cases file with
    | none => rfl
    | some k => rfl

/-- The calls that return where it is not. -/
theorem tested_andThen {fd r : Int} {f : Option Nat → Fs Int} {g : Nat → Fs Int}
    (hnone : f none = return r) (hsome : ∀ k, f (some k) = g k) :
    (slotAt fd >>= f) = andThen (tested fd r) g := by
  rw [andThen, tested]
  simp only [bind_assoc]
  congr 1
  funext file
  cases file with
  | none => exact hnone
  | some k => exact hsome k

theorem compared_andThen {fd r : Int} {f : Option Nat → Fs Int} {g : Nat → Fs Int}
    (hnone : f none = return r) (hsome : ∀ k, f (some k) = g k) :
    (if fd ≥ TASK_FILE_NR then return r else getFd fd >>= f) = andThen (compared fd r) g := by
  rw [compared]
  by_cases hfd : fd ≥ TASK_FILE_NR
  · rw [if_pos hfd, if_pos hfd]
    rfl
  · rw [if_neg hfd, if_neg hfd, getFd_slotAt (by omega)]
    exact tested_andThen hnone hsome

theorem assert_andThen {p : Prop} [Decidable p] {x : Fs Int} {y : Fs Lookup} {g : Nat → Fs Int}
    (h : p → x = andThen y g) : (assert p >>= fun _ => x) =
    andThen (assert p >>= fun _ => y) g := by
  rw [andThen]
  by_cases hp : p
  · rw [assert, if_pos hp]
    exact h hp
  · rw [assert, if_neg hp]
    rfl

theorem dupfd_check (fd arg : Int) : ∃ goOn, dupfd fd arg = andThen (compared fd EOF) goOn :=
  ⟨_, compared_andThen rfl fun _ => rfl⟩

/-- **A CALL IS ITS LOOKUP** and what it does with the open file. -/
theorem run_check (call : DescriptorCall) :
    ∃ goOn, run specialRead specialWrite deviceIoctl call = andThen (check call) goOn := by
  cases call with
  | read fd count => exact ⟨_, (bind_assoc ..).trans openFile_asserted⟩
  | write fd buf count => exact ⟨_, openFile_asserted⟩
  | lseek fd offset whence => exact ⟨_, assert_andThen fun _ => openFile_asserted⟩
  | close fd =>
      let goOn : Nat → Fs Int := fun file => do
        assert ((← get).file_table file).inode.isSome
        putFile file
        setFd fd.toInt.toNat none
        return 0
      refine ⟨goOn, (bind_assoc ..).trans (assert_andThen fun hlt => ?_)⟩
      rw [getFd_slotAt hlt, bind_assoc]
      refine tested_andThen rfl fun k => ?_
      simp only [goOn, bind_assoc]
  | dup oldfd => exact dupfd_check oldfd.toInt 0
  | dup2 oldfd newfd =>
      obtain ⟨goOn, hdup⟩ := dupfd_check oldfd.toInt newfd.toInt
      refine ⟨goOn, ?_⟩
      show (sysClose newfd.toInt >>= fun _ => dupfd oldfd.toInt newfd.toInt) = _
      rw [hdup]
      exact (bind_assoc ..).symm
  | fstat fd => exact ⟨_, compared_andThen rfl fun _ => rfl⟩
  | ioctl fd cmd args => exact ⟨_, compared_andThen rfl fun _ => rfl⟩

end Calls

/-! ## Good lookups -/

/-- The descriptors a call indexes with, the one it copies or uses first. -/
def descriptors : DescriptorCall → List Int
  | .read fd _ | .lseek fd _ _ | .close fd | .dup fd | .fstat fd | .ioctl fd _ _ => [fd.toInt]
  | .write fd _ _ => [fd.toNat]
  | .dup2 oldfd newfd => [oldfd.toInt, newfd.toInt]

/-- The call returns an error, which `sys_close` cannot, or it has indexed inside and
    found an open file. -/
def Good (task : Task) (call : DescriptorCall) : Lookup → Prop
  | .returns r => r < 0 ∨ ∃ fd, call = .close fd
  | .file k => (∀ fd ∈ descriptors call, 0 ≤ fd ∧ fd < TASK_FILE_NR) ∧
      ∃ fd ∈ descriptors call, task.files fd.toNat = some k

/-- The lookup does not stop, and what it comes to is good. -/
def Checked (s : Kernel) (task : Task) (call : DescriptorCall) : Prop :=
  ∀ fuel, ∃ r t, check call fuel s = .ok (r, t) ∧ Good task call r

def Inside (fd : Int) : Prop := 0 ≤ fd ∧ fd < TASK_FILE_NR

/-- The descriptors a call checks well. -/
def InRange (task : Task) : DescriptorCall → Prop
  | .read fd _ | .lseek fd _ _ => Inside fd.toInt ∧ task.files fd.toInt.toNat ≠ none
  | .write fd _ _ => Inside fd.toNat ∧ task.files fd.toNat ≠ none
  | .close fd => Inside fd.toInt
  | .dup fd | .fstat fd | .ioctl fd _ _ => 0 ≤ fd.toInt
  | .dup2 oldfd newfd => Inside newfd.toInt ∧ 0 ≤ oldfd.toInt

section Lookups

variable {s t : Kernel} {task : Task} {fd e : Int} {fuel : Nat} {r : Lookup}

/-- What a slot of the table comes to where the call returns `e` for an empty one. -/
def found (e : Int) : Option Nat → Lookup
  | none => .returns e
  | some k => .file k

theorem slotAt_run (fd : Int) (fuel : Nat) (ht : s.task_table s.current = some task) :
    slotAt fd fuel s =
    if 0 ≤ fd ∧ fd < TASK_FILE_NR then .ok (task.files fd.toNat, s) else .error (.stopped .outOfBounds) := by
  rw [slotAt]
  by_cases hin : 0 ≤ fd ∧ fd < TASK_FILE_NR
  · rw [if_pos hin, if_pos hin]
    have htask : runningTask fuel s = .ok (task, s) := by
      show deref (s.task_table s.current) fuel s = _
      rw [ht]
      rfl
    exact bind_run htask
  · rw [if_neg hin, if_neg hin]
    rfl

theorem slot_ok (ht : s.task_table s.current = some task) {f : Option Nat → Fs Lookup} :
    (slotAt fd >>= f) fuel s = .ok (r, t) ↔ Inside fd ∧
    f (task.files fd.toNat) fuel s = .ok (r, t) := by
  have hslot := slotAt_run fd fuel ht
  by_cases hin : 0 ≤ fd ∧ fd < TASK_FILE_NR
  · rw [if_pos hin] at hslot
    rw [bind_run hslot]
    exact ⟨fun h => ⟨hin, h⟩, And.right⟩
  · rw [if_neg hin] at hslot
    refine ⟨fun h => ?_, fun h => absurd h.1 hin⟩
    change (slotAt fd fuel s >>= fun a => f a.1 fuel a.2) = _ at h
    rw [hslot] at h
    cases h

/-- A lookup that has returned a value returned this one. -/
theorem pure_ok {α : Type} {a b : α} : (return a : Fs α) fuel s = .ok (b, t) ↔ t = s ∧ b = a := by
  constructor
  · intro h
    obtain ⟨rfl, rfl⟩ := Prod.mk.inj (Except.ok.inj h)
    exact ⟨rfl, rfl⟩
  · rintro ⟨rfl, rfl⟩
    rfl

theorem asserted_ok (ht : s.task_table s.current = some task) : asserted fd fuel s = .ok (r, t) ↔
    Inside fd ∧ t = s ∧ ∃ k, task.files fd.toNat = some k ∧ r = .file k := by
  rw [asserted, slot_ok ht]
  refine and_congr_right fun _ => ?_
  cases task.files fd.toNat with
  | none => exact ⟨fun h => (nomatch h), fun ⟨_, _, hk, _⟩ => (nomatch hk)⟩
  | some k =>
      refine pure_ok.trans (and_congr_right fun _ => ⟨fun h => ⟨k, rfl, h⟩, ?_⟩)
      rintro ⟨k', hk, h⟩
      rw [h, Option.some.inj hk]

theorem tested_ok (ht : s.task_table s.current = some task) : tested fd e fuel s = .ok (r, t) ↔
    Inside fd ∧ t = s ∧ r = found e (task.files fd.toNat) := by
  rw [tested, slot_ok ht]
  refine and_congr_right fun _ => ?_
  cases task.files fd.toNat with
  | none => exact pure_ok
  | some k => exact pure_ok

theorem compared_ok (ht : s.task_table s.current = some task) : compared fd e fuel s = .ok (r, t) ↔
    t = s ∧ (TASK_FILE_NR ≤ fd ∧ r = .returns e ∨ Inside fd ∧ r = found e (task.files fd.toNat)) := by
  rw [compared]
  by_cases hfd : fd ≥ TASK_FILE_NR
  · have hout : ¬ Inside fd := fun h => absurd h.2 (not_lt.mpr hfd)
    rw [if_pos hfd, pure_ok]
    refine and_congr_right fun _ => ⟨fun h => Or.inl ⟨hfd, h⟩, fun h => ?_⟩
    exact h.elim And.right fun h => absurd h.1 hout
  · rw [if_neg hfd, tested_ok ht, and_left_comm]
    exact and_congr_right fun _ => ⟨Or.inr, fun h => h.resolve_left fun h => hfd h.1⟩

theorem assert_ok {α : Type} {p : Prop} [Decidable p] {x : Fs α} {a : α} :
    (assert p >>= fun _ => x) fuel s = .ok (a, t) ↔ p ∧ x fuel s = .ok (a, t) := by
  rw [assert]
  by_cases hp : p
  · rw [if_pos hp]
    exact ⟨fun h => ⟨hp, h⟩, And.right⟩
  · rw [if_neg hp]
    refine ⟨fun h => ?_, fun h => absurd h.1 hp⟩
    cases h

/-- What an error or an open file comes to is good. -/
theorem good_found {call : DescriptorCall} (files : Nat → Option Nat)
    (he : e < 0 ∨ ∃ fd, call = .close fd)
    (hin : ∀ fd ∈ descriptors call, Inside fd) (hfd : fd ∈ descriptors call)
    (hfiles : ∀ k, files fd.toNat = some k → task.files fd.toNat = some k) :
    Good task call (found e (files fd.toNat)) := by
  cases hk : files fd.toNat with
  | none => exact he
  | some k => exact ⟨hin, fd, hfd, hfiles k hk⟩

theorem asserted_checked {call : DescriptorCall}
    (hcall : descriptors call = [fd]) (hcheck : ∀ fuel r t, check call fuel s = .ok (r, t) ↔
      Inside fd ∧ t = s ∧ ∃ k, task.files fd.toNat = some k ∧ r = .file k) :
    Checked s task call ↔ Inside fd ∧ task.files fd.toNat ≠ none := by
  constructor
  · intro h
    obtain ⟨r, t, hrun, -⟩ := h 0
    obtain ⟨hin, -, k, hk, -⟩ := (hcheck 0 r t).mp hrun
    exact ⟨hin, Option.ne_none_iff_exists'.mpr ⟨k, hk⟩⟩
  · rintro ⟨hin, hne⟩ fuel
    obtain ⟨k, hk⟩ := Option.ne_none_iff_exists'.mp hne
    refine ⟨.file k, s, (hcheck fuel _ _).mpr ⟨hin, rfl, k, hk, rfl⟩, ?_⟩
    rw [Good, hcall]
    exact ⟨fun fd' hfd' => List.mem_singleton.mp hfd' ▸ hin, fd, List.mem_singleton_self fd, hk⟩

theorem compared_checked (ht : s.task_table s.current = some task) {call : DescriptorCall}
    (hcall : descriptors call = [fd]) (he : e < 0) (hcheck : check call = compared fd e) :
    Checked s task call ↔ 0 ≤ fd := by
  constructor
  · intro h
    obtain ⟨r, t, hrun, -⟩ := h 0
    rw [hcheck, compared_ok ht] at hrun
    rcases hrun.2 with ⟨hout, -⟩ | ⟨hin, -⟩
    · exact le_trans (Int.natCast_nonneg _) hout
    · exact hin.1
  · intro hfd fuel
    by_cases hin : fd < TASK_FILE_NR
    · refine ⟨_, s, ?_, good_found _ (Or.inl he) ?_ (hcall ▸ List.mem_singleton_self fd) fun _ hk => hk⟩
      · rw [hcheck, compared_ok ht]
        exact ⟨rfl, Or.inr ⟨⟨hfd, hin⟩, rfl⟩⟩
      · intro fd' hfd'
        rw [hcall] at hfd'
        exact List.mem_singleton.mp hfd' ▸ ⟨hfd, hin⟩
    · refine ⟨.returns e, s, ?_, Or.inl he⟩
      rw [hcheck, compared_ok ht]
      exact ⟨rfl, Or.inl ⟨not_lt.mp hin, rfl⟩⟩

theorem close_checked (ht : s.task_table s.current = some task) {fd : BitVec 32} :
    Checked s task (.close fd) ↔ Inside fd.toInt := by
  constructor
  · intro h
    obtain ⟨r, t, hrun, -⟩ := h 0
    exact ((tested_ok ht).mp (assert_ok.mp hrun).2).1
  · intro hin fuel
    refine ⟨_, s, assert_ok.mpr ⟨hin.2, (tested_ok ht).mpr ⟨hin, rfl, rfl⟩⟩, ?_⟩
    refine good_found _ (Or.inr ⟨fd, rfl⟩) (fun fd' hfd' => ?_) (List.mem_singleton_self _) fun _ hk => hk
    exact List.mem_singleton.mp hfd' ▸ hin

/-- `sys_close` returns only for a descriptor inside. -/
theorem sysClose_inside : From never s (sysClose fd) fun _ _ => Inside fd := by
  refine from_assert fun hlt => From.bind getFd_spec ?_
  rintro file s ⟨rfl, hneg, -⟩
  exact From.of_runs fun _ _ _ _ => ⟨hneg, hlt⟩

/-- The old descriptor of `dup2` is looked up in the table the close leaves. -/
theorem dup2_checked (hl : Ledger 0 0 s) (hw : Wired s) (ha : Alive s)
    (ht : s.task_table s.current = some task) {oldfd newfd : BitVec 32} :
    Checked s task (.dup2 oldfd newfd) ↔ Inside newfd.toInt ∧ 0 ≤ oldfd.toInt := by
  -- the table the close leaves
  have hclosed : ∀ {n : Nat} {u : Kernel}, newfd.toInt = n →
      (∃ fuel, sysClose newfd.toInt fuel s = .ok ((), u)) →
      u.task_table u.current = some { task with files := Function.update task.files n none } := by
    rintro n u hn ⟨fuel, hrun⟩
    rw [hn] at hrun
    obtain ⟨hcur, htable⟩ := (sysClose_tables ht).of_ok rfl hrun
    rw [hcur, htable, Function.update_self]
  constructor
  · intro h
    obtain ⟨r, t, hrun, -⟩ := h 0
    cases hclose : sysClose newfd.toInt 0 s with
    | error e =>
        change (sysClose newfd.toInt 0 s >>= fun a => compared oldfd.toInt EOF 0 a.2) = _ at hrun
        rw [hclose] at hrun
        cases hrun
    | ok a =>
        obtain ⟨⟨⟩, u⟩ := a
        have hin : Inside newfd.toInt := sysClose_inside.of_ok rfl hclose
        obtain ⟨n, hn⟩ := Int.eq_ofNat_of_zero_le hin.1
        rw [check, bind_run hclose, compared_ok (hclosed hn ⟨0, hclose⟩)] at hrun
        rcases hrun.2 with ⟨hout, -⟩ | ⟨hold, -⟩
        · exact ⟨hin, le_trans (Int.natCast_nonneg _) hout⟩
        · exact ⟨hin, hold.1⟩
  · rintro ⟨hin, hold⟩ fuel
    obtain ⟨n, hn⟩ := Int.eq_ofNat_of_zero_le hin.1
    have hlt : n < TASK_FILE_NR := by
      have := hin.2
      omega
    obtain ⟨⟨⟩, u, hclose, -⟩ := (sysClose_returns hl hw ha ht hlt).returns fuel
    rw [← hn] at hclose
    have hu := hclosed hn ⟨fuel, hclose⟩
    by_cases hlt' : oldfd.toInt < TASK_FILE_NR
    · refine ⟨found EOF (Function.update task.files n none oldfd.toInt.toNat), u, ?_,
        good_found _ (Or.inl (by decide)) ?_ ?_ ?_⟩
      · rw [check, bind_run hclose, compared_ok hu]
        exact ⟨rfl, Or.inr ⟨⟨hold, hlt'⟩, rfl⟩⟩
      · intro fd' hfd'
        rcases List.mem_cons.mp hfd' with rfl | hfd'
        · exact ⟨hold, hlt'⟩
        · exact List.mem_singleton.mp hfd' ▸ hin
      · exact List.mem_cons_self
      · -- a file that is still there was there before
        intro k hk
        by_cases heq : oldfd.toInt.toNat = n
        · rw [heq, Function.update_self] at hk
          cases hk
        · rwa [Function.update_of_ne heq] at hk
    · refine ⟨.returns EOF, u, ?_, Or.inl (by decide)⟩
      rw [check, bind_run hclose, compared_ok hu]
      exact ⟨rfl, Or.inl ⟨not_lt.mp hlt', rfl⟩⟩

end Lookups

/-- **THE DESCRIPTORS THAT ARE CHECKED**: in every state that calls lead to, each call is
    its lookup and a rest, and the lookup is good exactly if the descriptors are in
    range. -/
theorem descriptors_checked {s : Kernel} {c : Nat} {task : Task}
    (specialRead : Nat → Int → Fs (Int × List Byte))
    (specialWrite : Nat → (Nat → Byte) → Int → Fs Int)
    (deviceIoctl : Nat → Int → Nat → Fs Int) (h : Reach system free s)
    (ht : s.task_table c = some task)
    (hlive : task.died = false) (call : DescriptorCall) :
    (∃ goOn, run specialRead specialWrite deviceIoctl call = andThen (check call) goOn) ∧
      (Checked (enter s c) task call ↔ InRange task call) := by
  obtain ⟨hl, hw, ha, -⟩ := enter_ready (reach_wired h) ht hlive
  have ht' : (enter s c).task_table (enter s c).current = some task := ht
  refine ⟨run_check specialRead specialWrite deviceIoctl call, ?_⟩
  cases call with
  | read fd count => exact asserted_checked rfl fun _ _ _ => asserted_ok ht'
  | write fd buf count => exact asserted_checked rfl fun _ _ _ => asserted_ok ht'
  | lseek fd offset whence =>
      refine asserted_checked rfl fun fuel r t => assert_ok.trans ?_
      rw [asserted_ok ht']
      exact ⟨And.right, fun hrun => ⟨hrun.1.2, hrun⟩⟩
  | close fd => exact close_checked ht'
  | dup oldfd => exact compared_checked ht' rfl (by decide) rfl
  | dup2 oldfd newfd => exact dup2_checked hl hw ha ht'
  | fstat fd => exact compared_checked ht' rfl (by decide) rfl
  | ioctl fd cmd args => exact compared_checked ht' rfl (by decide) rfl

/-- The drivers of a system without devices. -/
def noRead : Nat → Int → Fs (Int × List Byte) := fun _ _ => return (EOF, [])
def noWrite : Nat → (Nat → Byte) → Int → Fs Int := fun _ _ _ => return EOF
def noIoctl : Nat → Int → Nat → Fs Int := fun _ _ _ => return EOF

theorem descriptors_checked_dup : ∃ s task, follow free Enabled exec NeonixReferenceCounts.bootState openRun = some s ∧
    (∃ goOn, run noRead noWrite noIoctl (.dup 3) = andThen (check (.dup 3)) goOn) ∧
      (Checked (enter s 0) task (.dup 3) ↔ InRange task (.dup 3)) := by
  obtain ⟨s, task, hs, hreach, ht, hlive, -⟩ := openRun_opened
  exact ⟨s, task, hs, descriptors_checked noRead noWrite noIoctl hreach ht hlive (.dup 3)⟩

/-- A descriptor of -1 is not compared with 0. -/
theorem dup_negative : ∃ s task, Reach system free s ∧ s.task_table 0 = some task ∧
    task.died = false ∧
    ¬ Checked (enter s 0) task (.dup (-1)) := by
  obtain ⟨s, task, hs, hreach, ht, hlive, -⟩ := openRun_opened
  refine ⟨s, task, hreach, ht, hlive, fun h => ?_⟩
  obtain ⟨r, t, hrun, -⟩ := h 0
  have hstop : check (.dup (-1)) 0 (enter s 0) = .error (.stopped .outOfBounds) := rfl
  rw [hstop] at hrun
  cases hrun

end NeonixDescriptorChecks
