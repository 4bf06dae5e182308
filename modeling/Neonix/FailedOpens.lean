import Neonix.CreationCalls
import Neonix.FailedCalls

/-! # Opens that fail

    `inode_open` creates a file before it asks whether the caller may access it, and its
    rollback takes back references only.  So a failed open has changed nothing exactly if
    it has not come to the creation: `create` is `inode_open` from there on, and it fails
    only where the mode it gives the new file does not grant the access. -/

namespace NeonixFailedOpens

open NeonixMachine NeonixOutcome NeonixByteBits NeonixWords NeonixVolume NeonixAllocators NeonixCalls
  NeonixFileSystem NeonixNamei NeonixFiles NeonixFrames NeonixRuns NeonixInodeRefs NeonixPathRefs
  NeonixReferenceCounts NeonixComponents NeonixDirectories NeonixResolver NeonixWalks
  NeonixPathResolution NeonixBlockTrees NeonixNewEntries NeonixBlindCalls NeonixNewInodes
  NeonixCreations NeonixCreationCalls NeonixFailedCalls

variable {s t u v : Kernel} {path name : Str} {flag mode : BitVec 32} {fuel dir i : Nat}
  {task : Task} {L : List Nat} {sb : SuperDesc} {m : Node} {d : Place}

/-- The flags `inode_open` goes on with. -/
def openFlag (flag : BitVec 32) : BitVec 32 :=
  if flag &&& O_TRUNC ≠ 0 ∧ flag &&& O_ACCMODE = O_RDONLY then flag ||| O_RDWR else flag

/-- The mode of a new file. -/
def newMode (task : Task) (mode : BitVec 32) : BitVec 16 :=
  (mode &&& (0o777 &&& ~~~ task.umask.setWidth 32)).setWidth 16 ||| IFREG

/-- `inode_open` from `add_entry` on. -/
def create (dir : Nat) (name : Str) (flag mode : BitVec 32) : Fs (Option Nat) := do
  let entry ← addEntry dir name
  let nr ← ialloc ((← get).inode_table dir).dev
  modify fun s => s.setEntryNr entry nr
  let s ← get
  let inode ← newInode (s.inode_table dir).dev (s.entryNr entry)
  let task ← runningTask
  modify fun s => s.setMode inode
    ((mode &&& (0o777 &&& ~~~ task.umask.setWidth 32)).setWidth 16 ||| IFREG)
  makeup dir inode flag

/-- The path leads to a directory that has no entry of its last name, and the caller may
    write to it and wants the file created: the walk has come to `u`. -/
structure Creates (s : Kernel) (fuel : Nat) (path : Str) (flag : BitVec 32) (dir : Nat) (name : Str)
    (u : Kernel) : Prop where
  search : ∃ start t, named path fuel s = .ok ((some start, name), t) ∧ name ≠ [] ∧
    ∃ next, findEntry start name name fuel t = .ok ((none, dir, next), u)
  wanted : openFlag flag &&& O_CREAT ≠ 0
  writable : permission dir P_WRITE fuel u = .ok (true, u)

/-- `permission` on a file the task has just created with this mode. -/
def Grants (task : Task) (flag mode : BitVec 32) : Prop :=
  task.uid = KERNEL_USER ∨
    let mask := ACC_MODE (openFlag flag &&& O_ACCMODE)
    let bits :=
      if task.uid = (BitVec.ofNat 16 task.uid).toNat then newMode task mode >>> 6
      else if task.gid = (BitVec.ofNat 8 task.gid).toNat then newMode task mode >>> 3
      else newMode task mode
    bits &&& mask &&& 0b111 = mask

/-- The call creates a file that the caller may not access. -/
def LeavesFile (s : Kernel) (fuel : Nat) (path : Str) (flag mode : BitVec 32) : Prop :=
  (∃ dir name u, Creates s fuel path flag dir name u) ∧
    ∀ task, s.task_table s.current = some task → ¬ Grants task flag mode

/-! ## Without a creation -/

/-- Where the call fails nothing but references is different from `s`, and none is
    held. -/
def Unmade (s : Kernel) (r : Option Nat) (t : Kernel) : Prop := r = none → Beside s [] t

theorem drop_unmade : Triple never (Beside s [i]) (do iput (some i); return none : Fs (Option Nat))
    (Unmade s) :=
  Triple.intro fun _ h => drop_beside h fun _ hu _ => hu

/-- `makeup` for a file that was there. -/
theorem makeup_unmade : Triple never (Beside s [i, dir]) (makeup dir i flag) (Unmade s) := by
  have hfail : Triple never (Beside s [i, dir]) (do
      iput (some dir)
      iput (some i)
      return none : Fs (Option Nat)) (Unmade s) :=
    Triple.intro fun t h => From.bind (iput_beside.start h.swap) fun _ u hu =>
      drop_beside hu fun _ hv _ => hv
  have hopens : ∀ x : Fs Unit, ∀ P : Kernel → Prop, Triple never P (do
      x
      iput (some dir)
      return some i : Fs (Option Nat)) (Unmade s) := by
    intro x P
    refine Triple.intro fun t _ => From.bind (from_any _) fun _ u _ => ?_
    exact From.bind (from_any _) fun _ v _ => From.pure fun h => nomatch h
  refine Triple.bind keeps_permission fun _ => Triple.ite (fun _ => hfail) fun _ => ?_
  exact Triple.bind Keeps.get fun _ => Triple.ite (fun _ => hfail) fun _ => hopens _ _

theorem Creates.after_named {found : Option Nat} {last : Str}
    (h : Creates s fuel path flag dir name u)
    (hnamed : named path fuel s = .ok ((found, last), v)) :
    ∃ start, found = some start ∧ last = name ∧ name ≠ [] ∧
      ∃ next, findEntry start name name fuel v = .ok ((none, dir, next), u) := by
  obtain ⟨start, t, hn, hne, hfind⟩ := h.search
  rw [hnamed] at hn
  cases hn
  exact ⟨start, rfl, rfl, hne, hfind⟩

/-- `inode_open` behind `named`. -/
theorem inodeOpen_found {start : Nat} {r : Option Nat} (hname : name ≠ [])
    (hnamed : named path fuel s = .ok ((some start, name), u)) (hu : Beside s [start] u)
    (hrun : inodeOpen path flag mode fuel s = .ok (r, t)) :
    (∃ dir w, Creates s fuel path flag dir name w ∧
      create dir name (openFlag flag) mode fuel w = .ok (r, t)) ∨
    (¬ ∃ dir name u, Creates s fuel path flag dir name u) ∧ Unmade s r t := by
  obtain ⟨c, cs, rfl⟩ := List.exists_cons_of_ne_nil hname
  rw [inodeOpen, bind_run hnamed] at hrun
  cases hfind : findEntry start (c :: cs) (c :: cs) fuel u with
  | error e =>
      change (findEntry start (c :: cs) (c :: cs) fuel u >>= _) = _ at hrun
      rw [hfind] at hrun
      cases hrun
  | ok p =>
      obtain ⟨⟨entry, dir, next⟩, w⟩ := p
      have hw := findEntry_beside.of_ok hu hfind
      change (findEntry start (c :: cs) (c :: cs) >>= _) fuel u = _ at hrun
      rw [bind_run hfind] at hrun
      -- a creation is one from the state the search has come to
      have hsame : ∀ {dir' : Nat} {name' : Str} {w' : Kernel}, Creates s fuel path flag dir' name' w' →
          entry = none ∧ dir' = dir ∧ name' = c :: cs ∧ w' = w := by
        intro dir' name' w' h
        obtain ⟨start', hstart, hname', -, next', hfind'⟩ := h.after_named hnamed
        cases hstart
        subst hname'
        rw [hfind] at hfind'
        cases hfind'
        exact ⟨rfl, rfl, rfl, rfl⟩
      cases entry with
      | some entry =>
          refine .inr ⟨?_, ?_⟩
          · rintro ⟨_, _, _, h⟩
            cases (hsame h).1
          · have hopen : From never w (do
                let s ← get
                let inode ← iget (s.inode_table dir).dev (s.entryNr entry)
                makeup dir inode (openFlag flag)) (Unmade s) := by
              refine From.get (From.bind ((iget_beside (Holds.dev hw.1)).start hw) fun i x hx => ?_)
              exact makeup_unmade.start hx
            exact hopen.of_ok rfl hrun
      | none =>
          change (if openFlag flag &&& O_CREAT = 0 then _ else _ : Fs (Option Nat)) fuel w =
            _ at hrun
          by_cases hcreat : openFlag flag &&& O_CREAT = 0
          · refine .inr ⟨?_, ?_⟩
            · rintro ⟨_, _, _, h⟩
              exact h.wanted hcreat
            · rw [if_pos hcreat] at hrun
              exact drop_unmade.of_ok hw hrun
          · rw [if_neg hcreat] at hrun
            cases hperm : permission dir P_WRITE fuel w with
            | error e =>
                change (permission dir P_WRITE fuel w >>= _) = _ at hrun
                rw [hperm] at hrun
                cases hrun
            | ok q =>
                obtain ⟨ok, w'⟩ := q
                have hw' : w' = w := (permission_from (t := w)).of_ok rfl hperm
                subst hw'
                rw [bind_run hperm] at hrun
                cases ok with
                | false =>
                    refine .inr ⟨?_, drop_unmade.of_ok hw hrun⟩
                    rintro ⟨_, _, _, h⟩
                    obtain ⟨-, rfl, rfl, rfl⟩ := hsame h
                    have hwritable := h.writable
                    rw [hperm] at hwritable
                    cases hwritable
                | true =>
                    exact .inl ⟨dir, w', ⟨⟨start, u, hnamed, hname, next, hfind⟩, hcreat, hperm⟩, hrun⟩

/-- The call comes to a creation, or its failure leaves everything as it was. -/
theorem inodeOpen_cases {r : Option Nat} (ha : Alive s) (hs : Holds [] s)
    (hrun : inodeOpen path flag mode fuel s = .ok (r, t)) :
    (∃ dir name u, Creates s fuel path flag dir name u ∧
      create dir name (openFlag flag) mode fuel u = .ok (r, t)) ∨
    (¬ ∃ dir name u, Creates s fuel path flag dir name u) ∧ Unmade s r t := by
  have hstart : Beside s [] s := ⟨hs, Same.refl s⟩
  cases hnamed : named path fuel s with
  | error e =>
      change (named path fuel s >>= _) = _ at hrun
      rw [hnamed] at hrun
      cases hrun
  | ok p =>
      obtain ⟨⟨found, last⟩, u⟩ := p
      have hu := (named_beside ha).of_ok hstart hnamed
      cases found with
      | none =>
          rw [inodeOpen, bind_run hnamed] at hrun
          obtain ⟨rfl, rfl⟩ := Prod.mk.inj (Except.ok.inj hrun)
          refine .inr ⟨?_, fun _ => hu⟩
          rintro ⟨_, _, _, h⟩
          obtain ⟨start, hstart, -⟩ := h.after_named hnamed
          cases hstart
      | some start =>
          cases last with
          | nil =>
              rw [inodeOpen, bind_run hnamed] at hrun
              obtain ⟨rfl, rfl⟩ := Prod.mk.inj (Except.ok.inj hrun)
              refine .inr ⟨?_, fun h => nomatch h⟩
              rintro ⟨_, _, _, h⟩
              obtain ⟨-, -, hlast, hne, -⟩ := h.after_named hnamed
              exact hne hlast.symm
          | cons c cs =>
              rcases inodeOpen_found (List.cons_ne_nil c cs) hnamed hu hrun with ⟨dir, w, h⟩ | h
              · exact .inl ⟨dir, c :: cs, w, h⟩
              · exact .inr h

/-! ## The owner of a new file -/

/-- A store to one field of a descriptor keeps the bytes of the others. -/
theorem field_kept {j w k : Nat} (h : Within d.dev (At (d.add j) w) u v) (hk : k < j ∨ j + w ≤ k) :
    v.bytes d k = u.bytes d k := by
  refine h.bytes d.block (d.off + k) fun hat => ?_
  obtain ⟨-, hlo, hhi⟩ := hat
  change d.off + j ≤ d.off + k at hlo
  change d.off + k < d.off + j + w at hhi
  omega

/-- The descriptor of an inode that the task owns. -/
structure Owned (task : Task) (v : Kernel) (d : Place) : Prop where
  uid : u16At (v.bytes d) 2 = BitVec.ofNat 16 task.uid
  gid : v.bytes d 12 = BitVec.ofNat 8 task.gid
  nlinks : v.bytes d 13 = 1

section Stores

variable (hdesc : u.desc i = d)
include hdesc

theorem uid_setUid (x : BitVec 16) : u16At ((u.setUid i x).bytes d) 2 = x := by
  subst hdesc
  have hbytes : ∀ k, (u.setUid i x).bytes (u.desc i) k =
      putU16 (u.disk (u.desc i).dev (u.desc i).block) ((u.desc i).off + 2) x ((u.desc i).off + k) :=
    bytes_setBlock u (u.desc i) _
  rw [u16At, hbytes, hbytes]
  exact u16At_putU16 _ ((u.desc i).off + 2) x

theorem gid_setGid (x : Byte) : (u.setGid i x).bytes d 12 = x := by
  subst hdesc
  exact (bytes_setBlock u (u.desc i) _ 12).trans (if_pos rfl)

theorem nlinks_setNlinks (x : Byte) : (u.setNlinks i x).bytes d 13 = x := by
  subst hdesc
  exact (bytes_setBlock u (u.desc i) _ 13).trans (if_pos rfl)

theorem mode_setMode (x : BitVec 16) : u16At ((u.setMode i x).bytes d) 0 = x := by
  subst hdesc
  have hbytes : ∀ k, (u.setMode i x).bytes (u.desc i) k =
      putU16 (u.disk (u.desc i).dev (u.desc i).block) (u.desc i).off x ((u.desc i).off + k) :=
    bytes_setBlock u (u.desc i) _
  rw [u16At, hbytes, hbytes]
  exact u16At_putU16 _ (u.desc i).off x

/-- The stores of `new_inode` in their order. -/
theorem owned_stores (mode : BitVec 16) (time : BitVec 32) : Owned task
    ((((((u.setMode i mode).setUid i (BitVec.ofNat 16 task.uid)).setSize i 0).setMtime i time).setGid
      i (BitVec.ofNat 8 task.gid)).setNlinks i 1) d := by
  have h0 : (u.setMode i mode).desc i = d := hdesc
  generalize u.setMode i mode = v at h0 ⊢
  have h1 : (v.setUid i (BitVec.ofNat 16 task.uid)).desc i = d := h0
  have huid := uid_setUid h0 (BitVec.ofNat 16 task.uid)
  generalize v.setUid i (BitVec.ofNat 16 task.uid) = v at h1 huid ⊢
  have h2 : (v.setSize i 0).desc i = d := h1
  have hsize := within_setSize h1 0
  have h3 : ((v.setSize i 0).setMtime i time).desc i = d := h1
  have hmtime := within_setMtime h2 time
  have hgid := within_setGid h3 (BitVec.ofNat 8 task.gid)
  have hself := gid_setGid h3 (BitVec.ofNat 8 task.gid)
  generalize (v.setSize i 0).setMtime i time = w at h3 hmtime hgid hself ⊢
  have h4 : (w.setGid i (BitVec.ofNat 8 task.gid)).desc i = d := h3
  have hlinks := within_setNlinks h4 1
  have hkept : ∀ k, 2 ≤ k → k < 4 →
      ((w.setGid i (BitVec.ofNat 8 task.gid)).setNlinks i 1).bytes d k = v.bytes d k := by
    intro k hk hk'
    rw [field_kept hlinks (by omega), field_kept hgid (by omega), field_kept hmtime (by omega),
      field_kept hsize (by omega)]
  refine ⟨?_, ?_, nlinks_setNlinks h4 1⟩
  · rw [← huid, u16At, u16At, hkept 2 (by omega) (by omega), hkept 3 (by omega) (by omega)]
  · rw [field_kept hlinks (by omega), hself]

/-- The mode does not touch the owner. -/
theorem Owned.setMode (h : Owned task u d) (x : BitVec 16) : Owned task (u.setMode i x) d := by
  have hw := within_setMode hdesc x
  refine ⟨?_, ?_, ?_⟩
  · rw [← h.uid, u16At, u16At, field_kept hw (by omega), field_kept hw (by omega)]
  · rw [← h.gid, field_kept hw (by omega)]
  · rw [← h.nlinks, field_kept hw (by omega)]

end Stores

/-! ## A file that was created and is not accessible -/

/-- The running task is this one. -/
def Runs (task : Task) (s : Kernel) : Prop := s.task_table s.current = some task

theorem runs_fixed : Fixed (Runs task) := by
  intro s t _ htasks hcurrent _ _ h
  rw [Runs, htasks, hcurrent]
  exact h

theorem newInode_owned {dev : Dev} {nr : Nat} (h : Runs task u) :
    From never u (newInode dev nr) fun i v => Owned task v (v.desc i) ∧ Runs task v := by
  refine From.bind runningTask_spec ?_
  rintro owner w ⟨hw, howner⟩
  rw [hw]
  have hsame : owner = task := Option.some.inj (howner.symm.trans h)
  subst hsame
  refine From.bind ((keeps_iget runs_fixed).start h) fun i v hv => ?_
  have hstores : Owned owner _ (v.desc i) :=
    owned_stores (u := v) (i := i) rfl (0o777 &&& ~~~ owner.umask) v.time
  have hwithin := within_owned (u := v) (i := i) rfl (0o777 &&& ~~~ owner.umask)
    (BitVec.ofNat 16 owner.uid) (BitVec.ofNat 8 owner.gid) v.time
  refine From.post (Q := fun r w => r = i ∧ Owned owner w (v.desc i) ∧
    Within (v.desc i).dev (At (v.desc i) 14) v w) ?_ ?_
  · exact From.set (From.set (From.set (From.set (From.set (From.set (From.pure
      ⟨rfl, hstores, hwithin⟩))))))
  · rintro _ w ⟨rfl, howned, hw⟩
    rw [hw.tables] at howned ⊢
    exact ⟨howned, hv⟩

/-- `permission` on a file the task owns. -/
theorem permission_owned {mask : BitVec 16} (h : Runs task u) (ho : Owned task u (u.desc i)) :
    From never u (permission i mask) fun ok v => v = u ∧
      (ok = true ↔ task.uid = KERNEL_USER ∨
        (if task.uid = (BitVec.ofNat 16 task.uid).toNat then u.mode i >>> 6
          else if task.gid = (BitVec.ofNat 8 task.gid).toNat then u.mode i >>> 3
          else u.mode i) &&& mask &&& 0b111 = mask) := by
  have huid : u.uid i = BitVec.ofNat 16 task.uid := ho.uid
  have hgid : u.gid i = BitVec.ofNat 8 task.gid := ho.gid
  have hlinks : ¬ u.nlinks i = 0 := by
    rw [Kernel.nlinks, ho.nlinks]
    decide
  refine From.get ?_
  rw [if_neg hlinks]
  refine From.bind runningTask_spec ?_
  rintro owner w ⟨hw, howner⟩
  rw [hw]
  have hsame : owner = task := Option.some.inj (howner.symm.trans h)
  subst hsame
  refine From.ite (fun hroot => From.pure ⟨rfl, iff_of_true rfl (.inl hroot)⟩) fun hroot => ?_
  refine From.pure ⟨rfl, ?_⟩
  rw [huid, hgid, decide_eq_true_eq]
  exact ⟨.inr, fun h => h.resolve_left hroot⟩

theorem not_isDir_newMode (task : Task) (mode : BitVec 32) : ¬ ISDIR (newMode task mode) := by
  intro h
  have hbit := congrArg (fun x => x.getLsbD 15) h
  simp [newMode, IFREG, IFMT, IFDIR] at hbit

/-- `makeup` for a file just created fails exactly if its mode does not grant the access. -/
theorem makeup_created (h : Runs task u) (ho : Owned task u (u.desc i))
    (hmode : u.mode i = newMode task mode) :
    From never u (makeup dir i (openFlag flag)) fun r _ => r = none ↔ ¬ Grants task flag mode := by
  refine From.bind (permission_owned h ho) ?_
  rintro ok v ⟨rfl, hok⟩
  rw [hmode] at hok
  have hgrants : ok = true ↔ Grants task flag mode := hok
  refine From.ite (fun hno => ?_) fun hyes => From.get ?_
  · refine From.bind (from_any _) fun _ _ _ => From.bind (from_any _) fun _ _ _ => From.pure ?_
    exact iff_of_true rfl fun hg => hno (hgrants.mpr hg)
  · rw [if_neg fun hdir => not_isDir_newMode task mode (hmode ▸ hdir.1)]
    refine From.bind (from_any _) fun _ _ _ => From.bind (from_any _) fun _ _ _ => From.pure ?_
    exact iff_of_false nofun fun hno => hno (hgrants.mp (not_not.mp hyes))

theorem create_fails (h : Runs task u) :
    From never u (create dir name (openFlag flag) mode) fun r _ => r = none ↔
    ¬ Grants task flag mode := by
  have hd : DiskFree (Runs task) := runs_fixed.diskFree
  refine From.bind ((keeps_addEntry runs_fixed.stable).start h) fun p v hv => From.get ?_
  refine From.bind ((keeps_ialloc hd).start hv) fun nr w hw => From.set (From.get ?_)
  refine From.bind (newInode_owned (u := w.setEntryNr p nr) hw) ?_
  rintro i x ⟨howned, hx⟩
  refine From.bind runningTask_spec ?_
  rintro owner y ⟨hy, howner⟩
  rw [hy]
  have hsame : owner = task := Option.some.inj (howner.symm.trans hx)
  subst hsame
  exact From.set (makeup_created hx (howned.setMode rfl _) (mode_setMode rfl _))

/-- The path is for a new name in a directory of a sound volume. -/
def NewName (s : Kernel) (path : Str) : Prop :=
  Tree s ∧ ∃ task m name sb d, s.task_table s.current = some task ∧
    resolveParent s task path = some (m, name) ∧ Fit s sb m d ∧ lookup s d name = none ∧
    name ≠ [] ∧ ∀ c ∈ name, c ≠ 0

theorem made_changes (h : Made s sb d name t) : t.disk ≠ s.disk := by
  obtain ⟨e, hins, hlive, -⟩ := h
  intro hdisk
  have hbytes : ∀ p, t.bytes p = s.bytes p := by
    intro p
    funext k
    rw [Kernel.bytes, Kernel.bytes, hdisk]
  by_cases he : e < entriesOf s d
  · -- a free entry was taken
    refine hins.new he ?_
    rw [hins.places e he, Live, Kernel.entryNr, hbytes] at hlive
    exact hlive
  · -- the directory has become longer
    have hsize := hins.size
    have hentries : entriesOf s d = (u32At (s.bytes d) 4).toNat / 16 := rfl
    rw [hbytes] at hsize
    omega

theorem create_changes (ha : Alive s) (hnew : NewName s path)
    (h : Creates s fuel path flag dir name u) {r : Option Nat}
    (hrun : create dir name (openFlag flag) mode fuel u = .ok (r, t)) : t.disk ≠ s.disk := by
  obtain ⟨htree, task, m, last, sb, d, ht, hpath, hfit, habsent, hne, hchars⟩ := hnew
  obtain ⟨start, v, hnamed, -, next, hfind⟩ := h.search
  obtain ⟨j, hj, hm, -, hwalk⟩ := (named_from htree ha ht hpath htree.start).of_ok rfl hnamed
  cases hj
  have hplain := resolveParent_last hpath
  obtain ⟨rfl, -, rfl⟩ := (findEntry_absent hfit hplain habsent hwalk hm).of_ok rfl hfind
  exact made_changes ((openNew_made htree hfit hchars hplain habsent hwalk hm).of_ok rfl hrun)

/-- A failed `inode_open` leaves everything as it was unless it has left a file that the
    caller may not access; and a file it has left, in a directory of a sound volume, is a
    change. -/
theorem failed_open_undone {task fuel : Nat} {time : BitVec 32} (hs : Reach system free s)
    (hlive : ((s.task_table task).any fun t => !t.died) = true)
    (hrun : inodeOpen path flag mode fuel { s with current := task, time := time } = .ok (none, t)) :
    (¬ LeavesFile { s with current := task, time := time } fuel path flag mode → AsBefore s t) ∧
    (LeavesFile { s with current := task, time := time } fuel path flag mode →
      NewName { s with current := task, time := time } path → ¬ AsBefore s t) := by
  have hholds := reach_holds hs
  obtain ⟨caller, htask, hlive⟩ := (Option.any_eq_true ..).mp hlive
  have hstart : Holds [] { s with current := task, time := time } :=
    ⟨hholds.inodes, hholds.files, hholds.free, hholds.listed, hholds.nodup, hholds.mounts,
      hholds.fileEnd, hholds.taskEnd, hholds.top⟩
  have halive : Alive { s with current := task, time := time } :=
    ⟨slot_lt hholds htask, caller, htask, by simpa using hlive⟩
  rcases inodeOpen_cases halive hstart hrun with ⟨dir, name, u, hcreates, hcreate⟩ | ⟨hno, hunmade⟩
  · -- the running task is the caller still, and its file does not grant the access
    have hruns : Runs caller u := by
      obtain ⟨start, v, hnamed, -, next, hfind⟩ := hcreates.search
      have hcaller : Runs caller { s with current := task, time := time } := htask
      have hv : Runs caller v := (keeps_named runs_fixed.stable).of_ok hcaller hnamed
      exact (keeps_findEntry runs_fixed.stable).of_ok hv hfind
    have hdenied : ¬ Grants caller flag mode := ((create_fails hruns).of_ok rfl hcreate).mp rfl
    have hleaves : LeavesFile { s with current := task, time := time } fuel path flag mode := by
      refine ⟨⟨dir, name, u, hcreates⟩, fun owner howner => ?_⟩
      rw [← Option.some.inj (htask.symm.trans howner)]
      exact hdenied
    exact ⟨fun h => absurd hleaves h, fun _ hnew hbefore =>
      create_changes halive hnew hcreates hcreate hbefore.disk⟩
  · refine ⟨fun _ => ?_, fun h => absurd h.1 hno⟩
    obtain ⟨hdisk, hcounts, hinodes⟩ := (hunmade rfl).asBefore hstart
    exact ⟨hdisk, hcounts, hinodes⟩

/-! ## A file for reading only, opened for writing -/

/-- A root directory that everybody may write to, and a task that is not root. -/
def userState : Kernel :=
  { bootState with
    task_table := fun t => if t = 0 then some { bootTask with uid := 1, gid := 1 } else none
    disk := fun _ b k => if b = 4 ∧ k = 0 then 0xFF else bootDisk b k }

theorem userState_ledger : Ledger 0 0 userState := by
  have htasks : ∀ t i, taskHolds (userState.task_table t) i =
      taskHolds (bootState.task_table t) i := by
    intro t i
    by_cases ht : t = 0
    · subst ht
      rfl
    · show taskHolds (if t = 0 then _ else none) i = taskHolds (if t = 0 then _ else none) i
      rw [if_neg ht, if_neg ht]
  have hslots : ∀ t k, taskSlots (userState.task_table t) k =
      taskSlots (bootState.task_table t) k := by
    intro t k
    by_cases ht : t = 0
    · subst ht
      rfl
    · show taskSlots (if t = 0 then _ else none) k = taskSlots (if t = 0 then _ else none) k
      rw [if_neg ht, if_neg ht]
  have hinodes : ∀ i, inodeRefs userState i = inodeRefs bootState i := by
    intro i
    simp only [inodeRefs, htasks]
    rfl
  have hfiles : ∀ k, fileRefs userState k = fileRefs bootState k := by
    intro k
    simp only [fileRefs, hslots]
  have hboot := bootState_ledger
  refine ⟨fun i => ?_, fun k => ?_, hboot.free, hboot.listed, hboot.nodup, hboot.mounts,
    hboot.fileEnd,
    fun t ht => ?_, hboot.top⟩
  · rw [hinodes]
    exact hboot.inodes i
  · rw [hfiles]
    exact hboot.files k
  · have h0 : 0 < TASK_NR := by decide
    exact if_neg (by omega)

/-- `open("/a", O_CREAT | O_RDWR, 0444)` returns `NULL`, and the inode it has taken stays
    taken. -/
theorem open_leaves_file : Reach system free userState ∧
    ∃ t, inodeOpen [0x2F, 0x61] (O_CREAT ||| O_RDWR) 0o444 8 userState = .ok (none, t) ∧
      ¬ AsBefore userState t := by
  refine ⟨Reach.start userState_ledger, ?_⟩
  have hrun : (inodeOpen [0x2F, 0x61] (O_CREAT ||| O_RDWR) 0o444 8 userState).toOption.map
      (fun r => (r.1, r.2.disk 1 2 0)) = some (none, 7) := by decide +kernel
  cases hopen : inodeOpen [0x2F, 0x61] (O_CREAT ||| O_RDWR) 0o444 8 userState with
  | error e =>
      rw [hopen] at hrun
      cases hrun
  | ok r =>
      rw [hopen] at hrun
      obtain ⟨hret, hbyte⟩ := Prod.mk.inj (Option.some.inj hrun)
      refine ⟨r.2, ?_, fun h => ?_⟩
      · rw [← hret]
      · have hsame : r.2.disk 1 2 0 = userState.disk 1 2 0 := by rw [h.disk]
        rw [hbyte] at hsame
        exact absurd hsame (by decide)

/-- Without `O_CREAT` the open of a name that is not there changes nothing. -/
theorem failed_open_undone_missing :
    ∃ t, inodeOpen [0x2F, 0x61] O_RDWR 0 8 bootState = .ok (none, t) ∧ AsBefore bootState t := by
  have hrun : (inodeOpen [0x2F, 0x61] O_RDWR 0 8 bootState).toOption.map Prod.fst = some none := by
    decide +kernel
  cases hopen : inodeOpen [0x2F, 0x61] O_RDWR 0 8 bootState with
  | error e =>
      rw [hopen] at hrun
      cases hrun
  | ok r =>
      obtain ⟨ret, t⟩ := r
      rw [hopen] at hrun
      obtain rfl : ret = none := Option.some.inj hrun
      refine ⟨t, rfl, (failed_open_undone (Reach.start bootState_ledger) rfl hopen).1 ?_⟩
      rintro ⟨⟨_, _, _, hcreates⟩, -⟩
      exact hcreates.wanted (by decide)

end NeonixFailedOpens
