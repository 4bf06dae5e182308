import Neonix.BlockTrees
import Neonix.Components
import Neonix.Duplicates
import Neonix.NewInodes

/-! # Access rights of opened files

    `inode_open` checks the rights of the caller behind `find_entry`, and returns
    before it where `named` leaves nothing behind the last separator.  So the rights are
    enforced for the paths that do not end in a separator; for the others they are if
    the directory happens to grant what is asked. -/

namespace NeonixAccessRights

open NeonixMachine NeonixOutcome NeonixByteBits NeonixWords NeonixVolume NeonixCalls NeonixFileSystem
  NeonixNamei NeonixFiles NeonixFileData NeonixFrames NeonixRuns NeonixComponents NeonixBlockTrees NeonixNewInodes
  NeonixInodeRefs NeonixPathRefs NeonixDescriptorRefs NeonixWiredTables NeonixDuplicates

variable {s t u : Kernel} {i j k : Nat} {task : Task} {path : Str}

/-! ## Paths -/

/-- The last byte of the path is a separator. -/
def EndsInSeparator (path : Str) : Prop := ∃ c, path.getLast? = some c ∧ isSeparator c

instance (path : Str) : Decidable (EndsInSeparator path) :=
  decidable_of_iff ((path.getLast?.any fun c => isSeparator c) = true) (by
    rw [EndsInSeparator, Option.any_eq_true]
    simp only [decide_eq_true_eq])

theorem endsInSeparator_cons {c : Byte} (h : path ≠ []) :
    EndsInSeparator (c :: path) ↔ EndsInSeparator path := by
  cases path with
  | nil => exact absurd rfl h
  | cons c' path => rw [EndsInSeparator, EndsInSeparator, List.getLast?_cons_cons]

theorem endsInSeparator_single {c : Byte} : EndsInSeparator [c] ↔ isSeparator c := by
  simp [EndsInSeparator]

/-- A path without a separator does not end in one. -/
theorem not_endsInSeparator (h : strrsep path = none) : ¬ EndsInSeparator path := by
  rintro ⟨c, hlast, hsep⟩
  exact strrsep_eq_none.mp h ⟨c, List.mem_of_getLast? hlast, hsep⟩

/-- Nothing is behind the last separator of the paths that end in one. -/
theorem tail_eq_nil {last : Str} (h : strrsep path = some last) :
    last.tail = [] ↔ EndsInSeparator path := by
  induction path generalizing last with
  | nil => cases h
  | cons c path ih =>
      rw [strrsep] at h
      cases hrest : strrsep path with
      | some l =>
          rw [hrest] at h
          obtain rfl := Option.some.inj h
          have hne : path ≠ [] := by
            rintro rfl
            cases hrest
          rw [ih hrest, endsInSeparator_cons hne]
      | none =>
          rw [hrest] at h
          by_cases hc : isSeparator c
          · rw [if_pos hc] at h
            obtain rfl := Option.some.inj h
            rw [List.tail_cons]
            by_cases hnil : path = []
            · rw [hnil, endsInSeparator_single]
              exact iff_of_true rfl hc
            · rw [endsInSeparator_cons hnil]
              exact iff_of_false hnil (not_endsInSeparator hrest)
          · rw [if_neg hc] at h
            cases h

/-- Nothing is said of a call. -/
theorem any_call {α : Type} (x : Fs α) : Triple never (fun _ => True) x fun _ _ => True :=
  Triple.intro fun _ _ => From.of_runs fun _ _ _ _ => trivial

/-- The walk ends at the component behind the last separator. -/
theorem namedLoop_rest {right : Str} : ∀ {fuel inode : Nat} {left next : Str},
    Triple never (fun _ => True) (namedLoop right fuel inode left next)
      fun r _ => r.1 ≠ none → r.2 = right := by
  intro fuel
  induction fuel with
  | zero => exact Triple.stop not_false
  | succ fuel ih =>
      intro inode left next
      have hfail : ∀ {m : Nat} {next : Str}, Triple never (fun _ => True)
          (do iput (some m); return (none, next) : Fs (Option Nat × Str)) fun r _ => r.1 ≠ none →
          r.2 = right :=
        Triple.bind (any_call _) fun _ _ _ _ h => absurd rfl h
      refine Triple.bind (any_call _) fun r => ?_
      obtain ⟨entry, m, next⟩ := r
      cases entry with
      | none => exact hfail
      | some entry =>
          refine Triple.bind (any_call _) fun _ => Triple.bind (any_call _) fun _ => ?_
          refine Triple.bind (any_call _) fun _ => Triple.bind (any_call _) fun m' => ?_
          refine Triple.bind (any_call _) fun _ => Triple.ite (fun _ => hfail) fun _ => ?_
          refine Triple.bind (any_call _) fun _ => Triple.ite (fun _ => hfail) fun _ => ?_
          exact Triple.ite (fun heq => fun _ _ _ _ => heq.symm) fun _ => ih

theorem namedFrom_rest {inode : Nat} {left : Str} :
    Triple never (fun _ => True) (namedFrom inode left)
    fun r _ => r.1 ≠ none → (r.2 = [] ↔ left = [] ∨ EndsInSeparator left) := by
  refine Triple.bind (any_call _) fun _ => Triple.ite (fun hnil => ?_) fun hne => ?_
  · exact fun _ _ _ _ => iff_of_true hnil (Or.inl hnil)
  · cases hlast : strrsep left with
    | none =>
        refine fun _ _ _ _ => iff_of_false hne ?_
        exact not_or.mpr ⟨hne, not_endsInSeparator hlast⟩
    | some last =>
        refine Triple.bind (any_call _) fun fuel => namedLoop_rest.post fun r _ hr hfound => ?_
        rw [hr hfound, tail_eq_nil hlast]
        exact (or_iff_right hne).symm

/-- `named` leaves nothing of the paths that end in a separator. -/
theorem named_rest : Triple never (fun _ => True) (named path)
    fun r _ => r.1 ≠ none → (r.2 = [] ↔ EndsInSeparator path) := by
  refine Triple.bind (any_call _) fun task => ?_
  cases path with
  | nil => exact fun _ _ _ h => absurd rfl h
  | cons c rest =>
      refine Triple.ite (fun hc => ?_) fun hc => ?_
      · refine namedFrom_rest.post fun r _ hr hfound => ?_
        rw [hr hfound]
        by_cases hnil : rest = []
        · rw [hnil, endsInSeparator_single]
          exact iff_of_true (Or.inl rfl) hc
        · rw [endsInSeparator_cons hnil]
          exact or_iff_right hnil
      · refine namedFrom_rest.post fun r _ hr hfound => ?_
        rw [hr hfound]
        exact or_iff_right (List.cons_ne_nil _ _)

/-! ## What rights depend on -/

/-- A byte of a descriptor that `permission` or a test of the type reads. -/
def RightsByte (k : Nat) : Prop := k < 4 ∨ k = 12 ∨ k = 13

/-- Of a descriptor these bytes are the same, and of the tables all. -/
structure SameRights (d : Place) (s u : Kernel) : Prop where
  bytes : ∀ k, RightsByte k → u.bytes d k = s.bytes d k
  tables : u = { s with disk := u.disk }

theorem SameRights.refl {d : Place} : SameRights d s s := ⟨fun _ _ => rfl, rfl⟩

/-- Stores to other bytes. -/
theorem SameRights.within {d : Place} {e : Dev} {W : Nat → Nat → Prop} (h : SameRights d s t)
    (hw : Within e W t u) (hout : d.dev = e → ∀ k, RightsByte k → ¬ W d.block (d.off + k)) :
    SameRights d s u := by
  refine ⟨fun k hk => ?_, ?_⟩
  · rw [← h.bytes k hk]
    by_cases hd : d.dev = e
    · show u.disk d.dev d.block (d.off + k) = t.disk d.dev d.block (d.off + k)
      rw [hd]
      exact hw.bytes _ _ (hout hd k hk)
    · show u.disk d.dev d.block (d.off + k) = t.disk d.dev d.block (d.off + k)
      rw [hw.other _ hd]
  · rw [hw.tables, h.tables]

/-- A store to some bytes of the descriptor that are not read. -/
theorem SameRights.field {d p : Place} {e : Dev} {n m : Nat} (h : SameRights d s t)
    (hw : Within e (At p n) t u) (hp : p = d.add m) (hout : ∀ k, RightsByte k → k < m ∨ m + n ≤ k) :
    SameRights d s u := by
  subst hp
  refine h.within hw fun _ k hk => ?_
  rintro ⟨-, hlo, hhi⟩
  change d.off + m ≤ d.off + k at hlo
  change d.off + k < d.off + m + n at hhi
  have := hout k hk
  omega

/-! ## `inode_truncate` -/

/-- `mapFree` writes one block of the bitmap. -/
def WritesMap (v : Volume) (m : BlockMap) (w : Volume) : Prop :=
  ∃ n < m.blocks, ∃ data, w = v.setBlock (m.block n) data

theorem mapClear_writes {v : Volume} {m : BlockMap} {idx i : Nat} :
    Ends (fun _ => False) (mapClear v m idx i) (WritesMap v m) := by
  refine Ends.bind (Q := fun _ => i < m.blocks) ?_ fun data hi => ?_
  · rw [mapBuf]
    exact Ends.ite (fun hi => hi) fun _ => not_false
  · refine (Ends.any _).bind fun used _ => (Ends.any _).bind fun _ _ =>
      (Ends.any _).bind fun map _ => ?_
    exact ⟨i, hi, map.bits, rfl⟩

theorem mapFree_writes {v : Volume} {m : BlockMap} {idx : Nat} : ∀ {left i : Nat},
    Ends (fun _ => False) (mapFree v m idx left i) (WritesMap v m) := by
  intro left
  induction left with
  | zero => exact not_false
  | succ left ih => exact Ends.ite (fun _ => ih) fun _ => mapClear_writes

/-- The bitmaps of the device do not hold the descriptor. -/
def OffMaps (d : Place) (e : Dev) (s : Kernel) : Prop :=
  ∀ k, getSuper s e = some k → d.dev = e → ¬ IsZmap (s.super_table k).desc d.block

theorem bfree_rights {d : Place} {e : Dev} {idx : Nat} (hoff : OffMaps d e s) :
    Keeps (SameRights d s) (NeonixFileSystem.bfree e idx) := by
  refine Triple.intro fun u h => ?_
  have hsuper : u.super_table = s.super_table := by rw [h.tables]
  have hget : getSuper u e = getSuper s e := by rw [getSuper, hsuper, getSuper]
  cases hk : getSuper s e with
  | none =>
      refine From.get ?_
      rw [hget, hk]
      exact From.stop not_false
  | some k =>
      refine (onVolume_from ⟨k, hget.trans hk, rfl⟩).post ?_
      rintro _ t ⟨v, hv, rfl⟩
      have hfree : Ends (fun _ => False) (NeonixVolume.bfree (vol u (u.super_table k).desc e) idx)
          (WritesMap (vol u (u.super_table k).desc e) (zmaps (u.super_table k).desc)) :=
        (Ends.any _).bind fun _ _ => mapFree_writes
      have hw : ∃ n < (u.super_table k).desc.zmap_blocks, ∃ data, v =
          (vol u (u.super_table k).desc e).setBlock (2 + (u.super_table k).desc.imap_blocks + n) data := by
        cases hx : NeonixVolume.bfree (vol u (u.super_table k).desc e) idx with
        | error why =>
            change (NeonixVolume.bfree (vol u (u.super_table k).desc e) idx >>= _) = _ at hv
            rw [hx] at hv
            cases hv
        | ok w =>
            rw [hx] at hfree
            change (NeonixVolume.bfree (vol u (u.super_table k).desc e) idx >>= _) = _ at hv
            rw [hx] at hv
            obtain ⟨-, rfl⟩ := Prod.mk.inj (Except.ok.inj hv)
            exact hfree
      obtain ⟨n, hn, data, rfl⟩ := hw
      refine h.within (e := e) (W := fun b _ => IsZmap (u.super_table k).desc b) ?_ fun hd k' hk' => ?_
      · exact within_setBlock fun o hno =>
          absurd ⟨Nat.le_add_right _ _, Nat.add_lt_add_left hn _⟩ hno
      · rw [hsuper]
        exact hoff k hk hd

/-- Blocks are freed in the bitmaps only. -/
theorem inodeBfree_rights {d : Place} {e : Dev} (hoff : OffMaps d e s) :
    ∀ {level : Nat} {array : Place}
    {index : Nat}, Keeps (SameRights d s) (inodeBfree e level array index) := by
  intro level
  induction level with
  | zero => exact Keeps.bind .get fun _ => .ite .pure (bfree_rights hoff)
  | succ level ih =>
      refine Keeps.bind .get fun _ => .ite .pure (.bind (Keeps.loop (fun _ => ih) _ _) fun _ => ?_)
      exact Keeps.bind .get fun _ => bfree_rights hoff

theorem releaseZone_rights {d : Place} {e : Dev} {level z : Nat} (hoff : OffMaps d e s) :
    Keeps (SameRights d s) (releaseZone e (d.add 14) level z) := by
  refine Keeps.bind (inodeBfree_rights hoff) fun _ => Triple.modify fun u h => ?_
  refine h.field (m := 14 + 2 * z) (within_setIndex (d.add 14) z 0) ?_ fun k hk => ?_
  · simp only [Place.add, Nat.add_assoc]
  · rw [RightsByte] at hk
    omega

/-- `inode_truncate` does not write what the rights of an inode depend on. -/
theorem inodeTruncate_rights (h : Placed s i) :
    From never s (inodeTruncate i) fun _ => SameRights (s.desc i) s := by
  have hoff : OffMaps (s.desc i) (s.inode_table i).dev s := by
    intro k hk _ hmap
    obtain ⟨nr, hdesc⟩ := h k hk
    rw [hdesc] at hmap
    exact absurd hmap.2 (not_lt.mpr (Nat.le_add_right _ _))
  refine From.get (From.ite (fun _ => From.pure .refl) fun _ => Triple.start (P := SameRights (s.desc i) s) ?_ .refl)
  have hzone : ∀ {level z : Nat}, Keeps (SameRights (s.desc i) s)
      (releaseZone (s.inode_table i).dev (s.zone i) level z) := releaseZone_rights hoff
  refine Keeps.bind (Keeps.loop (fun _ => hzone) _ _) fun _ => Keeps.bind hzone fun _ => ?_
  refine Keeps.bind hzone fun _ => Keeps.bind (Triple.modify fun u hu => ?_) fun _ =>
    Triple.modify fun u hu => ?_
  · have hdesc : u.desc i = s.desc i := by rw [hu.tables]; rfl
    refine hu.field (m := 4) (within_setSize hdesc 0) rfl fun k hk => ?_
    rw [RightsByte] at hk
    omega
  · have hdesc : u.desc i = s.desc i := by rw [hu.tables]; rfl
    refine hu.field (m := 8) (within_setMtime hdesc u.time) rfl fun k hk => ?_
    rw [RightsByte] at hk
    omega

/-! ## `permission` -/

/-- What `permission` answers a task. -/
def granted (s : Kernel) (task : Task) (i : Nat) (mask : BitVec 16) : Bool :=
  if s.nlinks i = 0 then false
  else if task.uid = KERNEL_USER then true
  else
    let mode :=
      if task.uid = (s.uid i).toNat then s.mode i >>> 6
      else if task.gid = (s.gid i).toNat then s.mode i >>> 3
      else s.mode i
    decide (mode &&& mask &&& 0b111 = mask)

theorem permission_run {mask : BitVec 16} {n : Nat} (ht : s.task_table s.current = some task) :
    permission i mask n s = .ok (granted s task i mask, s) := by
  have htask : runningTask n s = .ok (task, s) := by
    show deref (s.task_table s.current) n s = _
    rw [ht]
    rfl
  show (if s.nlinks i = 0 then _ else _ : Fs Bool) n s = _
  rw [granted]
  by_cases hlinks : s.nlinks i = 0
  · rw [if_pos hlinks, if_pos hlinks]
    rfl
  · rw [if_neg hlinks, if_neg hlinks, bind_run htask]
    by_cases huser : task.uid = KERNEL_USER
    · rw [if_pos huser, if_pos huser]
      rfl
    · rw [if_neg huser, if_neg huser]
      rfl

theorem permission_granted {mask : BitVec 16} (ht : s.task_table s.current = some task) :
    From never s (permission i mask) fun b t => t = s ∧ b = granted s task i mask := by
  rintro n s rfl
  rw [permission_run ht]
  exact ⟨rfl, rfl⟩

theorem read_of_both {mode : BitVec 16} (h : mode &&& 0o6 &&& 0b111 = 0o6) :
    mode &&& 0o4 &&& 0b111 = 0o4 := by
  have hand := congrArg (· &&& (4 : BitVec 16)) h
  rw [BitVec.and_assoc, BitVec.and_assoc] at hand
  rw [BitVec.and_assoc]
  exact hand

/-- Who may read and write may read. -/
theorem granted_read (h : granted s task i 0o6 = true) : granted s task i 0o4 = true := by
  rw [granted] at h ⊢
  split_ifs at h ⊢ with hlinks huser
  · rfl
  · exact decide_eq_true (read_of_both (of_decide_eq_true h))
  · exact decide_eq_true (read_of_both (of_decide_eq_true h))
  · exact decide_eq_true (read_of_both (of_decide_eq_true h))

/-- The inode has the rights it had. -/
structure SameAccess (i : Nat) (s t : Kernel) : Prop where
  mode : t.mode i = s.mode i
  uid : t.uid i = s.uid i
  gid : t.gid i = s.gid i
  nlinks : t.nlinks i = s.nlinks i

theorem SameAccess.granted {mask : BitVec 16} (h : SameAccess i s t) :
    granted t task i mask = granted s task i mask := by
  rw [NeonixAccessRights.granted, NeonixAccessRights.granted, h.mode, h.uid, h.gid, h.nlinks]

theorem SameAccess.of_bytes (h : ∀ k, RightsByte k → t.bytes (t.desc i) k = s.bytes (s.desc i) k) :
    SameAccess i s t := by
  have hlow : ∀ k < 4, t.bytes (t.desc i) k = s.bytes (s.desc i) k := fun k hk => h k (Or.inl hk)
  refine ⟨?_, ?_, h 12 (Or.inr (Or.inl rfl)), h 13 (Or.inr (Or.inr rfl))⟩
  · rw [Kernel.mode, Kernel.mode, u16At, u16At, hlow 0 (by decide), hlow 1 (by decide)]
  · rw [Kernel.uid, Kernel.uid, u16At, u16At, hlow 2 (by decide), hlow 3 (by decide)]

/-- The contents of the blocks and the places of the descriptors are these. -/
def Descriptors (D : Dev → Nat → Bytes) (d : Nat → Place) (s : Kernel) : Prop :=
  s.disk = D ∧ ∀ i, s.desc i = d i

theorem descriptors_setInode {D : Dev → Nat → Bytes} {d : Nat → Place} {f : Inode → Inode}
    (hf : ∀ inode, (f inode).desc = inode.desc) :
    Keeps (Descriptors D d) (modify fun s => s.setInode i f) := by
  refine Triple.modify fun s hs => ⟨hs.1, fun j => ?_⟩
  rw [Kernel.desc]
  by_cases hji : j = i
  · rw [hji, setInode_self, hf]
    exact hs.2 i
  · rw [setInode_of_ne hji]
    exact hs.2 j

theorem iput_descriptors {D : Dev → Nat → Bytes} {d : Nat → Place} {p : Option Nat} :
    Keeps (Descriptors D d) (iput p) := by
  have hfree : ∀ {i : Nat}, Keeps (Descriptors D d) (putFreeInode i) :=
    .bind .assert fun _ => .bind .get fun _ => .bind .assert fun _ =>
    descriptors_setInode fun _ => rfl
  cases p with
  | none => exact .pure
  | some i =>
      refine Keeps.bind .get fun _ => .ite ?_ ?_
      · refine Keeps.bind (descriptors_setInode fun _ => rfl) fun _ => .bind .get fun _ =>
          .ite .pure ?_
        exact Keeps.bind (descriptors_setInode fun _ => rfl) fun _ => hfree
      · refine Keeps.bind (descriptors_setInode fun _ => rfl) fun _ => .bind .get fun _ =>
          .ite .pure ?_
        refine Keeps.bind (.bind .get fun _ => .bind .assert fun _ => ?_) fun _ => hfree
        exact Triple.modify fun _ hs => hs

/-! ## `inode_open` -/

/-- The caller has the rights on the inode the access mode asks for, and on a
    directory it asks for reading only. -/
def Admits (t : Kernel) (task : Task) (i : Nat) (flag : BitVec 32) : Prop :=
  granted t task i (ACC_MODE (flag &&& O_ACCMODE)) = true ∧
    (ISDIR (t.mode i) → flag &&& O_ACCMODE = O_RDONLY)

theorem SameAccess.admits {flag : BitVec 32} (h : SameAccess i s t) (ha : Admits s task i flag) :
    Admits t task i flag := by
  rw [Admits, h.granted, h.mode]
  exact ha

/-- The running task. -/
def Runs (task : Task) (s : Kernel) : Prop := s.task_table s.current = some task

theorem runs_fixed : Fixed (Runs task) := by
  intro s t _ htask hcur _ _ h
  rw [Runs, htask, hcur]
  exact h

/-- What is returned behind `makeup` has been admitted. -/
theorem makeup_admits {dir : Nat} {flag : BitVec 32} (hi : (s.inode_table i).dev ≠ EOF)
    (hl : Linked s)
    (ht : Runs task s) :
    From never s (makeup dir i flag) fun r t => ∀ j, r = some j → Admits t task j flag := by
  have hfail : ∀ {u : Kernel}, From never u (do iput (some dir); iput (some i); return none : Fs (Option Nat))
      fun r t => ∀ j, r = some j → Admits t task j flag := by
    intro u
    refine From.bind (From.of_runs (Q := fun _ _ => True) fun _ _ _ _ => trivial) fun _ v _ => ?_
    refine From.bind (From.of_runs (Q := fun _ _ => True) fun _ _ _ _ => trivial) fun _ w _ => ?_
    exact From.pure fun j hj => nomatch hj
  refine From.bind (permission_granted ht) ?_
  rintro b s ⟨rfl, rfl⟩
  refine From.ite (fun _ => hfail) fun hgrant => From.get (From.ite (fun _ => hfail) fun hdir => ?_)
  have hadmission : Admits s task i flag := by
    refine ⟨not_not.mp hgrant, fun hisdir => ?_⟩
    by_contra hne
    exact hdir ⟨hisdir, hne⟩
  -- neither the truncation nor the `iput` of the directory changes the rights
  have hput : ∀ {u : Kernel}, SameAccess i s u → From never u (do iput (some dir); return some i)
      fun r t => ∀ j, r = some j → Admits t task j flag := by
    intro u hu
    refine From.bind ((iput_descriptors (D := u.disk) (d := u.desc)).start ⟨rfl, fun _ => rfl⟩) ?_
    rintro _ v ⟨hdisk, hdesc⟩
    refine From.pure fun j hj => ?_
    obtain rfl := Option.some.inj hj
    refine SameAccess.admits (SameAccess.of_bytes fun k _ => ?_) (hu.admits hadmission)
    rw [hdesc, Kernel.bytes, Kernel.bytes, hdisk]
  refine From.onlyIf (fun _ => ?_) fun _ => hput (.of_bytes fun _ _ => rfl)
  refine From.bind (inodeTruncate_rights (hl.placed i hi)) fun _ u hu =>
    hput (.of_bytes fun k hk => ?_)
  rw [← hu.bytes k hk, hu.tables]
  rfl

/-- The access mode of the flags with which `inode_open` truncates. -/
theorem upgraded_admits {flag : BitVec 32} (h : Admits t task i
    (if flag &&& O_TRUNC ≠ 0 ∧ flag &&& O_ACCMODE = O_RDONLY then flag ||| O_RDWR else flag)) :
    Admits t task i flag := by
  by_cases hup : flag &&& O_TRUNC ≠ 0 ∧ flag &&& O_ACCMODE = O_RDONLY
  · rw [if_pos hup] at h
    have hacc : (flag ||| O_RDWR) &&& O_ACCMODE = O_RDWR := by
      rw [BitVec.and_or_distrib_right, hup.2]
      rfl
    rw [Admits, hacc] at h
    rw [Admits, hup.2]
    exact ⟨granted_read h.1, fun _ => rfl⟩
  · rw [if_neg hup] at h
    exact h

/-- What is returned for a path that does not end in a separator has been admitted. -/
theorem inodeOpen_admits {flag mode : BitVec 32} (hpath : ¬ EndsInSeparator path) :
    Triple never (fun s => (Holds [] s ∧ Alive s) ∧ Linked s ∧ Runs task s) (inodeOpen path flag mode)
      fun r t => ∀ i, r = some i → Admits t task i flag := by
  have hP : Stable fun s => Linked s ∧ Runs task s := stable_and linked_stable runs_fixed.stable
  have hnamed := (named_holds (L := [])).also ((keeps_named hP).also (@named_rest path))
  refine Triple.bind (hnamed.pre fun s hs => ⟨hs.1, hs.2, trivial⟩) fun r => ?_
  rcases r with ⟨_ | dir, _ | ⟨c, next⟩⟩
  · exact fun _ _ _ _ hj => nomatch hj
  · exact fun _ _ _ _ hj => nomatch hj
  · exact fun _ _ hs => absurd ((hs.2.2 (Option.some_ne_none dir)).mp rfl) hpath
  refine Triple.bind ((findEntry_holds.also (keeps_findEntry hP)).pre fun s hs => ⟨hs.1, hs.2.1⟩) fun r => ?_
  obtain ⟨entry, dir, _⟩ := r
  have hfail : Triple never (fun s => (Holds [dir] s ∧ Settled dir (DotDot (c :: next)) s) ∧
      Linked s ∧ Runs task s) (do iput (some dir); return none) fun r t => ∀ i, r = some i →
      Admits t task i flag :=
    Triple.intro fun s hs => drop_return hs.1.1 fun _ _ _ hj => nomatch hj
  cases entry with
  | some entry =>
      refine Triple.intro fun s hs => From.get ?_
      refine From.bind (((iget_holds hs.1.1.dev).also (hP.iget _ _)).start ⟨hs.1.1, hs.2⟩) fun i t ht => ?_
      exact (makeup_admits ht.1.dev ht.2.1 ht.2.2).post fun _ _ h j hj => upgraded_admits (h j hj)
  | none =>
      refine Triple.ite (fun _ => hfail) fun _ => ?_
      refine Triple.bind keeps_permission fun _ => Triple.ite (fun _ => hfail) fun _ => ?_
      refine Triple.bind (addEntry_holds.also (keeps_addEntry hP)) fun entry => ?_
      refine Triple.intro fun s hs => From.get ?_
      have hd : DiskFree fun s => Holds [dir] s ∧ Linked s ∧ Runs task s :=
        fun s d h => ⟨holds_diskFree s d h.1, hP.diskFree s d h.2⟩
      refine From.bind ((keeps_ialloc hd).start hs) fun nr t ht => ?_
      refine From.bind ((keeps_modifyDisk hd).start ht) fun _ u hu => From.get ?_
      refine From.bind (((newInode_holds hu.1.dev).also (keeps_newInode hP)).start hu) fun i w hw => ?_
      have hd' : DiskFree fun s => Holds [i, dir] s ∧ Linked s ∧ Runs task s :=
        fun s d h => ⟨holds_diskFree s d h.1, hP.diskFree s d h.2⟩
      refine From.bind ((keeps_runningTask (P := fun s => Holds [i, dir] s ∧ Linked s ∧ Runs task s)).start hw)
        fun task' x hx => ?_
      refine From.bind ((keeps_modifyDisk hd').start hx) fun _ y hy => ?_
      exact (makeup_admits hy.1.dev hy.2.1 hy.2.2).post fun _ _ h j hj => upgraded_admits (h j hj)

/-- Nothing is checked of the directory that a path that ends in a separator names. -/
theorem inodeOpen_separator {flag mode : BitVec 32} {n : Nat} (hpath : EndsInSeparator path) :
    inodeOpen path flag mode n s = (named path n s).map fun r => (r.1.1, r.2) := by
  cases hn : named path n s with
  | error e =>
      change (named path n s >>= _) = _
      rw [hn]
      rfl
  | ok r =>
      obtain ⟨⟨_ | dir, next⟩, u⟩ := r
      · rw [inodeOpen, bind_run hn]
        rfl
      · have hrest : next = [] := (named_rest.of_ok trivial hn (Option.some_ne_none dir)).mpr hpath
        subst hrest
        rw [inodeOpen, bind_run hn]
        rfl

/-! ## `sys_open` and `sys_write` -/

/-- Descriptor `fd` of the running task is file `k`, opened with the flags on inode
    `i`. -/
def OpenAs (s : Kernel) (fd k i : Nat) (flags : BitVec 32) : Prop :=
  ∃ task, Runs task s ∧ task.files fd = some k ∧ (s.file_table k).inode = some i ∧
    (s.file_table k).flags = flags

theorem OpenAs.unique {fd k' i' : Nat} {flags flags' : BitVec 32} (h : OpenAs s fd k i flags)
    (h' : OpenAs s fd k' i' flags') : k = k' ∧ i = i' ∧ flags = flags' := by
  obtain ⟨task, ht, hk, hi, rfl⟩ := h
  obtain ⟨task', ht', hk', hi', rfl⟩ := h'
  cases ht.symm.trans ht'
  cases hk.symm.trans hk'
  cases hi.symm.trans hi'
  exact ⟨rfl, rfl, rfl⟩

/-- `sys_write` of the descriptor reaches `inode_write` with a directory. -/
def WritesDirectory (s : Kernel) (fd : Nat) : Prop :=
  ∃ k i flags, OpenAs s fd k i flags ∧ flags &&& O_ACCMODE ≠ O_RDONLY ∧ ¬ Special s i ∧
    ISDIR (s.mode i)

theorem assert_run {p : Prop} [Decidable p] {n : Nat} (hp : p) :
    (assert p : Fs Unit) n s = .ok ((), s) := by
  rw [assert, if_pos hp]
  rfl

theorem get_run {n : Nat} : (get : Fs Kernel) n s = .ok (s, s) := rfl

/-- There the assertion of `inode_write` stops it. -/
theorem sysWrite_directory {specialWrite : Nat → (Nat → Byte) → Int → Fs Int} {fd n : Nat}
    {count : Int}
    {buf : Nat → Byte} (hfd : fd < TASK_FILE_NR) (hcount : 0 < count) (h : WritesDirectory s fd) :
    sysWrite specialWrite fd buf count n s = .error (.stopped .assertion) := by
  obtain ⟨k, i, flags, ⟨task, ht, hk, hi, rfl⟩, hflags, hspecial, hdir⟩ := h
  have hslot : From always s (getFd fd) fun file t => t = s ∧ file = task.files fd :=
    getFd_returns ht
  obtain ⟨file, t, hget, ht', hfile⟩ := hslot.returns n
  subst ht' hfile
  have hlt : ¬ (fd : Int) ≥ TASK_FILE_NR := by omega
  have hopen : openFile fd n t = .ok (k, t) := by
    rw [openFile, if_neg hlt, bind_run hget, hk]
    rfl
  have hnot : ¬ ISFILE (t.mode i) := by
    rw [ISDIR] at hdir
    rw [ISFILE, hdir]
    decide
  have hwrite : inodeWrite i buf count.toNat (t.file_table k).offset n t =
      .error (.stopped .assertion) := by
    rw [inodeWrite, bind_run get_run, assert, if_neg hnot]
    rfl
  rw [sysWrite, bind_run hopen, bind_run (assert_run hcount), bind_run get_run]
  rw [if_neg hflags, bind_run (assert_run (by rw [hi]; rfl)), hi]
  rw [bind_run (show (deref (some i) : Fs Nat) n t = .ok (i, t) from rfl), bind_run get_run,
    if_neg hspecial]
  change (inodeWrite i buf count.toNat (t.file_table k).offset n t >>= _) = _
  rw [hwrite]
  rfl

/-- The descriptor still is the file it was, and the inode behind it has not become a
    directory. -/
def Kept (t u : Kernel) (fd : Nat) : Prop := ∀ k i flags, OpenAs t fd k i flags →
  OpenAs u fd k i flags ∧ (ISDIR (u.mode i) → ISDIR (t.mode i))

/-- What `sys_open` does with the inode it is given. -/
theorem opened_as {flags : BitVec 32} : From never u (do
    let fd ← taskGetFd
    let file ← getFile
    assert ((← runningTask).files fd = none)
    setFd fd (some file)
    modify fun s => s.setFile file fun _ =>
      { inode := some i, count := 1, offset := 0, flags := flags, mode := s.mode i }
    onlyIf (flags &&& O_APPEND ≠ 0) do
      modify fun s => s.setFile file fun file =>
        { file with offset := (BitVec.ofNat 32 (s.size i)).toInt }
    return (fd : Int)) fun r t => ∃ fd k : Nat, r = fd ∧ OpenAs t fd k i flags ∧
      t.mode i = u.mode i := by
  refine From.bind taskGetFd_spec ?_
  rintro fd u ⟨rfl, -, task, ht, -⟩
  refine From.bind getFile_spec ?_
  rintro k t ⟨rfl, -, -⟩
  refine From.bind runningTask_spec ?_
  rintro task' t ⟨rfl, -⟩
  refine from_assert fun _ => From.set (From.set ?_)
  have hopen : ∀ v : Kernel, v.task_table = Function.update u.task_table u.current
      (some { task with files := Function.update task.files fd (some k) }) → v.current = u.current →
      (v.file_table k).inode = some i → (v.file_table k).flags = flags → OpenAs v fd k i flags := by
    intro v htable hcur hinode hflags
    refine ⟨{ task with files := Function.update task.files fd (some k) }, ?_, ?_, hinode, hflags⟩
    · rw [Runs, htable, hcur, Function.update_self]
    · exact Function.update_self ..
  have htask : ∀ f : Task → Task, Function.update u.task_table u.current ((u.task_table u.current).map f) =
      Function.update u.task_table u.current (some (f task)) := by
    intro f
    rw [ht]
    rfl
  refine From.onlyIf (fun _ => From.set (From.pure ⟨fd, k, rfl, ?_, rfl⟩)) fun _ =>
    From.pure ⟨fd, k, rfl, ?_, rfl⟩
  · refine hopen _ (htask _) rfl ?_ ?_
    · simp only [Kernel.setFile, Function.update_self]
    · simp only [Kernel.setFile, Function.update_self]
  · refine hopen _ (htask _) rfl ?_ ?_
    · simp only [Kernel.setFile, Function.update_self]
    · simp only [Kernel.setFile, Function.update_self]

/-! ## What opening promises -/

/-- The caller has the permission for the access mode, and on a directory the mode is
    reading. -/
def Admitted (t : Kernel) (i : Nat) (flag : BitVec 32) : Prop :=
  (∀ fuel, permission i (ACC_MODE (flag &&& O_ACCMODE)) fuel t = .ok (true, t)) ∧
    (ISDIR (t.mode i) → flag &&& O_ACCMODE = O_RDONLY)

theorem admitted_iff {flag : BitVec 32} (ht : Runs task t) :
    Admitted t i flag ↔ Admits t task i flag := by
  have hperm : (∀ fuel, permission i (ACC_MODE (flag &&& O_ACCMODE)) fuel t = .ok (true, t)) ↔
      granted t task i (ACC_MODE (flag &&& O_ACCMODE)) = true := by
    constructor
    · intro h
      have hrun := h 0
      rw [permission_run ht] at hrun
      exact (Prod.mk.inj (Except.ok.inj hrun)).1
    · intro h fuel
      rw [permission_run ht, h]
  rw [Admitted, Admits, hperm]

/-- An open of a path is sound: what `inode_open` returns has been admitted, and a
    descriptor `sys_open` returns never makes `sys_write` write a directory. -/
def Enforced (s : Kernel) (path : Str) (flag mode : BitVec 32) (fuel : Nat) : Prop :=
  (∀ i t, inodeOpen path flag mode fuel s = .ok (some i, t) → Admitted t i flag) ∧
    ∀ (fd : Nat) t, sysOpen path flag mode fuel s = .ok ((fd : Int), t) →
      ∀ u, Kept t u fd → ¬ WritesDirectory u fd

/-- What has been admitted is not a directory that is written. -/
theorem never_written {flag mode : BitVec 32} {fuel fd : Nat}
    (hadmission : ∀ i t, inodeOpen path flag mode fuel s = .ok (some i, t) → Admitted t i flag)
    (hrun : sysOpen path flag mode fuel s = .ok ((fd : Int), t)) (hkept : Kept t u fd) :
    ¬ WritesDirectory u fd := by
  cases hopen : inodeOpen path flag mode fuel s with
  | error e =>
      change (inodeOpen path flag mode fuel s >>= _) = _ at hrun
      rw [hopen] at hrun
      cases hrun
  | ok r =>
      obtain ⟨_ | i, v⟩ := r
      · rw [sysOpen, bind_run hopen] at hrun
        have hr : EOF = (fd : Int) := congrArg Prod.fst (Except.ok.inj hrun)
        have : EOF = -1 := rfl
        omega
      · rw [sysOpen, bind_run hopen] at hrun
        obtain ⟨fd', k, hfd, hopened, hmode⟩ := Triple.of_ok opened_as rfl hrun
        obtain rfl := Int.ofNat.inj hfd
        obtain ⟨hstill, htype⟩ := hkept k i flag hopened
        rintro ⟨k', i', flags, hopened', hflags, -, hdir⟩
        obtain ⟨-, rfl, rfl⟩ := hstill.unique hopened'
        have hdir' := htype hdir
        rw [hmode] at hdir'
        exact hflags ((hadmission i v hopen).2 hdir')

/-- **ACCESS RIGHTS** are enforced by an open of a live task exactly if the path does
    not end in a separator, or the directory it names grants the access. -/
theorem open_enforces_rights {c fuel : Nat} (h : Reach system free s)
    (ht : s.task_table c = some task)
    (hlive : task.died = false) (path : Str) (flag mode : BitVec 32) :
    Enforced (enter s c) path flag mode fuel ↔ ¬ EndsInSeparator path ∨
      ∀ dir next u, named path fuel (enter s c) = .ok ((some dir, next), u) →
        Admitted u dir flag := by
  obtain ⟨hl, hw, ha, -⟩ := enter_ready (reach_wired h) ht hlive
  have hruns : Runs task (enter s c) := ht
  have hadmits : ¬ EndsInSeparator path →
      ∀ i t, inodeOpen path flag mode fuel (enter s c) = .ok (some i, t) → Admitted t i flag := by
    intro hpath i t hrun
    have hP : Stable fun s => Linked s ∧ Runs task s := stable_and linked_stable runs_fixed.stable
    have hkept := (keeps_inodeOpen hP).of_ok ⟨hw.1, hruns⟩ hrun
    exact (admitted_iff hkept.2).mpr ((inodeOpen_admits hpath).of_ok ⟨⟨hl, ha⟩, hw.1, hruns⟩ hrun i rfl)
  constructor
  · intro henf
    by_cases hpath : EndsInSeparator path
    · refine Or.inr fun dir next u hn => henf.1 dir u ?_
      rw [inodeOpen_separator hpath, hn]
      rfl
    · exact Or.inl hpath
  · intro hcond
    have hall : ∀ i t, inodeOpen path flag mode fuel (enter s c) = .ok (some i, t) →
        Admitted t i flag := by
      by_cases hpath : EndsInSeparator path
      · intro i t hrun
        rw [inodeOpen_separator hpath] at hrun
        cases hn : named path fuel (enter s c) with
        | error e =>
            rw [hn] at hrun
            cases hrun
        | ok r =>
            obtain ⟨⟨dir, next⟩, u⟩ := r
            rw [hn] at hrun
            obtain ⟨rfl, rfl⟩ := Prod.mk.inj (Except.ok.inj hrun)
            exact hcond.resolve_left (not_not.mpr hpath) i next u hn
      · exact hadmits hpath
    exact ⟨hall, fun fd t hrun u hkept => never_written hall hrun hkept⟩

section Boot

open NeonixReferenceCounts (bootState bootTask bootState_ledger pathA)

theorem bootState_reached : Reach system free bootState :=
  Reach.start ⟨bootState_ledger, bootState_wired⟩

theorem open_enforces_rights_file : Enforced (enter bootState 0) pathA O_WRONLY 0 8 ↔
    ¬ EndsInSeparator pathA ∨ ∀ dir next u,
      named pathA 8 (enter bootState 0) = .ok ((some dir, next), u) → Admitted u dir O_WRONLY :=
  open_enforces_rights bootState_reached (show bootState.task_table 0 = some bootTask from rfl) rfl
    pathA O_WRONLY 0

/-- `/`. -/
def rootPath : Str := [SEPARATOR1]

/-- Descriptor 3 is open to write on the inode in slot 0. -/
def opensRoot (t : Kernel) : Bool :=
  (t.task_table t.current).any fun task => (task.files 3).any fun k =>
    (t.file_table k).inode = some 0 ∧ (t.file_table k).flags = O_WRONLY ∧
      (t.inode_table 0).pipe = false ∧ ISDIR (t.mode 0)

theorem opensRoot_writes {t : Kernel} (h : opensRoot t = true) : WritesDirectory t 3 := by
  obtain ⟨task, ht, hfile⟩ := (Option.any_eq_true ..).mp h
  obtain ⟨k, hk, hopen⟩ := (Option.any_eq_true ..).mp hfile
  obtain ⟨hi, hflags, hpipe, hdir⟩ := of_decide_eq_true hopen
  refine ⟨k, 0, O_WRONLY, ⟨task, ht, hk, hi, hflags⟩, by decide, ?_, hdir⟩
  rw [ISDIR] at hdir
  rintro (hp | hchr | hblk)
  · rw [hpipe] at hp
    cases hp
  · rw [ISCHR, hdir] at hchr
    exact absurd hchr (by decide)
  · rw [ISBLK, hdir] at hblk
    exact absurd hblk (by decide)

/-- `open("/", O_WRONLY)` gives a descriptor of the root directory, and `write` on it
    stops the kernel. -/
theorem root_opened_to_write : Reach system free bootState ∧
    ¬ Enforced (enter bootState 0) rootPath O_WRONLY 0 1 ∧
    ∃ t, sysOpen rootPath O_WRONLY 0 1 (enter bootState 0) = .ok (3, t) ∧
      sysWrite (fun _ _ _ => return EOF) 3 (fun _ => 0) 1 1 t = .error (.stopped .assertion) := by
  refine ⟨bootState_reached, fun h => ?_, ?_⟩
  · have hrun : ((inodeOpen rootPath O_WRONLY 0 1 (enter bootState 0)).toOption.any
        fun r => decide (r.1 = some 0 ∧ ISDIR (r.2.mode 0))) = true := by decide +kernel
    cases hopen : inodeOpen rootPath O_WRONLY 0 1 (enter bootState 0) with
    | error e =>
        rw [hopen] at hrun
        cases hrun
    | ok r =>
        obtain ⟨found, t⟩ := r
        rw [hopen] at hrun
        obtain ⟨rfl, hdir⟩ := of_decide_eq_true hrun
        exact absurd ((h.1 0 t hopen).2 hdir) (by decide)
  · have hopened : ((sysOpen rootPath O_WRONLY 0 1 (enter bootState 0)).toOption.any
        fun r => decide (r.1 = 3) && opensRoot r.2) = true := by decide +kernel
    cases hopen : sysOpen rootPath O_WRONLY 0 1 (enter bootState 0) with
    | error e =>
        rw [hopen] at hopened
        cases hopened
    | ok r =>
        obtain ⟨fd, t⟩ := r
        rw [hopen] at hopened
        obtain ⟨hfd, hwrites⟩ := (Bool.and_eq_true ..).mp hopened
        obtain rfl : fd = 3 := of_decide_eq_true hfd
        have hstop : sysWrite (fun _ _ _ => return EOF) (3 : Nat) (fun _ => 0) 1 1 t =
            .error (.stopped .assertion) :=
          sysWrite_directory (by decide) (by decide) (opensRoot_writes hwrites)
        exact ⟨t, rfl, hstop⟩

end Boot

end NeonixAccessRights
