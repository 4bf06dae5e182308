import Neonix.PathResolution

/-! # `put_super` and `sys_umount`

    Every way out of `sys_umount` goes through `put_super`.  Where `get_super` was
    reached, a failure drops a reference to the super block that the call never
    took, and a device that is not mounted has no super block to look at. -/

namespace NeonixUmount

open NeonixMachine NeonixOutcome NeonixByteBits NeonixWords NeonixVolume NeonixCalls
  NeonixFileSystem NeonixNamei NeonixFiles NeonixFrames NeonixRuns NeonixInodeRefs NeonixPathRefs
  NeonixDirectories NeonixResolver NeonixReferenceCounts NeonixWalks NeonixPathResolution

/-- `put_super`; the buffers of the super block and of the bitmaps are left out. -/
def putSuper : Option Nat → Fs Unit
  | none => return ()
  | some k => do
      assert (((← get).super_table k).count > 0)
      modify fun s => s.setSuper k fun sb => { sb with count := sb.count - 1 }
      if ((← get).super_table k).count ≠ 0 then return ()
      else
        modify fun s => s.setSuper k fun sb => { sb with dev := EOF }
        iput ((← get).super_table k).imount
        iput ((← get).super_table k).iroot

/-- `rollback` of `sys_umount`. -/
def leave (sb inode : Option Nat) (ret : Int) : Fs Int := do
  putSuper sb
  iput inode
  return ret

/-- `sys_umount` from `get_super` on. -/
def umountDevice (inode : Nat) (dev : Dev) : Fs Int := do
  let k ← deref (getSuper (← get) dev)
  let s ← get
  match (s.super_table k).imount with
  | none => leave (some k) (some inode) EOF
  | some imount =>
      if (s.super_table k).inode_list.length > 1 then leave (some k) (some inode) EOF
      else
        iput (s.super_table k).iroot
        modify fun s => s.setSuper k fun sb => { sb with iroot := none }
        modify fun s => s.setInode imount fun inode => { inode with mount := 0 }
        iput (some imount)
        modify fun s => s.setSuper k fun sb => { sb with imount := none }
        leave (some k) (some inode) 0

/-- `sys_umount` behind `namei`. -/
def umountInode (inode : Nat) : Fs Int := do
  let s ← get
  if ¬ ISBLK (s.mode inode) ∧ (s.inode_table inode).nr ≠ 1 then leave none (some inode) EOF
  else if some inode = (s.super_table s.root).imount then leave none (some inode) EOF
  else if ISBLK (s.mode inode) then umountDevice inode (s.index (s.zone inode) 0).toNat
  else umountDevice inode (s.inode_table inode).dev

/-- `sys_umount`. -/
def sysUmount (target : Str) : Fs Int := do
  match ← namei target with
  | none => leave none none EOF
  | some inode => umountInode inode

variable {bad : Halt → Prop} {s t u : Kernel} {L : List Nat} {i j k : Nat} {dev : Dev}
  {target : Str}

/-- A mount state: the root file system and any others are mounted, each with a
    count, and a task has the root inode as its root directory. -/
structure Mounted (s : Kernel) : Prop where
  tree : Tree s
  root : s.root < SUPER_NR ∧ (s.super_table s.root).dev ≠ EOF
  counted : ∀ k < SUPER_NR, (s.super_table k).dev ≠ EOF → 0 < (s.super_table k).count
  idle : ∃ t task, s.task_table t = some task ∧ task.died = false ∧ task.iroot = 0

/-! ## What a failure is to leave alone -/

/-- The super blocks, the counts and mount fields of the in-memory inodes and the
    blocks, those of the bitmaps among them, are the same. -/
structure Unchanged (s t : Kernel) : Prop where
  supers : ∀ k, (t.super_table k).dev = (s.super_table k).dev ∧
    (t.super_table k).count = (s.super_table k).count ∧
    (t.super_table k).iroot = (s.super_table k).iroot ∧
    (t.super_table k).imount = (s.super_table k).imount
  inodes : ∀ i, (t.inode_table i).count = (s.inode_table i).count ∧
    (t.inode_table i).mount = (s.inode_table i).mount
  disk : t.disk = s.disk

/-- A call that returns `EOF` has changed nothing, and no call looks at a super
    block that is null. -/
def FailsCleanly (s : Kernel) (r : Except Halt (Int × Kernel)) : Prop :=
  match r with
  | .error e => e ≠ .stopped .outOfBounds
  | .ok (ret, t) => ret = EOF → Unchanged s t

theorem Walk.unchanged (hs : Tree s) (h : Walk s [] t) : Unchanged s t where
  supers := fun k => (h.supers k).2
  inodes := fun i => ⟨(h.count i).trans (hs.start.count i).symm, h.mount i⟩
  disk := by rw [h.frame]

/-- A reason to stop that is no null pointer. -/
def nullPointer : Halt → Prop := fun e => e = .stopped .outOfBounds

/-! ## Calls that look at no null pointer -/

/-- The call does not look at a null pointer. -/
def Safe {α : Type} (x : Fs α) : Prop := Triple nullPointer (fun _ => True) x fun _ _ => True

section Safe

variable {α β : Type} {x : Fs α} {f : α → Fs β}

theorem Safe.bind (hx : Safe x) (hf : ∀ a, Safe (f a)) : Safe (x >>= f) := Triple.bind hx hf

theorem Safe.pure {a : α} : Safe (Pure.pure a : Fs α) := fun _ _ _ => trivial

theorem Safe.get : Safe (get : Fs Kernel) := fun _ _ _ => trivial

theorem Safe.modify {g : Kernel → Kernel} : Safe (modify g) := fun _ _ _ => trivial

theorem Safe.assert {p : Prop} [Decidable p] : Safe (assert p) := by
  rw [NeonixFileSystem.assert]
  split_ifs
  · exact Safe.pure
  · exact Triple.stop fun h => by cases h

theorem Safe.ite {p : Prop} [Decidable p] {y : Fs α} (hx : Safe x) (hy : Safe y) :
    Safe (if p then x else y) := Triple.ite (fun _ => hx) fun _ => hy

end Safe

theorem safe_putFreeInode : Safe (putFreeInode i) :=
  .bind .assert fun _ => .bind .get fun _ => .bind .assert fun _ => .modify

theorem safe_iput {i : Option Nat} : Safe (iput i) := by
  cases i with
  | none => exact .pure
  | some i =>
      refine .bind .get fun _ => .ite ?_ ?_
      · exact .bind .modify fun _ => .bind .get fun _ => .ite .pure <|
          .bind .modify fun _ => safe_putFreeInode
      · refine .bind .modify fun _ => .bind .get fun _ => .ite .pure ?_
        refine .bind (.bind .get fun _ => .bind .assert fun _ => .modify) fun _ => ?_
        exact safe_putFreeInode

theorem safe_putSuper {sb : Option Nat} : Safe (putSuper sb) := by
  cases sb with
  | none => exact .pure
  | some k =>
      refine .bind .get fun _ => .bind .assert fun _ => .bind .modify fun _ => ?_
      refine .bind .get fun _ => .ite .pure ?_
      exact .bind .modify fun _ => .bind .get fun _ => .bind safe_iput fun _ =>
        .bind .get fun _ => safe_iput

theorem leave_safe {sb inode : Option Nat} {ret : Int} :
    Triple nullPointer (fun _ => True) (leave sb inode ret) fun r _ => r = ret :=
  Triple.bind safe_putSuper fun _ => Triple.bind safe_iput fun _ => fun _ _ _ => rfl

/-! ## The condition -/

/-- The inode is in memory. -/
def InMemory (s : Kernel) (n : Node) : Prop := ∃ i < INODE_NR, slotNode s i = n

instance (s : Kernel) (n : Node) : Decidable (InMemory s n) :=
  inferInstanceAs (Decidable (∃ i < INODE_NR, _))

/-- How many inodes of a file system are in memory, the target with them. -/
def inodesWith (s : Kernel) (k : Nat) (n : Node) : Nat :=
  (s.super_table k).inode_list.length +
    if n.dev = (s.super_table k).dev ∧ ¬ InMemory s n then 1 else 0

/-- The device of a target: what a block device file names, or the device of a root
    directory. -/
def deviceOf (s : Kernel) (n : Node) (desc : Place) : Dev :=
  if ISBLK (u16At (s.bytes desc) 0) then (s.index (desc.add 14) 0).toNat else n.dev

/-- The target `sys_umount` gets a super block for: a block device file or the root
    directory of a file system, but not where the root file system is mounted. -/
def Eligible (s : Kernel) (n : Node) (desc : Place) : Prop :=
  (ISBLK (u16At (s.bytes desc) 0) ∨ n.nr = 1) ∧
    (s.super_table s.root).imount.map (slotNode s) ≠ some n

instance (s : Kernel) (n : Node) (desc : Place) : Decidable (Eligible s n desc) :=
  inferInstanceAs (Decidable (_ ∧ _))

/-- Where the target has a super block to get, its device is mounted and no other
    inode of it is in memory. -/
def Clean (s : Kernel) (task : Task) (target : Str) : Prop :=
  ∀ n desc, resolve s task target = some n → descOf s n = some desc → Eligible s n desc →
    ∃ k, getSuper s (deviceOf s n desc) = some k ∧ inodesWith s k n ≤ 1

/-! ## The list of a super block after the walk -/

/-- What is on the list of a super block. -/
theorem Slots.mem_list (h : Slots t) (hl : Ledger (held L) 0 t) (hk : getSuper t dev = some k)
    (hdev : dev ≠ EOF) : j ∈ (t.super_table k).inode_list ↔
      (t.inode_table j).dev = dev ∧ (t.inode_table j).pipe = false := by
  obtain ⟨hkn, hkd⟩ := getSuper_some hk
  constructor
  · intro hj
    exact ⟨(h.listDev k hkn j hj).trans hkd, (hl.listed k hkn j hj).2⟩
  · rintro ⟨hjd, hp⟩
    obtain ⟨k', hk', hin, -⟩ := h.onList j (by rw [hjd]; exact hdev) hp
    rw [hjd, hk] at hk'
    rw [Option.some.inj hk']
    exact hin

/-- The target is in memory before the walk exactly when the tables point to it. -/
theorem Walk.inMemory (hs : Tree s) (h : Walk s [i] t) :
    InMemory s (slotNode t i) ↔ inodeRefs s i ≠ 0 := by
  have hdev := h.used (Or.inr (List.mem_singleton_self i))
  have hpipe := h.plain i (List.mem_singleton_self i)
  constructor
  · rintro ⟨j, -, hj⟩
    have hrefs : inodeRefs s j ≠ 0 := by
      refine hs.inUse.mp fun hfree => hdev ?_
      exact (congrArg Node.dev hj).symm.trans hfree
    rw [← h.slots.unique i j hdev hpipe ((h.kept j hrefs).1.trans hj)]
    exact hrefs
  · intro hrefs
    exact ⟨i, h.slots.range i hdev, (h.kept i hrefs).1.symm⟩

theorem Walk.list_length (hs : Tree s) (h : Walk s [i] t) (hk : getSuper s dev = some k)
    (hdev : dev ≠ EOF) :
    (t.super_table k).inode_list.length = inodesWith s k (slotNode t i) := by
  obtain ⟨hkn, hkd⟩ := getSuper_some hk
  have hkt : getSuper t dev = some k := (h.getSuper dev).trans hk
  have hmem_t {j : Nat} := Slots.mem_list (j := j) h.slots h.holds hkt hdev
  have hmem_s {j : Nat} := Slots.mem_list (L := []) (j := j) hs.slots hs.exact hk hdev
  have hpipe := h.plain i (List.mem_singleton_self i)
  have hkept : ∀ {j}, inodeRefs s j ≠ 0 →
      (j ∈ (t.super_table k).inode_list ↔ j ∈ (s.super_table k).inode_list) := by
    intro j hj
    obtain ⟨hnode, hp, -⟩ := h.kept j hj
    rw [hmem_t, hmem_s, hp, show (t.inode_table j).dev = _ from congrArg Node.dev hnode]
    rfl
  have hother : ∀ j, j ≠ i →
      (j ∈ (t.super_table k).inode_list ↔ j ∈ (s.super_table k).inode_list) := by
    intro j hji
    by_cases hj : inodeRefs s j = 0
    · -- in neither list: the slot is not in use
      have hcount := h.count j
      rw [hj, List.count_eq_zero.mpr (by rwa [List.mem_singleton])] at hcount
      rw [hmem_t, hmem_s]
      refine iff_of_false ?_ ?_
      · exact fun hx => hdev (hx.1.symm.trans (h.slots.idle j hcount))
      · exact fun hx => hs.inUse.mp (by rw [hx.1]; exact hdev) hj
    · exact hkept hj
  have hnodup_t := Ledger.nodup h.holds k hkn
  have hnodup_s := Ledger.nodup hs.exact k hkn
  have hcond : ((slotNode t i).dev = dev ∧ ¬ InMemory s (slotNode t i)) ↔
      (slotNode t i).dev = dev ∧ inodeRefs s i = 0 := by
    rw [Walk.inMemory hs h, not_not]
  rw [inodesWith, hkd]
  by_cases hnew : (slotNode t i).dev = dev ∧ inodeRefs s i = 0
  · rw [if_pos (hcond.mpr hnew)]
    have hnot : i ∉ (s.super_table k).inode_list := by
      rw [hmem_s]
      exact fun hx => hs.inUse.mp (by rw [hx.1]; exact hdev) hnew.2
    have hperm : (t.super_table k).inode_list.Perm (i :: (s.super_table k).inode_list) := by
      refine (List.perm_ext_iff_of_nodup hnodup_t (List.nodup_cons.mpr ⟨hnot, hnodup_s⟩)).mpr ?_
      intro j
      by_cases hji : j = i
      · subst hji
        exact iff_of_true (hmem_t.mpr ⟨hnew.1, hpipe⟩) List.mem_cons_self
      · rw [hother j hji, List.mem_cons, or_iff_right hji]
    rw [hperm.length_eq, List.length_cons]
  · rw [if_neg fun hx => hnew (hcond.mp hx)]
    have hperm : (t.super_table k).inode_list.Perm (s.super_table k).inode_list := by
      refine (List.perm_ext_iff_of_nodup hnodup_t hnodup_s).mpr fun j => ?_
      by_cases hji : j = i
      · subst hji
        by_cases hj : inodeRefs s j = 0
        · rw [hmem_t, hmem_s]
          refine iff_of_false (fun hx => hnew ⟨hx.1, hj⟩) fun hx => ?_
          exact hs.inUse.mp (by rw [hx.1]; exact hdev) hj
        · exact hkept hj
      · exact hother j hji
    exact hperm.length_eq

/-! ## The condition is enough -/

/-- The super block of a device in use has a place it is mounted at. -/
theorem Tree.imount (hs : Tree s) (hk : getSuper s dev = some k) (hdev : dev ≠ EOF) :
    ∃ m, (s.super_table k).imount = some m ∧ inodeRefs s m ≠ 0 := by
  obtain ⟨hkn, hkd⟩ := getSuper_some hk
  have hkdev : (s.super_table k).dev ≠ EOF := by rwa [hkd]
  obtain ⟨m, hm, -⟩ := hs.imounts k hkn hkdev
  exact ⟨m, hm, imount_refs hkn hkdev hm⟩

theorem safe_tail {x : Fs Int} {g : Kernel → Kernel} (h : Triple nullPointer (fun _ => True) x
    fun r _ => r = 0) : Triple nullPointer (fun _ => True) (do modify g; x) fun r _ => r = 0 :=
  Triple.bind Safe.modify fun _ => h

/-- `sys_umount` of a device with no other inode in memory returns 0. -/
theorem umountDevice_clean (hs : Tree s) (h : Walk s [i] t) (hk : getSuper s dev = some k)
    (hdev : dev ≠ EOF) (hone : inodesWith s k (slotNode t i) ≤ 1) :
    From nullPointer t (umountDevice i dev) fun r _ => r = 0 := by
  obtain ⟨m, hm, -⟩ := Tree.imount hs hk hdev
  refine From.get ?_
  rw [h.getSuper, hk]
  refine past_deref (From.get ?_)
  rw [(h.supers k).2.2.2.2, hm]
  refine From.ite (fun hbusy => ?_) fun _ => ?_
  · rw [Walk.list_length hs h hk hdev] at hbusy
    omega
  · refine Triple.start (P := fun _ => True) ?_ trivial
    refine Triple.bind safe_iput fun _ => safe_tail (safe_tail ?_)
    exact Triple.bind safe_iput fun _ => safe_tail leave_safe

/-- `sys_umount` on a way out before `get_super`. -/
theorem leave_clean (hs : Tree s) (h : Walk s [i] t) :
    From nullPointer t (leave none (some i) EOF) fun r u => r = EOF → Unchanged s u :=
  From.bind (Q := fun _ u => Walk s [i] u) (From.pure h) fun _ _ hu =>
    From.bind (iput_walk hs hu) fun _ _ hv => From.pure fun _ => Walk.unchanged hs hv

theorem failsCleanly_of_ends {r : Except Halt (Int × Kernel)}
    (h : Ends nullPointer r fun r => r.1 = EOF → Unchanged s r.2) : FailsCleanly s r := by
  cases r with
  | error e => exact h
  | ok r => exact h

/-- The fields `sys_umount` reads of the inode of the target are those of its
    descriptor. -/
theorem Walk.fields (h : Walk s L t) (i : Nat) : t.mode i = u16At (s.bytes (t.desc i)) 0 ∧
    t.index (t.zone i) 0 = s.index ((t.desc i).add 14) 0 := by
  rw [Kernel.mode, Kernel.index, Kernel.zone, h.bytes, h.bytes]
  exact ⟨rfl, rfl⟩

theorem Walk.root (h : Walk s L t) :
    (t.super_table t.root).imount = (s.super_table s.root).imount := by
  rw [(h.supers _).2.2.2.2, show t.root = s.root by rw [h.frame]]

/-- The target is where the root file system is mounted. -/
theorem Walk.atRoot (hs : Mounted s) (h : Walk s [i] t) :
    some i = (t.super_table t.root).imount ↔
      (s.super_table s.root).imount.map (slotNode s) = some (slotNode t i) := by
  obtain ⟨m, hm, -⟩ := hs.tree.imounts s.root hs.root.1 hs.root.2
  have hmrefs := imount_refs hs.root.1 hs.root.2 hm
  rw [Walk.root h, hm, Option.map_some, Option.some.injEq, Option.some.injEq,
    ← (h.kept m hmrefs).1]
  constructor
  · rintro rfl
    rfl
  · intro hnode
    exact (h.slots.unique i m (h.used (Or.inr (List.mem_singleton_self i)))
      (h.plain i (List.mem_singleton_self i)) hnode).symm

/-- `sys_umount` behind `namei`, by what the target is. -/
theorem umountInode_run {n : Nat} (hs : Mounted s) (h : Walk s [i] t) : umountInode i n t =
    (if Eligible s (slotNode t i) (t.desc i) then
      umountDevice i (deviceOf s (slotNode t i) (t.desc i))
    else leave none (some i) EOF) n t := by
  obtain ⟨hmode, hzone⟩ := Walk.fields h i
  have hroot := Walk.atRoot hs h
  have hrun : umountInode i n t =
      (if ¬ ISBLK (t.mode i) ∧ (t.inode_table i).nr ≠ 1 then leave none (some i) EOF
      else if some i = (t.super_table t.root).imount then leave none (some i) EOF
      else if ISBLK (t.mode i) then umountDevice i (t.index (t.zone i) 0).toNat
      else umountDevice i (t.inode_table i).dev) n t := rfl
  rw [hrun, hmode, hzone, deviceOf]
  by_cases hb : ISBLK (u16At (s.bytes (t.desc i)) 0)
  · rw [if_neg fun hx => hx.1 hb, if_pos hb, if_pos hb]
    by_cases hr : some i = (t.super_table t.root).imount
    · rw [if_pos hr, if_neg fun he => he.2 (hroot.mp hr)]
    · rw [if_neg hr, if_pos ⟨Or.inl hb, fun hx => hr (hroot.mpr hx)⟩]
  · rw [if_neg hb, if_neg hb]
    by_cases hn : (t.inode_table i).nr = 1
    · rw [if_neg fun hx => hx.2 hn]
      by_cases hr : some i = (t.super_table t.root).imount
      · rw [if_pos hr, if_neg fun he => he.2 (hroot.mp hr)]
      · rw [if_neg hr, if_pos ⟨Or.inr hn, fun hx => hr (hroot.mpr hx)⟩]
        rfl
    · rw [if_pos ⟨hb, hn⟩, if_neg fun he => he.1.elim hb hn]

/-- The device of a target is not that of a free super block. -/
theorem deviceOf_ne (h : Walk s [i] t) : deviceOf s (slotNode t i) (t.desc i) ≠ EOF := by
  rw [deviceOf]
  split_ifs
  · intro heq
    have hneg : ((s.index ((t.desc i).add 14) 0).toNat : Int) = -1 := heq
    omega
  · exact h.used (Or.inr (List.mem_singleton_self i))

theorem umount_clean {task : Task} {fuel : Nat} (hs : Mounted s) (ha : Alive s)
    (ht : s.task_table s.current = some task) (hfuel : target.length ≤ fuel)
    (hclean : Clean s task target) : FailsCleanly s (sysUmount target fuel s) := by
  refine failsCleanly_of_ends ?_
  have hnamei : Ends nullPointer (namei target fuel s) fun r =>
      Named s (resolve s task target) r.1 r.2 := by
    have hn := namei_walk hs.tree ha ht hfuel
    cases hr : namei target fuel s with
    | ok r =>
        rw [hr] at hn
        exact hn
    | error e =>
        rw [hr] at hn
        intro he
        obtain ⟨hp, -⟩ := not_not.mp hn
        rw [hp] at he
        cases he
  refine Ends.bind hnamei ?_
  rintro ⟨r, t⟩ hnamed
  cases hres : resolve s task target with
  | none =>
      rw [hres] at hnamed
      obtain ⟨rfl, hwalk⟩ := hnamed
      exact fun _ => Walk.unchanged hs.tree hwalk
  | some n =>
      rw [hres] at hnamed
      obtain ⟨i, rfl, rfl, hwalk⟩ := hnamed
      have hdesc := hwalk.desc (Or.inr (List.mem_singleton_self i))
        (hwalk.plain i (List.mem_singleton_self i))
      show Ends nullPointer (umountInode i fuel t) _
      rw [umountInode_run hs hwalk]
      refine From.ite (fun he => ?_) (fun _ => leave_clean hs.tree hwalk) fuel t rfl
      obtain ⟨k, hk, hone⟩ := hclean _ _ hres hdesc he
      refine (umountDevice_clean hs.tree hwalk hk (deviceOf_ne hwalk) hone).post ?_
      rintro _ u rfl heof
      exact absurd heof (by decide)

/-! ## The condition is needed -/

/-- There are references to drop for each pointer of the list, and slot 0 keeps
    one. -/
structure Droppable (L : List Nat) (t : Kernel) : Prop where
  listed : ∀ i ∈ L, (t.inode_table i).pipe = false ∧ Listed t i
  counts : ∀ i, L.count i ≤ (t.inode_table i).count
  root : L.count 0 < (t.inode_table 0).count

theorem iput_droppable (h : Droppable (i :: L) t) :
    From bad t (iput (some i)) fun _ u =>
      Droppable L u ∧ ∀ k, (u.super_table k).count = (t.super_table k).count ∧
        (u.super_table k).iroot = (t.super_table k).iroot := by
  obtain ⟨hpipe, hlisted⟩ := h.listed i List.mem_cons_self
  have hcount := h.counts i
  rw [List.count_cons_self] at hcount
  have hlast : (t.inode_table i).count = 1 → Listed t i ∧ i ≠ 0 := by
    refine fun hone => ⟨hlisted, ?_⟩
    rintro rfl
    have hroot := h.root
    rw [List.count_cons_self] at hroot
    omega
  refine (iput_runs hpipe (by omega) hlast).post ?_
  rintro _ u rfl
  have hcounts : ∀ j, L.count j ≤ ((lessCount t i).inode_table j).count ∧
      (j = 0 → L.count j < ((lessCount t i).inode_table j).count) := by
    intro j
    have hj := h.counts j
    by_cases hji : j = i
    · subst hji
      rw [lessCount_self]
      show _ ≤ (t.inode_table j).count - 1 ∧ (_ → _ < (t.inode_table j).count - 1)
      refine ⟨by omega, ?_⟩
      rintro rfl
      have hroot := h.root
      rw [List.count_cons_self] at hroot
      omega
    · rw [lessCount_other t hji]
      rw [List.count_cons_of_ne (Ne.symm hji)] at hj
      refine ⟨hj, ?_⟩
      rintro rfl
      have hroot := h.root
      rwa [List.count_cons_of_ne (Ne.symm hji)] at hroot
  by_cases hone : (t.inode_table i).count = 1
  · rw [if_pos hone]
    have hL : i ∉ L := by
      rw [← List.count_eq_zero]
      omega
    refine ⟨⟨fun j hj => ?_, fun j => ?_, ?_⟩, fun k => ⟨rfl, rfl⟩⟩
    · have hji : j ≠ i := fun heq => hL (heq ▸ hj)
      obtain ⟨hp, k, hk, hin⟩ := h.listed j (List.mem_cons_of_mem _ hj)
      rw [freeSlot_other _ hji, lessCount_other _ hji]
      exact ⟨hp, k, hk, (List.mem_erase_of_ne hji).mpr hin⟩
    · rw [freeSlot_count]
      exact (hcounts j).1
    · rw [freeSlot_count]
      exact (hcounts 0).2 rfl
  · rw [if_neg hone]
    refine ⟨⟨fun j hj => ?_, fun j => (hcounts j).1, (hcounts 0).2 rfl⟩, fun k => ⟨rfl, rfl⟩⟩
    rw [(lessCount_same t i j).2.1]
    exact h.listed j (List.mem_cons_of_mem _ hj)

/-- A store to a super block that leaves its list alone. -/
theorem Droppable.setSuper {f : SuperBlock → SuperBlock} (h : Droppable L t)
    (hf : ∀ sb, (f sb).inode_list = sb.inode_list) : Droppable L (t.setSuper k f) := by
  have hlist : ∀ j, ((t.setSuper k f).super_table j).inode_list = (t.super_table j).inode_list := by
    intro j
    by_cases hj : j = k
    · subst hj
      simp only [Kernel.setSuper, Function.update_self, hf]
    · simp only [Kernel.setSuper, Function.update_of_ne hj]
  refine ⟨fun i hi => ?_, h.counts, h.root⟩
  obtain ⟨hp, k', hk', hin⟩ := h.listed i hi
  exact ⟨hp, k', hk', by rw [hlist]; exact hin⟩

theorem Droppable.tail {K : List Nat} (h : Droppable (K ++ L) t) : Droppable L t := by
  refine ⟨fun i hi => h.listed i (List.mem_append_right _ hi), fun i => ?_, ?_⟩
  · have hi := h.counts i
    rw [List.count_append] at hi
    omega
  · have hroot := h.root
    rw [List.count_append] at hroot
    omega

/-- `put_super` of a mounted super block changes its count. -/
theorem putSuper_drops {m r : Nat} (h : Droppable [m, r, i] t)
    (hcount : 0 < (t.super_table k).count) (hm : (t.super_table k).imount = some m)
    (hr : (t.super_table k).iroot = some r) :
    From bad t (putSuper (some k)) fun _ u =>
      Droppable [i] u ∧ (u.super_table k).count ≠ (t.super_table k).count := by
  have hself : ∀ (x : Kernel) (f : SuperBlock → SuperBlock),
      (x.setSuper k f).super_table k = f (x.super_table k) := fun x f => Function.update_self ..
  refine From.get (past_assert hcount (From.set (From.get ?_)))
  have hless := h.setSuper (k := k) (f := fun sb => { sb with count := sb.count - 1 }) fun _ => rfl
  refine From.ite (fun _ => From.pure ⟨Droppable.tail (K := [m, r]) hless, ?_⟩) fun hlast => ?_
  · rw [hself]
    show (t.super_table k).count - 1 ≠ _
    omega
  · have hfree := hless.setSuper (k := k) (f := fun sb => { sb with dev := EOF }) fun _ => rfl
    refine From.set (From.get ?_)
    rw [hself, hself, show ({ t.super_table k with
      count := (t.super_table k).count - 1, dev := EOF } : SuperBlock).imount = some m from hm]
    refine From.bind (iput_droppable hfree) fun _ u ⟨hu, hsame⟩ => From.get ?_
    have hiroot : (u.super_table k).iroot = some r := by
      rw [(hsame k).2, hself, hself]
      exact hr
    rw [hiroot]
    refine (iput_droppable hu).post fun _ v ⟨hv, hsame'⟩ => ⟨hv, ?_⟩
    rw [(hsame' k).1, (hsame k).1, hself, hself]
    show (t.super_table k).count - 1 ≠ _
    omega

theorem count_points (j i : Nat) (L : List Nat) :
    (j :: L).count i = points (some j) i + L.count i := by
  rw [List.count_cons, points]
  by_cases h : j = i
  · subst h
    simp [Nat.add_comm]
  · simp [h]

/-- The super block's pointers to slot 0 are not the only ones. -/
theorem Mounted.refs (hs : Mounted s) (hk : k < SUPER_NR) (i : Nat) :
    superHolds (s.super_table k) i ≤ inodeRefs s i ∧
      superHolds (s.super_table k) 0 < inodeRefs s 0 := by
  refine ⟨superHolds_le hk, ?_⟩
  obtain ⟨c, task, hc, hlive, hroot⟩ := hs.idle
  have hcn := slot_lt (L := []) hs.tree.exact hc
  have htask := NeonixTally.term_le (f := fun t => taskHolds (s.task_table t) 0)
    (Finset.mem_range.mpr hcn)
  have hsuper := NeonixTally.term_le (f := fun k => superHolds (s.super_table k) 0)
    (Finset.mem_range.mpr hk)
  have hone : 1 ≤ taskHolds (s.task_table c) 0 := by
    rw [hc, taskHolds_live task hlive, hroot, points, points, if_pos rfl]
    omega
  rw [inodeRefs]
  omega

/-- After the walk the references of a mounted super block can be dropped, and that
    of the walk. -/
theorem Walk.droppable (hs : Mounted s) (h : Walk s [i] t) (hk : getSuper s dev = some k)
    (hdev : dev ≠ EOF) : ∃ m r, (t.super_table k).imount = some m ∧
      (t.super_table k).iroot = some r ∧ 0 < (t.super_table k).count ∧ Droppable [m, r, i] t := by
  obtain ⟨hkn, hkd⟩ := getSuper_some hk
  have hkdev : (s.super_table k).dev ≠ EOF := by rwa [hkd]
  obtain ⟨m, hm, hmdir⟩ := hs.tree.imounts k hkn hkdev
  obtain ⟨r, hr, hrpipe, -⟩ := hs.tree.iroots k hkn hkdev
  obtain ⟨-, -, hcount, hiroot, himount⟩ := h.supers k
  have hholds : ∀ j, superHolds (s.super_table k) j = points (some r) j + points (some m) j := by
    intro j
    rw [superHolds, if_neg hkdev, hr, hm]
  have hlisted : ∀ j, (inodeRefs s j ≠ 0 ∨ j ∈ [i]) → (t.inode_table j).pipe = false →
      (t.inode_table j).pipe = false ∧ Listed t j :=
    fun j hj hp => ⟨hp, h.slots.listed (h.used hj) hp⟩
  have hmrefs := imount_refs hkn hkdev hm
  have hrrefs := iroot_refs hkn hkdev hr
  refine ⟨m, r, himount.trans hm, hiroot.trans hr, ?_, fun j hj => ?_, fun j => ?_, ?_⟩
  · rw [hcount]
    exact hs.counted k hkn hkdev
  · rcases List.mem_cons.mp hj with rfl | hj
    · exact hlisted _ (Or.inl hmrefs) ((h.kept _ hmrefs).2.1.trans hmdir.1)
    rcases List.mem_cons.mp hj with rfl | hj
    · exact hlisted _ (Or.inl hrrefs) ((h.kept _ hrrefs).2.1.trans hrpipe)
    · exact hlisted j (Or.inr hj) (h.plain j hj)
  · have hle := (hs.refs hkn j).1
    rw [hholds] at hle
    rw [h.count, count_points, count_points]
    omega
  · have hlt := (hs.refs hkn 0).2
    rw [hholds] at hlt
    rw [h.count, count_points, count_points]
    omega

/-- `sys_umount` of a device that is not mounted looks at a null pointer, and of a
    busy one returns `EOF` with the count of the super block changed. -/
theorem umountDevice_dirty {n : Nat} (hs : Mounted s) (h : Walk s [i] t) (hdev : dev ≠ EOF)
    (hbad : ¬ ∃ k, getSuper s dev = some k ∧ inodesWith s k (slotNode t i) ≤ 1) :
    ¬ FailsCleanly s (umountDevice i dev n t) := by
  cases hk : getSuper s dev with
  | none =>
      have hends : From (fun e => ¬ nullPointer e) t (umountDevice i dev) fun _ _ => False := by
        refine From.get ?_
        rw [h.getSuper, hk]
        exact From.bind (Q := fun _ _ => False) (From.stop (not_not.mpr rfl)) fun _ _ hu => hu.elim
      have hrun := hends n t rfl
      intro hf
      cases hx : umountDevice i dev n t with
      | error e =>
          rw [hx] at hrun hf
          exact hf (not_not.mp hrun)
      | ok r =>
          rw [hx] at hrun
          exact hrun
  | some k =>
      have hbusy : ¬ inodesWith s k (slotNode t i) ≤ 1 := fun hle => hbad ⟨k, hk, hle⟩
      obtain ⟨m, r, hm, hr, hcount, hdrop⟩ := Walk.droppable hs h hk hdev
      have hends : From (fun _ => True) t (umountDevice i dev) fun ret u =>
          ret = EOF ∧ (u.super_table k).count ≠ (s.super_table k).count := by
        refine From.get ?_
        rw [h.getSuper, hk]
        refine past_deref (From.get ?_)
        rw [hm]
        refine From.ite (fun _ => ?_) fun hfree => ?_
        · refine From.bind (putSuper_drops hdrop hcount hm hr) fun _ u ⟨hu, hne⟩ => ?_
          refine From.bind (iput_droppable hu) fun _ v ⟨_, hsame⟩ => From.pure ⟨rfl, ?_⟩
          rw [(hsame k).1, ← (h.supers k).2.2.1]
          exact hne
        · rw [Walk.list_length hs.tree h hk hdev] at hfree
          omega
      have hrun := hends n t rfl
      intro hf
      cases hx : umountDevice i dev n t with
      | error e =>
          rw [hx] at hrun
          exact hrun trivial
      | ok r =>
          rw [hx] at hrun hf
          exact hrun.2 ((hf hrun.1).supers k).2.1

theorem umount_dirty {task : Task} {fuel : Nat} (hs : Mounted s) (ha : Alive s)
    (ht : s.task_table s.current = some task) (hfuel : target.length ≤ fuel)
    (hroom : ¬ Crowded s) (hbad : ¬ Clean s task target) :
    ¬ FailsCleanly s (sysUmount target fuel s) := by
  have hnamei := namei_walk hs.tree ha ht hfuel
  cases hr : namei target fuel s with
  | error e =>
      rw [hr] at hnamei
      exact absurd (not_not.mp hnamei).2 hroom
  | ok r =>
      obtain ⟨r, t⟩ := r
      rw [hr] at hnamei
      obtain ⟨n, desc, hres, hdesc, hel, hnone⟩ : ∃ n desc, resolve s task target = some n ∧
          descOf s n = some desc ∧ Eligible s n desc ∧
            ¬ ∃ k, getSuper s (deviceOf s n desc) = some k ∧ inodesWith s k n ≤ 1 := by
        by_contra hno
        refine hbad fun n desc hres hdesc hel => ?_
        by_contra hk
        exact hno ⟨n, desc, hres, hdesc, hel, hk⟩
      rw [hres] at hnamei
      obtain ⟨i, rfl, rfl, hwalk⟩ := hnamei
      have hdesc' := hwalk.desc (Or.inr (List.mem_singleton_self i))
        (hwalk.plain i (List.mem_singleton_self i))
      obtain rfl := Option.some.inj (hdesc'.symm.trans hdesc)
      have hrun : sysUmount target fuel s = umountInode i fuel t := by
        rw [sysUmount, bind_run hr]
      rw [hrun, umountInode_run hs hwalk, if_pos hel]
      exact umountDevice_dirty hs hwalk (deviceOf_ne hwalk) hnone

/-- A failed `sys_umount` changes nothing and looks at no null super block if, and
    with two free slots in the inode table only if, the target has no super block
    to get, or its device is mounted and not busy. -/
theorem umount_fails_cleanly {task : Task} {fuel : Nat} (hs : Mounted s) (ha : Alive s)
    (ht : s.task_table s.current = some task) (hfuel : target.length ≤ fuel) :
    (Clean s task target → FailsCleanly s (sysUmount target fuel s)) ∧
    (¬ Crowded s → FailsCleanly s (sysUmount target fuel s) → Clean s task target) := by
  refine ⟨umount_clean hs ha ht hfuel, fun hroom hf => ?_⟩
  by_contra hbad
  exact umount_dirty hs ha ht hfuel hroom hbad hf

theorem bootState_mounted : Mounted bootState where
  tree := bootState_tree
  root := by decide
  counted := fun _ _ _ => Nat.one_pos
  idle := ⟨0, bootTask, rfl, rfl, rfl⟩

/-- `/`. -/
def pathRoot : Str := [0x2F]

theorem umount_fails_cleanly_root : ¬ Crowded bootState ∧ Clean bootState bootTask pathRoot ∧
    FailsCleanly bootState (sysUmount pathRoot 1 bootState) := by
  have hres : resolve bootState bootTask pathRoot = some { dev := 1, nr := 1 } := by decide +kernel
  have hclean : Clean bootState bootTask pathRoot := by
    rintro n desc hn - hel
    rw [hres] at hn
    obtain rfl := Option.some.inj hn
    exact absurd rfl hel.2
  refine ⟨by decide +kernel, hclean, ?_⟩
  exact (umount_fails_cleanly bootState_mounted bootState_alive rfl Nat.le.refl).1 hclean

/-- `/b`. -/
def pathB : Str := [0x2F, 0x62]

/-- A task makes a block device file. -/
def mknodRun (dev : BitVec 32) : List Event :=
  [.call 0 4 0 (.mknod pathB 0o060600 dev)]

/-- The call looked at a null pointer, or it failed and changed a count. -/
def dirty (s : Kernel) (r : Except Halt (Int × Kernel)) : Bool :=
  match r with
  | .error e => e = .stopped .outOfBounds
  | .ok (ret, t) => ret = EOF ∧ (t.super_table 0).count ≠ (s.super_table 0).count

theorem not_failsCleanly_of_dirty {r : Except Halt (Int × Kernel)} (h : dirty s r = true) :
    ¬ FailsCleanly s r := by
  cases r with
  | error e => exact fun hf => hf (of_decide_eq_true h)
  | ok r =>
      obtain ⟨heof, hne⟩ := of_decide_eq_true h
      exact fun hf => hne ((hf heof).supers 0).2.1

theorem mknodRun_dirty {dev : BitVec 32}
    (h : ((follow free Enabled exec bootState (mknodRun dev)).any fun s =>
      dirty s (sysUmount pathB 2 s)) = true) :
    ∃ s, follow free Enabled exec bootState (mknodRun dev) = some s ∧ Reach system free s ∧
      ¬ FailsCleanly s (sysUmount pathB 2 s) := by
  obtain ⟨s, hs, hd⟩ := (Option.any_eq_true ..).mp h
  have hstart : Reach system free bootState := Reach.start bootState_ledger
  exact ⟨s, hs, hstart.follow _ hs, not_failsCleanly_of_dirty hd⟩

/-- `umount` of a block device file: of a device that is not mounted, and of the
    busy device of the root file system. -/
theorem umount_not_clean :
    (∃ s, follow free Enabled exec bootState (mknodRun 7) = some s ∧ Reach system free s ∧
      ¬ FailsCleanly s (sysUmount pathB 2 s)) ∧
    ∃ s, follow free Enabled exec bootState (mknodRun 1) = some s ∧ Reach system free s ∧
      ¬ FailsCleanly s (sysUmount pathB 2 s) :=
  ⟨mknodRun_dirty (by decide +kernel), mknodRun_dirty (by decide +kernel)⟩

end NeonixUmount
