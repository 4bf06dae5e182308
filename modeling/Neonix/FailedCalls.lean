import Neonix.BlindCalls

/-! # Calls that fail

    The calls that make or remove a name return `EOF` on one way only: behind
    `rollback`.  Up to there a call reads blocks and takes references, and writes
    nothing; `rollback` then drops what the call holds, whichever directory the
    walk has come to. -/

namespace NeonixFailedCalls

open NeonixMachine NeonixOutcome NeonixByteBits NeonixWords NeonixVolume NeonixCalls
  NeonixFileSystem NeonixNamei NeonixFiles NeonixFrames NeonixRuns NeonixInodeRefs NeonixPathRefs
  NeonixReferenceCounts NeonixBlindCalls

variable {s t u : Kernel} {L : List Nat} {α β : Type} {x : Fs α} {f : α → Fs β} {dir i j : Nat}
  {name next : Str}

/-! ## Calls that read -/

/-- The call changes nothing. -/
def Reads {α : Type} (x : Fs α) : Prop := ∀ s, From never s x fun _ t => t = s

theorem Reads.keeps (h : Reads x) {P : Kernel → Prop} : Keeps P x :=
  Triple.intro fun s hs => (h s).post fun _ _ ht => ht ▸ hs

theorem Reads.bind (hx : Reads x) (hf : ∀ a, Reads (f a)) : Reads (x >>= f) := by
  intro s
  refine From.bind (hx s) ?_
  rintro a t rfl
  exact hf a t

theorem Reads.pure {a : α} : Reads (Pure.pure a : Fs α) := fun _ => From.pure rfl

theorem Reads.stop {e : Halt} : Reads (NeonixCalls.stop e : Fs α) := fun _ => From.stop not_false

theorem Reads.get : Reads (get : Fs Kernel) := fun _ _ _ h => h

theorem Reads.ite {p : Prop} [Decidable p] {y : Fs α} (ht : Reads x) (he : Reads y) :
    Reads (if p then x else y) := fun s => From.ite (fun _ => ht s) fun _ => he s

theorem Reads.assert {p : Prop} [Decidable p] : Reads (assert p) := .ite .pure .stop

/-- Without `create` nothing is allocated. -/
theorem reads_slot {dev : Dev} {array : Place} {index : Nat} :
    Reads (slot dev false array index) := by
  refine .bind .get fun s => .bind ?_ fun _ => .bind .get fun _ => .pure
  rw [onlyIf, if_neg fun h => Bool.false_ne_true h.2]
  exact .pure

theorem reads_reckon {dev : Dev} {level index block divider : Nat} {array : Place} :
    Reads (reckon dev false level array index block divider) := by
  induction level generalizing array index block divider with
  | zero => exact reads_slot
  | succ level ih => exact .bind reads_slot fun _ => .ite .pure ih

theorem reads_bmap {inode block : Nat} : Reads (bmap inode block false) := by
  refine Reads.bind Reads.assert fun _ => Reads.bind Reads.get fun s => ?_
  refine Reads.ite ?_ ?_
  · exact reads_reckon
  refine Reads.ite ?_ ?_
  · exact reads_reckon
  refine Reads.bind ?_ ?_
  · exact Reads.assert
  · intro _
    exact reads_reckon

theorem reads_entryAt {entry : Option Place} : Reads (entryAt dir i false entry) := by
  rw [entryAt]
  cases entry.filter fun entry => entry.off < BLOCK_SIZE with
  | none => exact .bind reads_bmap fun _ => .bind .assert fun _ => .bind .get fun _ => .pure
  | some entry => exact .pure

theorem reads_matchEntry {entry : Place} : Reads (matchEntry name entry) := by
  refine .bind .get fun s => ?_
  cases matchName name (s.bytes (entry.add 2)) (BLOCK_SIZE - (entry.off + 2)) with
  | error e => exact .stop
  | ok m => exact .pure

theorem reads_findLoop {left : Nat} {entry : Option Place} :
    Reads (findLoop dir name left i entry next) := by
  induction left generalizing i entry next with
  | zero => exact .pure
  | succ left ih =>
      refine .bind reads_entryAt fun _ => .bind reads_matchEntry fun _ => .bind .get fun _ => ?_
      exact .ite .pure ih

theorem reads_countLoop {left count : Nat} {entry : Option Place} :
    Reads (countLoop i left j entry count) := by
  induction left generalizing j entry count with
  | zero => exact .pure
  | succ left ih => exact .bind reads_entryAt fun _ => .bind .get fun _ => ih

theorem reads_isEmpty : Reads (isEmpty i) :=
  .bind .get fun _ => .bind .assert fun _ => .bind .get fun _ => .ite .pure <|
    .bind reads_countLoop fun _ => .pure

/-! ## Nothing but references -/

/-- An in-memory inode less its count. -/
def rest (inode : Inode) : Inode := { inode with count := 0 }

/-- Blocks, open files, tasks and mounts are those of `s`, and so is every
    in-memory inode that was in use there, but for its count. -/
structure Same (s t : Kernel) : Prop where
  disk : t.disk = s.disk
  files : t.file_table = s.file_table
  tasks : t.task_table = s.task_table
  current : t.current = s.current
  mounts : SameMounts s t
  inodes : ∀ i, inodeRefs s i ≠ 0 → rest (t.inode_table i) = rest (s.inode_table i)

/-- The call holds the references of the list, and nothing else is different. -/
def Beside (s : Kernel) (L : List Nat) (t : Kernel) : Prop := Holds L t ∧ Same s t

theorem Same.refl (s : Kernel) : Same s s :=
  ⟨rfl, rfl, rfl, rfl, fun _ => ⟨rfl, rfl, rfl⟩, fun _ _ => rfl⟩

theorem Same.refs (h : Same s t) (i : Nat) : inodeRefs t i = inodeRefs s i :=
  h.mounts.inodeRefs h.files h.tasks i

theorem Same.alive (h : Same s t) (ha : Alive s) : Alive t := by
  rw [Alive, h.tasks, h.current]
  exact ha

/-- An inode in use at the start is in use. -/
theorem Beside.used (h : Beside s L t) (hi : inodeRefs s i ≠ 0) : (t.inode_table i).dev ≠ EOF :=
  Holds.refs h.1 (by rw [h.2.refs]; exact hi)

theorem Beside.swap (h : Beside s (i :: j :: L) t) : Beside s (j :: i :: L) t :=
  ⟨h.1.swap, h.2⟩

/-- A store to an in-memory inode leaves what it does not write. -/
theorem rest_setInode {g : Inode → Inode}
    (hg : rest (g (t.inode_table i)) = rest (t.inode_table i)) :
    rest ((t.setInode i g).inode_table j) = rest (t.inode_table j) := by
  show rest (Function.update t.inode_table i (g (t.inode_table i)) j) = _
  by_cases hji : j = i
  · subst hji
    rw [Function.update_self]
    exact hg
  · rw [Function.update_of_ne hji]

/-- A store that writes the count of an inode only, or one that was not in use. -/
theorem Same.setInode {g : Inode → Inode} (h : Same s t)
    (hg : inodeRefs s i ≠ 0 → rest (g (t.inode_table i)) = rest (t.inode_table i)) :
    Same s (t.setInode i g) where
  disk := h.disk
  files := h.files
  tasks := h.tasks
  current := h.current
  mounts := h.mounts
  inodes := by
    intro j hj
    rw [← h.inodes j hj]
    by_cases hji : j = i
    · exact rest_setInode (hg (hji ▸ hj))
    · exact congrArg rest (Function.update_of_ne hji ..)

theorem Same.hold (h : Same s t) : Same s (t.hold i) := h.setInode fun _ => rfl

/-! ## `iput` -/

/-- Another field of a super block than those of a mount. -/
theorem Same.lists (h : Same s t) {l : Nat → List Nat} :
    Same s { t with super_table := fun k => { t.super_table k with inode_list := l k } } :=
  ⟨h.disk, h.files, h.tasks, h.current, h.mounts, h.inodes⟩

theorem putFreeInode_same (h : Same s t) (hi : inodeRefs s i = 0) :
    From never t (putFreeInode i) fun _ u => Same s u :=
  from_assert fun _ => From.get (from_assert fun _ => From.store (h.setInode fun hne => absurd hi hne))

/-- `iput` frees a slot where the count was 1. -/
theorem iput_same (h : Same s t) (hi : inodeRefs s i ≠ 0 → 1 < (t.inode_table i).count) :
    From never t (iput (some i)) fun _ u => Same s u := by
  have hself : (t.setInode i fun inode => { inode with count := decr inode.count }).inode_table i =
      { t.inode_table i with count := decr (t.inode_table i).count } := Function.update_self ..
  have hless : Same s (t.setInode i fun inode => { inode with count := decr inode.count }) :=
    h.setInode fun _ => rfl
  -- where the count has come to 0 nothing else points to the inode
  have hlast : ¬ decr (t.inode_table i).count ≠ 0 → inodeRefs s i = 0 := by
    intro h0
    by_contra hrefs
    have hcount := hi hrefs
    rw [decr, if_neg (by omega)] at h0
    omega
  refine From.get (From.ite (fun _ => ?_) fun _ => ?_)
  · refine From.set (From.get (From.ite (fun _ => From.pure hless) fun h0 => ?_))
    rw [hself] at h0
    exact From.set (putFreeInode_same (hless.setInode fun hne => absurd (hlast h0) hne) (hlast h0))
  · refine From.set (From.get (From.ite (fun _ => From.pure hless) fun h0 => ?_))
    rw [hself] at h0
    exact From.bind (From.get (from_assert fun _ => From.store hless.lists)) fun _ u hu =>
      putFreeInode_same hu (hlast h0)

/-- What the call holds is dropped. -/
theorem iput_beside :
    Triple never (Beside s (i :: L)) (iput (some i)) fun _ => Beside s L := by
  refine Triple.intro fun t h => (iput_holds.start h.1).and (iput_same h.2 fun hi => ?_)
  have hcount := Ledger.inodes h.1 i
  have hpos := held_nonneg L i
  rw [h.2.refs, held_cons] at hcount
  change _ = (inodeRefs s i : Int) + (held L i + if i = i then 1 else 0) at hcount
  rw [if_pos rfl] at hcount
  omega

/-- Behind `rollback` the state is that before the call. -/
theorem rollback_beside : Triple never (Beside s L) (rollback L) fun _ => Beside s [] := by
  induction L with
  | nil => exact fun _ _ h => h
  | cons i L ih => exact Triple.bind iput_beside fun _ => ih

/-- The last reference is dropped. -/
theorem drop_beside {a : α} {Q : α → Kernel → Prop} (h : Beside s (i :: L) t)
    (hQ : ∀ u, Beside s L u → Q a u) : From never t (do iput (some i); return a) Q :=
  From.bind (iput_beside.start h) fun _ u hu => From.pure (hQ u hu)

/-! ## Path walks -/

theorem fitInode_beside :
    Triple never (Beside s (i :: L)) (fitInode i) fun r => Beside s (r :: L) := by
  refine Triple.intro fun t h => (fitInode_holds.start h.1).and ?_
  refine From.get (From.ite (fun _ => From.pure h.2) fun _ => From.bind theSuper_spec ?_)
  rintro k t ⟨rfl, -⟩
  refine From.bind (iput_beside.start h) fun _ u hu => From.get (from_deref fun r _ => ?_)
  exact From.set (From.pure hu.2.hold)

theorem iget_beside {dev : Dev} {nr : Nat} (hdev : dev ≠ EOF) :
    Triple never (Beside s L) (iget dev nr) fun r => Beside s (r :: L) := by
  refine Triple.intro fun t h => ((iget_holds hdev).start h.1).and (From.bind findInode_spec ?_)
  rintro found t ⟨rfl, k, hk, rfl⟩
  cases hfind : (t.super_table k).inode_list.find? fun i => (t.inode_table i).nr = nr with
  | some i =>
      have hi : Listed t i := ⟨k, (getSuper_some hk).1, List.mem_of_find?_eq_some hfind⟩
      have hhold : Beside s (i :: L) (t.hold i) :=
        ⟨Holds.hold h.1 (Ledger.listedInUse h.1 hi).1, h.2.hold⟩
      exact From.set ((fitInode_beside.start hhold).post fun _ _ hu => hu.2)
  | none =>
      refine From.bind theSuper_spec ?_
      rintro k' t ⟨rfl, -⟩
      refine From.get (from_assert fun _ => From.bind getFreeInode_spec ?_)
      rintro i t ⟨rfl, -, hfree⟩
      -- a free slot has not been in use at the start
      have hidle : ¬ inodeRefs s i ≠ 0 := fun hi => h.used hi hfree
      have hload := h.2.setInode (i := i)
        (g := fun inode => { inode with dev := dev, nr := nr, count := inode.count + 1 })
        fun hi => absurd hi hidle
      refine From.set (From.get (from_assert fun _ => From.set (From.set (From.pure ?_))))
      refine Same.setInode ⟨hload.disk, hload.files, hload.tasks, hload.current, ?_, hload.inodes⟩
        fun hi => absurd hi hidle
      intro j
      by_cases hj : j = k'
      · subst hj
        simp only [Kernel.setSuper, Function.update_self]
        exact hload.mounts j
      · simp only [Kernel.setSuper, Function.update_of_ne hj]
        exact hload.mounts j

theorem crossUp_beside :
    Triple never (Beside s (dir :: L)) (crossUp dir) fun m => Beside s (m :: L) := by
  refine Triple.intro fun t h => ((crossUp_holds.start h.1).post fun _ _ hu => hu.1).and ?_
  refine From.get (From.get (from_deref fun k hk => From.get (from_deref fun m hm => From.set ?_)))
  obtain ⟨hk, hdev⟩ := getSuper_some hk
  have hused : (t.super_table k).dev ≠ EOF := by
    rw [hdev]
    exact Holds.dev h.1
  have hhold : Beside s (dir :: m :: L) (t.hold m) :=
    ⟨(Holds.hold h.1 (Holds.refs h.1 (imount_refs hk hused hm))).swap, h.2.hold⟩
  exact From.bind (iput_beside.start hhold) fun _ u hu => From.pure hu.2

theorem startDir_beside {up : Bool} :
    Triple never (Beside s (dir :: L)) (startDir dir up) fun m => Beside s (m :: L) :=
  Triple.intro fun _ h => From.get <|
    From.ite (fun _ => crossUp_beside.start h) fun _ => From.pure h

theorem findEntry_beside :
    Triple never (Beside s (dir :: L)) (findEntry dir name next) fun r =>
    Beside s (r.2.1 :: L) := by
  refine Triple.intro fun t h => From.get (from_assert fun _ => from_ofRes fun up _ => ?_)
  refine From.bind (startDir_beside.start h) fun m u hu => From.get ?_
  exact From.bind (reads_findLoop.keeps.start hu) fun r v hv => From.pure hv

/-- What a walk that may fail holds. -/
def BesideFound (s : Kernel) (L : List Nat) (found : Option Nat) : Kernel → Prop :=
  match found with
  | none => Beside s L
  | some i => Beside s (i :: L)

theorem namedLoop_beside {fuel : Nat} {right left : Str} :
    Triple never (Beside s (i :: L)) (namedLoop right fuel i left next) fun r =>
      BesideFound s L r.1 := by
  induction fuel generalizing i left next with
  | zero => exact Triple.stop not_false
  | succ fuel ih =>
      refine Triple.bind findEntry_beside fun r => ?_
      obtain ⟨entry, m, next'⟩ := r
      cases entry with
      | none => exact Triple.intro fun t ht => drop_beside ht fun _ hu => hu
      | some entry =>
          refine Triple.intro fun t ht => From.get ?_
          have hdev := Holds.dev ht.1
          refine From.bind (iput_beside.start ht) fun _ u hu => From.get ?_
          refine From.bind ((iget_beside hdev).start hu) fun m' v hv => From.get ?_
          refine From.ite (fun _ => drop_beside hv fun _ hw => hw) fun _ => ?_
          refine From.bind (keeps_permission.start hv) fun ok w hw => ?_
          refine From.ite (fun _ => drop_beside hw fun _ hx => hx) fun _ => ?_
          exact From.ite (fun _ => From.pure hw) fun _ => ih.start hw

theorem namedFrom_beside {left : Str} (h : Beside s L t) (hi : inodeRefs s i ≠ 0) :
    From never t (namedFrom i left) fun r => BesideFound s L r.1 := by
  have hhold : Beside s (i :: L) (t.hold i) := ⟨Holds.hold h.1 (h.used hi), h.2.hold⟩
  refine From.set (From.ite (fun _ => From.pure hhold) fun _ => ?_)
  cases strrsep left with
  | none => exact From.pure hhold
  | some right =>
      exact Triple.start (Triple.bind (Q := fun _ => Beside s (i :: L)) (fun _ _ hs => hs)
        fun _ => namedLoop_beside) hhold

theorem named_beside {pathname : Str} (ha : Alive s) :
    Triple never (Beside s L) (named pathname) fun r => BesideFound s L r.1 := by
  refine Triple.intro fun t h => From.bind runningTask_spec ?_
  rintro task t ⟨rfl, ht⟩
  rw [h.2.tasks, h.2.current] at ht
  obtain ⟨hpwd, hroot⟩ := ha.dirs ht
  cases pathname with
  | nil => exact From.pure h
  | cons c rest =>
      exact From.ite (fun _ => namedFrom_beside h hroot) fun _ => namedFrom_beside h hpwd

theorem namei_beside {pathname : Str} (ha : Alive s) :
    Triple never (Beside s L) (namei pathname) fun r => BesideFound s L r := by
  refine Triple.bind (named_beside ha) fun r => ?_
  rcases r with ⟨_ | dir, _ | ⟨c, next⟩⟩
  · exact fun _ _ hs => hs
  · exact fun _ _ hs => hs
  · exact fun _ _ hs => hs
  · refine Triple.bind findEntry_beside fun r => ?_
    obtain ⟨entry, m, _⟩ := r
    cases entry with
    | none => exact Triple.intro fun t ht => drop_beside ht fun _ hu => hu
    | some entry =>
        refine Triple.intro fun t ht => From.get ?_
        refine From.bind ((iget_beside (Holds.dev ht.1)).start ht) fun i u hu => ?_
        exact drop_beside hu.swap fun _ hv => hv

/-! ## Calls that fail -/

/-- Where the call returns `EOF` nothing but references is different from `s`, and
    none is held. -/
def Undone (s : Kernel) (r : Int) (t : Kernel) : Prop := r = EOF → Beside s [] t

theorem rollback_undone : Triple never (Beside s L) (rollback L) (Undone s) :=
  rollback_beside.post fun _ _ h _ => h

/-- The call does not return `EOF`. -/
def Succeeds (x : Fs Int) : Prop := ∀ s, From never s x fun r _ => r ≠ EOF

theorem Succeeds.after {f : α → Fs Int} (hf : ∀ a, Succeeds (f a)) : Succeeds (x >>= f) := by
  intro s
  refine From.bind (Q := fun _ _ => True) ?_ fun a t _ => hf a t
  rintro n t -
  cases x n t with
  | error e => exact not_false
  | ok r => exact True.intro

theorem Succeeds.done : Succeeds (return 0) := fun _ => From.pure (by decide)

theorem Succeeds.undone {x : Fs Int} {P : Kernel → Prop} (h : Succeeds x) :
    Triple never P x (Undone s) :=
  Triple.intro fun t _ => (h t).post fun _ _ hr he => absurd he hr

section Calls

variable (ha : Alive s)
include ha

theorem sysMkdir_undone {pathname : Str} {mode : BitVec 32} :
    Triple never (Beside s []) (sysMkdir pathname mode) (Undone s) := by
  refine Triple.bind (named_beside ha) fun r => ?_
  rcases r with ⟨_ | dir, _ | ⟨c, next⟩⟩
  · exact rollback_undone
  · exact rollback_undone
  · exact rollback_undone
  refine Triple.bind keeps_permission fun _ => Triple.ite (fun _ => rollback_undone) fun _ => ?_
  refine Triple.bind findEntry_beside fun r => ?_
  obtain ⟨entry, dir, _⟩ := r
  refine Triple.ite (fun _ => rollback_undone) fun _ => Succeeds.undone ?_
  refine .after fun _ => .after fun _ => .after fun _ => .after fun _ => .after fun _ => ?_
  refine .after fun _ => .after fun _ => .after fun _ => .after fun _ => .after fun _ => ?_
  refine .after fun _ => .after fun _ => .after fun _ => .after fun _ => .after fun _ => ?_
  exact .after fun _ => .after fun _ => .after fun _ => .after fun _ => .done

theorem sysMknod_undone {filename : Str} {mode dev : BitVec 32} :
    Triple never (Beside s []) (sysMknod filename mode dev) (Undone s) := by
  refine Triple.bind (named_beside ha) fun r => ?_
  rcases r with ⟨_ | dir, _ | ⟨c, next⟩⟩
  · exact rollback_undone
  · exact rollback_undone
  · exact rollback_undone
  refine Triple.bind keeps_permission fun _ => Triple.ite (fun _ => rollback_undone) fun _ => ?_
  refine Triple.bind findEntry_beside fun r => ?_
  obtain ⟨entry, dir, _⟩ := r
  refine Triple.ite (fun _ => rollback_undone) fun _ => Succeeds.undone ?_
  refine .after fun _ => .after fun _ => .after fun _ => .after fun _ => .after fun _ => ?_
  exact .after fun _ => .after fun _ => .after fun _ => .after fun _ => .after fun _ => .done

theorem sysLink_undone {oldname newname : Str} :
    Triple never (Beside s []) (sysLink oldname newname) (Undone s) := by
  refine Triple.bind (namei_beside ha) fun r => ?_
  cases r with
  | none => exact rollback_undone
  | some i =>
      refine Triple.bind Keeps.get fun _ => Triple.ite (fun _ => rollback_undone) fun _ => ?_
      refine Triple.bind (named_beside ha) fun r => ?_
      rcases r with ⟨_ | dir, _ | ⟨c, next⟩⟩
      · exact rollback_undone
      · exact rollback_undone
      · exact rollback_undone.pre fun _ ht => Beside.swap ht
      -- from here on the directory is in front, and `rollback` drops it last
      have hback : ∀ {dir}, Triple never (Beside s [dir, i]) (rollback [i, dir]) (Undone s) :=
        rollback_undone.pre fun _ ht => Beside.swap ht
      refine Triple.bind Keeps.get fun _ => Triple.ite (fun _ => hback) fun _ => ?_
      refine Triple.bind keeps_permission fun _ => Triple.ite (fun _ => hback) fun _ => ?_
      refine Triple.bind findEntry_beside fun r => ?_
      obtain ⟨entry, dir, _⟩ := r
      refine Triple.ite (fun _ => hback) fun _ => Succeeds.undone ?_
      refine .after fun _ => .after fun _ => .after fun _ => .after fun _ => .after fun _ => ?_
      exact .done

theorem sysUnlink_undone {filename : Str} :
    Triple never (Beside s []) (sysUnlink filename) (Undone s) := by
  refine Triple.bind (named_beside ha) fun r => ?_
  rcases r with ⟨_ | dir, _ | ⟨c, next⟩⟩
  · exact rollback_undone
  · exact rollback_undone
  · exact rollback_undone
  refine Triple.bind keeps_permission fun _ => Triple.ite (fun _ => rollback_undone) fun _ => ?_
  refine Triple.bind findEntry_beside fun r => ?_
  obtain ⟨entry, dir, _⟩ := r
  cases entry with
  | none => exact rollback_undone
  | some entry =>
      refine Triple.intro fun t ht => From.get ?_
      refine From.bind ((iget_beside (Holds.dev ht.1)).start ht) fun i u hu => Triple.start ?_ hu
      refine Triple.bind Keeps.get fun _ => Triple.ite (fun _ => rollback_undone) fun _ => ?_
      refine Triple.bind keeps_runningTask fun _ => ?_
      refine Triple.ite (fun _ => rollback_undone) fun _ => Succeeds.undone ?_
      refine .after fun _ => .after fun _ => .after fun _ => .after fun _ => .after fun _ => ?_
      exact .after fun _ => .done

theorem sysRmdir_undone {pathname : Str} :
    Triple never (Beside s []) (sysRmdir pathname) (Undone s) := by
  refine Triple.bind (named_beside ha) fun r => ?_
  rcases r with ⟨_ | dir, _ | ⟨c, next⟩⟩
  · exact rollback_undone
  · exact rollback_undone
  · exact rollback_undone
  refine Triple.bind keeps_permission fun _ => Triple.ite (fun _ => rollback_undone) fun _ => ?_
  refine Triple.bind findEntry_beside fun r => ?_
  obtain ⟨entry, dir, _⟩ := r
  cases entry with
  | none => exact rollback_undone
  | some entry =>
      refine Triple.intro fun t ht => From.get ?_
      refine From.bind ((iget_beside (Holds.dev ht.1)).start ht) fun i u hu => Triple.start ?_ hu
      refine Triple.bind Keeps.get fun _ => Triple.ite (fun _ => rollback_undone) fun _ => ?_
      refine Triple.ite (fun _ => rollback_undone) fun _ => ?_
      refine Triple.bind keeps_runningTask fun _ => ?_
      refine Triple.ite (fun _ => rollback_undone) fun _ => ?_
      refine Triple.ite (fun _ => rollback_undone) fun _ => ?_
      -- `is_empty` is the last check, and it only reads
      refine Triple.bind reads_isEmpty.keeps fun _ => ?_
      refine Triple.ite (fun _ => rollback_undone) fun _ => Succeeds.undone ?_
      refine .after fun _ => .after fun _ => .after fun _ => .after fun _ => .after fun _ => ?_
      refine .after fun _ => .after fun _ => .after fun _ => .after fun _ => .after fun _ => ?_
      exact .after fun _ => .after fun _ => .after fun _ => .after fun _ => .done

end Calls

/-- A call that makes or removes a name. -/
inductive NameCall where
  | mkdir (pathname : Str) (mode : BitVec 32)
  | rmdir (pathname : Str)
  | link (oldname newname : Str)
  | unlink (filename : Str)
  | mknod (filename : Str) (mode dev : BitVec 32)

/-- What a call runs. -/
def NameCall.run : NameCall → Fs Int
  | mkdir pathname mode => sysMkdir pathname mode
  | rmdir pathname => sysRmdir pathname
  | link oldname newname => sysLink oldname newname
  | unlink filename => sysUnlink filename
  | mknod filename mode dev => sysMknod filename mode dev

theorem NameCall.undone (c : NameCall) (ha : Alive s) :
    Triple never (Beside s []) c.run (Undone s) := by
  cases c with
  | mkdir pathname mode => exact sysMkdir_undone ha
  | rmdir pathname => exact sysRmdir_undone ha
  | link oldname newname => exact sysLink_undone ha
  | unlink filename => exact sysUnlink_undone ha
  | mknod filename mode dev => exact sysMknod_undone ha

/-- Every block is as before, those of the bitmaps, the inodes and the directories
    among them, and so are the counts of the in-memory inodes and those that are
    in use. -/
structure AsBefore (s t : Kernel) : Prop where
  disk : t.disk = s.disk
  counts : ∀ i, (t.inode_table i).count = (s.inode_table i).count
  inodes : ∀ i, (s.inode_table i).count ≠ 0 → t.inode_table i = s.inode_table i

theorem Inode.ext_rest {a b : Inode} (h : rest a = rest b) (hcount : a.count = b.count) :
    a = b := by
  obtain ⟨⟩ := a
  obtain ⟨⟩ := b
  simp only [rest, Inode.mk.injEq] at h ⊢
  exact ⟨h.1, h.2.1, h.2.2.1, hcount, h.2.2.2.2⟩

theorem Beside.asBefore (hs : Holds [] s) (h : Beside s [] t) : AsBefore s t := by
  have hcounts : ∀ i, (t.inode_table i).count = (s.inode_table i).count := by
    intro i
    have hbefore := Ledger.inodes hs i
    have hafter := Ledger.inodes h.1 i
    rw [h.2.refs] at hafter
    omega
  refine ⟨h.2.disk, hcounts, fun i hi => Inode.ext_rest (h.2.inodes i fun hrefs => hi ?_) (hcounts i)⟩
  have hbefore : ((s.inode_table i).count : Int) =
      inodeRefs s i + (([] : List Nat).count i : Int) :=
    Ledger.inodes hs i
  rw [hrefs, List.count_nil] at hbefore
  omega

/-- Whatever completed calls have led to: where a live task's call that makes or
    removes a name returns `EOF`, the state is as before the call. -/
theorem failed_call_undone {c : NameCall} {task fuel : Nat} {time : BitVec 32}
    (hs : Reach system free s) (hlive : ((s.task_table task).any fun t => !t.died) = true)
    (hrun : c.run fuel { s with current := task, time := time } = .ok (EOF, t)) :
    AsBefore s t := by
  have hholds := reach_holds hs
  obtain ⟨caller, htask, hlive⟩ := (Option.any_eq_true ..).mp hlive
  have hstart : Holds [] { s with current := task, time := time } :=
    ⟨hholds.inodes, hholds.files, hholds.free, hholds.listed, hholds.nodup, hholds.mounts,
      hholds.fileEnd, hholds.taskEnd, hholds.top⟩
  have halive : Alive { s with current := task, time := time } :=
    ⟨slot_lt hholds htask, caller, htask, by simpa using hlive⟩
  have hend := (c.undone halive).of_ok ⟨hstart, Same.refl _⟩ hrun rfl
  obtain ⟨hdisk, hcounts, hinodes⟩ := hend.asBefore hstart
  exact ⟨hdisk, hcounts, hinodes⟩

/-- In an empty root directory there is no name to remove. -/
theorem failed_call_undone_empty :
    ∃ t, (NameCall.unlink [0x61]).run 2 bootState = .ok (EOF, t) ∧ AsBefore bootState t := by
  have hret : ((NameCall.unlink [0x61]).run 2 bootState).toOption.map Prod.fst = some EOF := by
    decide +kernel
  cases hrun : (NameCall.unlink [0x61]).run 2 bootState with
  | error e =>
      rw [hrun] at hret
      cases hret
  | ok r =>
      obtain ⟨ret, t⟩ := r
      rw [hrun] at hret
      obtain rfl : ret = EOF := Option.some.inj hret
      exact ⟨t, rfl, failed_call_undone (c := .unlink [0x61])
        (Reach.start bootState_ledger) rfl hrun⟩

end NeonixFailedCalls
