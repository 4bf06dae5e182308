import Neonix.PathRefs
import Neonix.Resolver

/-! # In-memory inodes along a path walk

    A `Tree` is a mounted file system tree in memory: the counts of the tables
    are exact and the inode table is coherent with the lists of the super blocks.
    A `Walk` from such a state holds some references besides, and has changed
    nothing else.  The calls of a walk return, unless the inode table is full. -/

namespace NeonixWalks

open NeonixMachine NeonixOutcome NeonixByteBits NeonixWords NeonixVolume NeonixCalls
  NeonixFileSystem NeonixNamei NeonixFrames NeonixInodeRefs NeonixPathRefs NeonixComponents
  NeonixDirectories NeonixResolver

/-- The inode table is coherent with the lists of the super blocks: a slot that is
    in use and no pipe is on the list of its device, once for each inode, and its
    descriptor is where that of the inode is. -/
structure Slots (s : Kernel) : Prop where
  idle : ∀ i, (s.inode_table i).count = 0 → (s.inode_table i).dev = EOF
  range : ∀ i, (s.inode_table i).dev ≠ EOF → i < INODE_NR
  pipes : ∀ i, (s.inode_table i).pipe = true → (s.inode_table i).dev = -2
  onList : ∀ i, (s.inode_table i).dev ≠ EOF → (s.inode_table i).pipe = false →
    ∃ k, getSuper s (s.inode_table i).dev = some k ∧ i ∈ (s.super_table k).inode_list ∧
      s.desc i = inodeDesc (s.super_table k).desc (s.inode_table i).dev (s.inode_table i).nr ∧
      1 ≤ (s.inode_table i).nr ∧ (s.inode_table i).nr ≤ (s.super_table k).desc.inodes
  listDev : ∀ k < SUPER_NR, ∀ i ∈ (s.super_table k).inode_list,
    (s.inode_table i).dev = (s.super_table k).dev
  unique : ∀ i j, (s.inode_table i).dev ≠ EOF → (s.inode_table i).pipe = false →
    slotNode s j = slotNode s i → j = i

/-- A slot that is no pipe and holds a directory. -/
def DirSlot (s : Kernel) (i : Nat) : Prop :=
  (s.inode_table i).pipe = false ∧ ISDIR (s.mode i)

/-- A file system tree with mounts, between two calls. -/
structure Tree (s : Kernel) : Prop where
  exact : Ledger 0 0 s
  slots : Slots s
  /-- the root inode is in slot 0 -/
  root : inodeRefs s 0 ≠ 0
  devices : ∀ k < SUPER_NR, (s.super_table k).dev ≠ EOF → 0 < (s.super_table k).dev
  iroots : ∀ k < SUPER_NR, (s.super_table k).dev ≠ EOF → ∃ r, (s.super_table k).iroot = some r ∧
    (s.inode_table r).pipe = false ∧ slotNode s r = { dev := (s.super_table k).dev, nr := 1 }
  imounts : ∀ k < SUPER_NR, (s.super_table k).dev ≠ EOF →
    ∃ m, (s.super_table k).imount = some m ∧ DirSlot s m
  mountPoints : ∀ i, (s.inode_table i).mount ≠ 0 →
    ∃ k, getSuper s (s.inode_table i).mount = some k ∧ (s.super_table k).imount = some i
  tasks : ∀ t task, s.task_table t = some task → task.died = false →
    DirSlot s task.ipwd ∧ DirSlot s task.iroot
  directories : ∀ n k desc, n.dev ≠ EOF → getSuper s n.dev = some k → descOf s n = some desc →
    1 ≤ n.nr → n.nr ≤ (s.super_table k).desc.inodes → ISDIR (u16At (s.bytes desc) 0) →
    DirectoryOk s desc (s.super_table k).desc.inodes

/-- The inode table has at most one free slot. -/
def Crowded (s : Kernel) : Prop :=
  ((List.range INODE_NR).filter fun i => (s.inode_table i).dev = EOF).length ≤ 1

instance (s : Kernel) : Decidable (Crowded s) := inferInstanceAs (Decidable (_ ≤ 1))

/-- A walk stops for one reason only: it needs a slot and there is none. -/
def unlessCrowded (s : Kernel) : Halt → Prop := fun e => ¬ (e = .stopped .panic ∧ Crowded s)

/-- What a walk from `s` that holds `L` has not changed. -/
structure Walk (s : Kernel) (L : List Nat) (t : Kernel) : Prop where
  holds : Holds L t
  slots : Slots t
  frame : t = { s with inode_table := t.inode_table, super_table := t.super_table }
  supers : ∀ k, (t.super_table k).desc = (s.super_table k).desc ∧
    (t.super_table k).dev = (s.super_table k).dev ∧
    (t.super_table k).count = (s.super_table k).count ∧
    (t.super_table k).iroot = (s.super_table k).iroot ∧
    (t.super_table k).imount = (s.super_table k).imount
  mount : ∀ i, (t.inode_table i).mount = (s.inode_table i).mount
  kept : ∀ i, inodeRefs s i ≠ 0 → slotNode t i = slotNode s i ∧
    (t.inode_table i).pipe = (s.inode_table i).pipe ∧ t.desc i = s.desc i
  plain : ∀ i ∈ L, (t.inode_table i).pipe = false

variable {bad : Halt → Prop} {s t u : Kernel} {L : List Nat} {i j k : Nat} {dev : Dev} {nr : Nat}

theorem Tree.start (h : Tree s) : Walk s [] s where
  holds := h.exact
  slots := h.slots
  frame := rfl
  supers := fun _ => ⟨rfl, rfl, rfl, rfl, rfl⟩
  mount := fun _ => rfl
  kept := fun _ _ => ⟨rfl, rfl, rfl⟩
  plain := fun _ hi => absurd hi List.not_mem_nil

/-- A slot is in use exactly when the tables point to it. -/
theorem Tree.inUse (h : Tree s) : (s.inode_table i).dev ≠ EOF ↔ inodeRefs s i ≠ 0 := by
  have hi : ((s.inode_table i).count : Int) = inodeRefs s i + 0 := h.exact.inodes i
  constructor
  · intro hdev hrefs
    exact hdev (h.slots.idle i (by omega))
  · intro hrefs hdev
    have hcount := (h.exact.free i hdev).1
    omega

theorem Walk.sameMounts (h : Walk s L t) : SameMounts s t := by
  intro k
  obtain ⟨-, hdev, -, hiroot, himount⟩ := h.supers k
  exact ⟨hdev, hiroot, himount⟩

theorem Walk.getSuper (h : Walk s L t) (dev : Dev) : getSuper t dev = getSuper s dev :=
  h.sameMounts.getSuper dev

theorem Walk.refs (h : Walk s L t) (i : Nat) : inodeRefs t i = inodeRefs s i := by
  refine h.sameMounts.inodeRefs ?_ ?_ i
  · rw [h.frame]
  · rw [h.frame]

/-- Where the inode of a slot is in use, its descriptor is that of the inode. -/
theorem Slots.descOf (h : Slots s) (hdev : (s.inode_table i).dev ≠ EOF)
    (hpipe : (s.inode_table i).pipe = false) :
    NeonixResolver.descOf s (slotNode s i) = some (s.desc i) := by
  obtain ⟨k, hk, -, hdesc, -⟩ := h.onList i hdev hpipe
  rw [NeonixResolver.descOf, slotNode, hk, hdesc]
  rfl

/-- The inode table has no free slot. -/
def Full (s : Kernel) : Prop := ∀ i < INODE_NR, (s.inode_table i).dev ≠ EOF

/-- A full table means that the walk started with one free slot at most. -/
theorem Walk.crowded (h : Walk s L t) (hs : Tree s) (hL : L.length ≤ 1) (hfull : Full t) :
    Crowded s := by
  have hsub : (List.range INODE_NR).filter (fun i => (s.inode_table i).dev = EOF) ⊆ L := by
    intro i hi
    obtain ⟨hrange, hfree⟩ := List.mem_filter.mp hi
    have hrefs : inodeRefs s i = 0 := by
      by_contra hrefs
      exact hs.inUse.mpr hrefs (of_decide_eq_true hfree)
    have hcount : (t.inode_table i).count ≠ 0 := fun h0 =>
      hfull i (List.mem_range.mp hrange) (h.slots.idle i h0)
    have hi : ((t.inode_table i).count : Int) = inodeRefs t i + (L.count i : Int) :=
      Ledger.inodes h.holds i
    rw [h.refs, hrefs] at hi
    exact List.count_pos_iff.mp (by omega)
  have hnodup : ((List.range INODE_NR).filter fun i => (s.inode_table i).dev = EOF).Nodup :=
    List.nodup_range.filter _
  exact (List.Subperm.length_le (List.subperm_of_subset hnodup hsub)).trans hL

/-- A full table may stop a walk from `s` that holds `n` references. -/
def MayStop (bad : Halt → Prop) (s : Kernel) (n : Nat) : Prop :=
  ∀ L t, Walk s L t → L.length ≤ n → Full t → ¬ bad (.stopped .panic)

theorem Tree.mayStop (hs : Tree s) : MayStop (unlessCrowded s) s 1 := fun _ _ h hL hfull =>
  not_not.mpr ⟨rfl, h.crowded hs hL hfull⟩

theorem mayStop_never (s : Kernel) (n : Nat) : MayStop never s n := fun _ _ _ _ _ => not_false

/-! ## `iput` -/

/-- `list_remove` and `put_free_inode`. -/
def freeSlot (t : Kernel) (i : Nat) : Kernel :=
  Kernel.setInode { t with super_table := fun k =>
    { t.super_table k with inode_list := (t.super_table k).inode_list.erase i } } i
    fun inode => { inode with dev := EOF }

/-- `count--`. -/
def lessCount (t : Kernel) (i : Nat) : Kernel :=
  t.setInode i fun inode => { inode with count := inode.count - 1 }

/-- What `iput` does to a slot with a reference. -/
theorem iput_runs (hpipe : (t.inode_table i).pipe = false) (hcount : (t.inode_table i).count ≠ 0)
    (hlast : (t.inode_table i).count = 1 → Listed t i ∧ i ≠ 0) :
    From bad t (iput (some i)) fun _ u =>
      u = if (t.inode_table i).count = 1 then freeSlot (lessCount t i) i else lessCount t i := by
  have hself : (lessCount t i).inode_table i =
      { t.inode_table i with count := (t.inode_table i).count - 1 } := Function.update_self ..
  have hdecr : t.setInode i (fun inode => { inode with count := decr inode.count }) =
      lessCount t i := by
    rw [lessCount, Kernel.setInode, Kernel.setInode, decr, if_neg hcount]
  refine From.get (From.ite (fun h => absurd (h.symm.trans hpipe) Bool.true_eq_false.mp) fun _ => ?_)
  refine From.set (From.get ?_)
  rw [hdecr, hself]
  refine From.ite (fun h => ?_) fun h => ?_
  · have hmore : (t.inode_table i).count - 1 ≠ 0 := h
    refine From.pure ?_
    rw [if_neg (by omega)]
  · have hone : (t.inode_table i).count - 1 = 0 := not_not.mp h
    have hcount1 : (t.inode_table i).count = 1 := by omega
    rw [if_pos hcount1]
    obtain ⟨hlisted, hi⟩ := hlast hcount1
    refine From.bind (Q := fun _ u => u = { lessCount t i with super_table := fun k =>
      { (lessCount t i).super_table k with
        inode_list := ((lessCount t i).super_table k).inode_list.erase i } }) ?_ ?_
    · exact From.get (past_assert hlisted (From.store rfl))
    rintro _ u rfl
    refine past_assert hi (From.get (past_assert ?_ (From.store rfl)))
    show ((lessCount t i).inode_table i).count = 0
    rw [hself]
    exact hone

/-- The node, the kind and the descriptor of a slot are the same. -/
def SameSlot (t u : Kernel) (j : Nat) : Prop :=
  slotNode u j = slotNode t j ∧ (u.inode_table j).pipe = (t.inode_table j).pipe ∧
    u.desc j = t.desc j ∧ (u.inode_table j).mount = (t.inode_table j).mount

theorem sameSlot_of_eq (h : u.inode_table j = t.inode_table j) : SameSlot t u j := by
  rw [SameSlot, slotNode, slotNode, Kernel.desc, Kernel.desc, h]
  exact ⟨rfl, rfl, rfl, rfl⟩

theorem SameSlot.trans (h : SameSlot s t j) (h' : SameSlot t u j) : SameSlot s u j :=
  ⟨h'.1.trans h.1, h'.2.1.trans h.2.1, h'.2.2.1.trans h.2.2.1, h'.2.2.2.trans h.2.2.2⟩

theorem lessCount_self (t : Kernel) (i : Nat) : (lessCount t i).inode_table i =
    { t.inode_table i with count := (t.inode_table i).count - 1 } := Function.update_self ..

theorem lessCount_other (t : Kernel) (h : j ≠ i) :
    (lessCount t i).inode_table j = t.inode_table j := Function.update_of_ne h ..

theorem lessCount_same (t : Kernel) (i j : Nat) : SameSlot t (lessCount t i) j := by
  by_cases hj : j = i
  · subst hj
    rw [SameSlot, slotNode, slotNode, Kernel.desc, Kernel.desc, lessCount_self]
    exact ⟨rfl, rfl, rfl, rfl⟩
  · exact sameSlot_of_eq (lessCount_other t hj)

theorem hold_self (t : Kernel) (i : Nat) : (t.hold i).inode_table i =
    { t.inode_table i with count := (t.inode_table i).count + 1 } := Function.update_self ..

theorem hold_other (t : Kernel) (h : j ≠ i) :
    (t.hold i).inode_table j = t.inode_table j := Function.update_of_ne h ..

theorem hold_same (t : Kernel) (i j : Nat) : SameSlot t (t.hold i) j := by
  by_cases hj : j = i
  · subst hj
    rw [SameSlot, slotNode, slotNode, Kernel.desc, Kernel.desc, hold_self]
    exact ⟨rfl, rfl, rfl, rfl⟩
  · exact sameSlot_of_eq (hold_other t hj)

theorem freeSlot_self (t : Kernel) (i : Nat) :
    (freeSlot t i).inode_table i = { t.inode_table i with dev := EOF } := Function.update_self ..

theorem freeSlot_other (t : Kernel) (hj : j ≠ i) :
    (freeSlot t i).inode_table j = t.inode_table j := Function.update_of_ne hj ..

theorem freeSlot_count (t : Kernel) (i j : Nat) :
    ((freeSlot t i).inode_table j).count = (t.inode_table j).count := by
  by_cases hj : j = i
  · rw [hj, freeSlot_self]
  · rw [freeSlot_other t hj]

/-- Coherence depends on the counts only as far as they are zero. -/
theorem Slots.congr (h : Slots t) (hsuper : u.super_table = t.super_table)
    (hslot : ∀ j, SameSlot t u j)
    (hidle : ∀ j, (u.inode_table j).count = 0 → (u.inode_table j).dev = EOF) : Slots u := by
  have hdev : ∀ j, (u.inode_table j).dev = (t.inode_table j).dev :=
    fun j => congrArg Node.dev (hslot j).1
  have hnr : ∀ j, (u.inode_table j).nr = (t.inode_table j).nr :=
    fun j => congrArg Node.nr (hslot j).1
  have hget : ∀ dev, getSuper u dev = getSuper t dev := by
    intro dev
    rw [getSuper, getSuper, hsuper]
  constructor
  · exact hidle
  · intro j hj
    rw [hdev] at hj
    exact h.range j hj
  · intro j hj
    rw [(hslot j).2.1] at hj
    rw [hdev]
    exact h.pipes j hj
  · intro j hj hp
    rw [hdev] at hj
    rw [(hslot j).2.1] at hp
    rw [hdev, hnr, (hslot j).2.2.1, hsuper, hget]
    exact h.onList j hj hp
  · intro k hk j hj
    rw [hsuper] at hj ⊢
    rw [hdev]
    exact h.listDev k hk j hj
  · intro j j' hj hp heq
    rw [hdev] at hj
    rw [(hslot j).2.1] at hp
    rw [(hslot j).1, (hslot j').1] at heq
    exact h.unique j j' hj hp heq

theorem Slots.lessCount (h : Slots t) (hcount : (t.inode_table i).count ≠ 1)
    (hpos : (t.inode_table i).count ≠ 0) : Slots (lessCount t i) := by
  refine h.congr rfl (lessCount_same t i) fun j hj => ?_
  by_cases hji : j = i
  · subst hji
    rw [lessCount_self] at hj
    change (t.inode_table j).count - 1 = 0 at hj
    omega
  · rw [lessCount_other t hji] at hj ⊢
    exact h.idle j hj

theorem Slots.hold (h : Slots t) : Slots (t.hold i) := by
  refine h.congr rfl (hold_same t i) fun j hj => ?_
  by_cases hji : j = i
  · subst hji
    rw [hold_self] at hj
    exact absurd hj (Nat.succ_ne_zero _)
  · rw [hold_other t hji] at hj ⊢
    exact h.idle j hj

theorem Slots.freeSlot (h : Slots t) (hnodup : ∀ k < SUPER_NR, (t.super_table k).inode_list.Nodup)
    (hpipe : (t.inode_table i).pipe = false) : Slots (freeSlot t i) := by
  have hsuper : ∀ dev, getSuper (NeonixWalks.freeSlot t i) dev = getSuper t dev := fun _ => rfl
  have hlists : ∀ k j, j ∈ ((NeonixWalks.freeSlot t i).super_table k).inode_list →
      j ∈ (t.super_table k).inode_list := fun k j hj => List.mem_of_mem_erase hj
  have hne : ∀ {j}, ((NeonixWalks.freeSlot t i).inode_table j).dev ≠ EOF → j ≠ i := by
    rintro j hj rfl
    rw [freeSlot_self] at hj
    exact hj rfl
  constructor
  · intro j hj
    by_cases hji : j = i
    · subst hji
      rw [freeSlot_self]
    · rw [freeSlot_other t hji] at hj ⊢
      exact h.idle j hj
  · intro j hj
    rw [freeSlot_other t (hne hj)] at hj
    exact h.range j hj
  · intro j hj
    by_cases hji : j = i
    · subst hji
      rw [freeSlot_self] at hj
      exact absurd (hj.symm.trans hpipe) Bool.true_eq_false.mp
    · rw [freeSlot_other t hji] at hj ⊢
      exact h.pipes j hj
  · intro j hj hp
    have hji := hne hj
    rw [freeSlot_other t hji] at hj hp
    obtain ⟨k, hk, hin, hdesc, hnr⟩ := h.onList j hj hp
    rw [Kernel.desc, freeSlot_other t hji, hsuper]
    exact ⟨k, hk, (List.mem_erase_of_ne hji).mpr hin, hdesc, hnr⟩
  · intro k hk j hj
    have hji : j ≠ i := by
      rintro rfl
      exact (hnodup k hk).not_mem_erase hj
    rw [freeSlot_other t hji]
    exact h.listDev k hk j (hlists k j hj)
  · intro j j' hj hp heq
    have hji := hne hj
    have hj'i : j' ≠ i := by
      rintro rfl
      have hdev := congrArg Node.dev heq
      change ((NeonixWalks.freeSlot t j').inode_table j').dev = _ at hdev
      rw [freeSlot_self] at hdev
      exact hj hdev.symm
    rw [freeSlot_other t hji] at hj hp
    rw [slotNode, slotNode, freeSlot_other t hji, freeSlot_other t hj'i] at heq
    exact h.unique j j' hj hp heq

/-- Coherence is kept by dropping the last reference to a slot. -/
theorem Slots.dropped (h : Slots t) (hnodup : ∀ k < SUPER_NR, (t.super_table k).inode_list.Nodup)
    (hpipe : (t.inode_table i).pipe = false) :
    Slots (NeonixWalks.freeSlot (NeonixWalks.lessCount t i) i) := by
  have hslots := h.freeSlot hnodup hpipe
  refine hslots.congr rfl (fun j => ?_) fun j hj => ?_
  · by_cases hji : j = i
    · subst hji
      rw [SameSlot, slotNode, slotNode, Kernel.desc, Kernel.desc, freeSlot_self, freeSlot_self,
        lessCount_self]
      exact ⟨rfl, rfl, rfl, rfl⟩
    · refine sameSlot_of_eq ?_
      rw [freeSlot_other _ hji, freeSlot_other _ hji, lessCount_other _ hji]
  · by_cases hji : j = i
    · subst hji
      rw [freeSlot_self]
    · rw [freeSlot_other _ hji, lessCount_other _ hji] at hj ⊢
      exact h.idle j hj

theorem Walk.count (h : Walk s L t) (i : Nat) :
    (t.inode_table i).count = inodeRefs s i + L.count i := by
  have hi : ((t.inode_table i).count : Int) = inodeRefs t i + (L.count i : Int) :=
    Ledger.inodes h.holds i
  rw [h.refs] at hi
  omega

/-- A slot the walk holds is in use. -/
theorem Walk.used (h : Walk s L t) (hi : inodeRefs s i ≠ 0 ∨ i ∈ L) :
    (t.inode_table i).dev ≠ EOF := by
  intro hfree
  have hcount := (Ledger.free h.holds i hfree).1
  rw [h.count] at hcount
  rcases hi with hi | hi
  · omega
  · have hpos := List.count_pos_iff.mpr hi
    omega

/-- A slot in use that is no pipe is on a list. -/
theorem Slots.listed (h : Slots t) (hdev : (t.inode_table i).dev ≠ EOF)
    (hpipe : (t.inode_table i).pipe = false) : Listed t i := by
  obtain ⟨k, hk, hin, -⟩ := h.onList i hdev hpipe
  exact ⟨k, (getSuper_some hk).1, hin⟩

/-- A walk drops a reference it holds, and keeps the inodes of the others. -/
theorem iput_same (hs : Tree s) (h : Walk s (i :: L) t) :
    From bad t (iput (some i)) fun _ u => Walk s L u ∧ ∀ j ∈ L, SameSlot t u j := by
  have hpipe := h.plain i List.mem_cons_self
  have hdev := h.used (Or.inr (List.mem_cons_self (a := i) (l := L)))
  have hcount := h.count i
  rw [List.count_cons_self] at hcount
  have hlast : (t.inode_table i).count = 1 → Listed t i ∧ i ≠ 0 := by
    intro hone
    refine ⟨h.slots.listed hdev hpipe, ?_⟩
    rintro rfl
    have hroot := hs.root
    omega
  refine ((iput_runs hpipe (by omega) hlast).also (iput_holds.start h.holds)).post ?_
  rintro _ u ⟨rfl, hholds⟩
  by_cases hone : (t.inode_table i).count = 1
  · rw [if_pos hone] at hholds ⊢
    -- the last reference: the tables do not point to the slot
    have hrefs : inodeRefs s i = 0 := by omega
    have hL : i ∉ L := by
      rw [← List.count_eq_zero]
      omega
    have hother : ∀ {j}, j ≠ i → SameSlot t (freeSlot (lessCount t i) i) j := fun hj =>
      sameSlot_of_eq ((freeSlot_other _ hj).trans (lessCount_other t hj))
    refine ⟨?_, fun j hj => hother fun heq => hL (heq ▸ hj)⟩
    exact
      { holds := hholds
        slots := h.slots.dropped (Ledger.nodup h.holds) hpipe
        frame := by rw [h.frame]; rfl
        supers := h.supers
        mount := fun j => by
          refine Eq.trans ?_ (h.mount j)
          by_cases hj : j = i
          · subst hj
            rw [freeSlot_self, lessCount_self]
          · exact (hother hj).2.2.2
        kept := fun j hj => by
          have hji : j ≠ i := fun heq => hj (heq ▸ hrefs)
          obtain ⟨hnode, hp, hdesc, -⟩ := hother hji
          rw [hnode, hp, hdesc]
          exact h.kept j hj
        plain := fun j hj => by
          have hji : j ≠ i := fun heq => hL (heq ▸ hj)
          rw [(hother hji).2.1]
          exact h.plain j (List.mem_cons_of_mem _ hj) }
  · rw [if_neg hone] at hholds ⊢
    refine ⟨?_, fun j _ => lessCount_same t i j⟩
    exact
      { holds := hholds
        slots := h.slots.lessCount hone (by omega)
        frame := by rw [h.frame]; rfl
        supers := h.supers
        mount := fun j => (lessCount_same t i j).2.2.2.trans (h.mount j)
        kept := fun j hj => by
          obtain ⟨hnode, hp, hdesc, -⟩ := lessCount_same t i j
          rw [hnode, hp, hdesc]
          exact h.kept j hj
        plain := fun j hj => by
          rw [(lessCount_same t i j).2.1]
          exact h.plain j (List.mem_cons_of_mem _ hj) }

theorem iput_walk (hs : Tree s) (h : Walk s (i :: L) t) :
    From bad t (iput (some i)) fun _ u => Walk s L u :=
  (iput_same hs h).post fun _ _ hu => hu.1

/-! ## `iget` -/

/-- A walk takes another reference to a slot in use. -/
theorem Walk.hold (h : Walk s L t) (hdev : (t.inode_table i).dev ≠ EOF)
    (hpipe : (t.inode_table i).pipe = false) : Walk s (i :: L) (t.hold i) where
  holds := h.holds.hold hdev
  slots := h.slots.hold
  frame := by rw [h.frame]; rfl
  supers := h.supers
  mount := fun j => (hold_same t i j).2.2.2.trans (h.mount j)
  kept := fun j hj => by
    obtain ⟨hnode, hp, hdesc, -⟩ := hold_same t i j
    rw [hnode, hp, hdesc]
    exact h.kept j hj
  plain := fun j hj => by
    rw [(hold_same t i j).2.1]
    rcases List.mem_cons.mp hj with rfl | hj
    · exact hpipe
    · exact h.plain j hj

theorem Walk.swap (h : Walk s (i :: j :: L) t) : Walk s (j :: i :: L) t :=
  { h with
    holds := h.holds.swap
    plain := fun x hx => h.plain x ((List.Perm.swap i j L).mem_iff.mp hx) }

/-- A mount point is pointed to by the super block mounted there. -/
theorem Tree.mountPoint_refs (hs : Tree s) (h : (s.inode_table i).mount ≠ 0) :
    inodeRefs s i ≠ 0 := by
  obtain ⟨k, hk, hm⟩ := hs.mountPoints i h
  obtain ⟨hk, hdev⟩ := getSuper_some hk
  refine imount_refs hk ?_ hm
  rw [hdev]
  exact hs.exact.mounts i

/-- What is mounted at the inode of a slot in use. -/
theorem Walk.mounted (hs : Tree s) (h : Walk s L t) (hdev : (t.inode_table i).dev ≠ EOF)
    (hpipe : (t.inode_table i).pipe = false) :
    mounted s (slotNode t i) = if (t.inode_table i).mount = 0 then slotNode t i
      else { dev := (t.inode_table i).mount, nr := 1 } := by
  rw [NeonixResolver.mounted]
  cases hfind : (List.range INODE_NR).find? fun j => slotNode s j = slotNode t i with
  | some j =>
      have hfound := List.find?_some hfind
      have hnode : slotNode s j = slotNode t i := of_decide_eq_true hfound
      have hrefs : inodeRefs s j ≠ 0 := by
        refine hs.inUse.mp fun hfree => hdev ?_
        exact (congrArg Node.dev hnode).symm.trans hfree
      have hji : j = i := h.slots.unique i j hdev hpipe ((h.kept j hrefs).1.trans hnode)
      subst hji
      rw [h.mount]
  | none =>
      have hmount : (t.inode_table i).mount = 0 := by
        by_contra hne
        rw [h.mount] at hne
        have hnode := (h.kept i (hs.mountPoint_refs hne)).1
        have hnot := List.find?_eq_none.mp hfind i (List.mem_range.mpr (h.slots.range i hdev))
        exact hnot (decide_eq_true hnode.symm)
      rw [if_pos hmount]

/-- Nothing is mounted at an inode that is not in memory. -/
theorem Walk.mounted_new {n : Node} (hs : Tree s) (h : Walk s L t) (hn : n.dev ≠ EOF)
    (hnew : ∀ j, slotNode t j ≠ n) : NeonixResolver.mounted s n = n := by
  rw [NeonixResolver.mounted]
  cases hfind : (List.range INODE_NR).find? fun j => slotNode s j = n with
  | none => rfl
  | some j =>
      have hfound := List.find?_some hfind
      have hnode : slotNode s j = n := of_decide_eq_true hfound
      have hrefs : inodeRefs s j ≠ 0 := by
        refine hs.inUse.mp fun hfree => hn ?_
        rw [← hnode]
        exact hfree
      exact absurd ((h.kept j hrefs).1.trans hnode) (hnew j)

/-- `fit_inode` of a slot the walk holds. -/
theorem fitInode_walk (hs : Tree s) (h : Walk s (i :: L) t) :
    From bad t (fitInode i) fun r u =>
      Walk s (r :: L) u ∧ slotNode u r = NeonixResolver.mounted s (slotNode t i) ∧
        ∀ j ∈ L, SameSlot t u j := by
  have hpipe := h.plain i List.mem_cons_self
  have hdev := h.used (Or.inr (List.mem_cons_self (a := i) (l := L)))
  rw [h.mounted hs hdev hpipe]
  refine From.get (From.ite (fun h0 => From.pure ⟨h, ?_, fun j _ => sameSlot_of_eq rfl⟩) fun h0 => ?_)
  · rw [if_pos h0]
  · rw [if_neg h0, h.mount]
    rw [h.mount] at h0
    obtain ⟨k, hk, hm⟩ := hs.mountPoints i h0
    obtain ⟨hkn, hkd⟩ := getSuper_some hk
    have hmd : (s.super_table k).dev ≠ EOF := by
      rw [hkd]
      exact hs.exact.mounts i
    obtain ⟨r, hr, hrpipe, hrnode⟩ := hs.iroots k hkn hmd
    have hrrefs := iroot_refs hkn hmd hr
    refine From.bind (Q := fun a u => u = t ∧ a = k) ?_ ?_
    · refine From.get ?_
      rw [h.getSuper, hk]
      exact From.pure ⟨rfl, rfl⟩
    rintro k u ⟨rfl, rfl⟩
    refine From.bind (iput_same hs h) fun _ v ⟨hv, hsame⟩ => From.get ?_
    rw [(hv.supers k).2.2.2.1, hr]
    obtain ⟨hnode, hp, -⟩ := hv.kept r hrrefs
    refine past_deref (From.set (From.pure ?_))
    refine ⟨hv.hold (hv.used (Or.inl hrrefs)) (hp.trans hrpipe), ?_, fun j hj => ?_⟩
    · rw [(hold_same v r r).1, hnode, hrnode, hkd]
    · exact (hsame j hj).trans (hold_same v r j)

/-- The inode of a device in a free slot, on the list of its super block. -/
def loaded (t : Kernel) (k i : Nat) (n : Node) : Kernel :=
  Kernel.setInode
    (Kernel.setSuper
      (t.setInode i fun inode => { inode with dev := n.dev, nr := n.nr, count := inode.count + 1 })
      k fun sb => { sb with inode_list := i :: sb.inode_list }) i
    fun inode => { inode with desc := inodeDesc (t.super_table k).desc n.dev n.nr }

theorem loaded_self (t : Kernel) (k i : Nat) (n : Node) : (loaded t k i n).inode_table i =
    { t.inode_table i with
      desc := inodeDesc (t.super_table k).desc n.dev n.nr, dev := n.dev, nr := n.nr,
      count := (t.inode_table i).count + 1 } := by
  simp only [loaded, Kernel.setInode, Kernel.setSuper, Function.update_self]

theorem loaded_other (t : Kernel) {k : Nat} {n : Node} (hj : j ≠ i) :
    (loaded t k i n).inode_table j = t.inode_table j := by
  simp only [loaded, Kernel.setInode, Kernel.setSuper, Function.update_of_ne hj]

theorem loaded_super (t : Kernel) {k k' : Nat} {n : Node} : (loaded t k i n).super_table k' =
    { t.super_table k' with inode_list :=
      if k' = k then i :: (t.super_table k').inode_list else (t.super_table k').inode_list } := by
  by_cases hk : k' = k
  · subst hk
    simp only [loaded, Kernel.setInode, Kernel.setSuper, Function.update_self, if_true]
  · simp only [loaded, Kernel.setInode, Kernel.setSuper, Function.update_of_ne hk, if_neg hk]

theorem loaded_getSuper (t : Kernel) {n : Node} (dev : Dev) :
    getSuper (loaded t k i n) dev = getSuper t dev := by
  rw [getSuper, getSuper]
  congr 1
  funext k'
  rw [loaded_super]

/-- Coherence is kept by loading an inode that is in no slot into a free one. -/
theorem Slots.loaded (h : Slots t) {n : Node} (hk : getSuper t n.dev = some k) (hi : i < INODE_NR)
    (hpipe : (t.inode_table i).pipe = false)
    (hfree : ¬ Listed t i) (hnr : 1 ≤ n.nr ∧ n.nr ≤ (t.super_table k).desc.inodes)
    (hnew : ∀ j, slotNode t j ≠ n) : Slots (loaded t k i n) := by
  have hdesc : (NeonixWalks.loaded t k i n).desc i =
      inodeDesc (t.super_table k).desc n.dev n.nr := by rw [Kernel.desc, loaded_self]
  constructor
  · intro j hj
    by_cases hji : j = i
    · subst hji
      rw [loaded_self] at hj
      exact absurd hj (Nat.succ_ne_zero _)
    · rw [loaded_other t hji] at hj ⊢
      exact h.idle j hj
  · intro j hj
    by_cases hji : j = i
    · exact hji ▸ hi
    · rw [loaded_other t hji] at hj
      exact h.range j hj
  · intro j hj
    by_cases hji : j = i
    · subst hji
      rw [loaded_self] at hj
      exact absurd (hj.symm.trans hpipe) Bool.true_eq_false.mp
    · rw [loaded_other t hji] at hj ⊢
      exact h.pipes j hj
  · intro j hj hp
    by_cases hji : j = i
    · subst hji
      rw [hdesc, loaded_self, loaded_getSuper]
      refine ⟨k, hk, ?_, ?_, ?_⟩
      · rw [loaded_super, if_pos rfl]
        exact List.mem_cons_self
      · rw [loaded_super]
      · rw [loaded_super]
        exact hnr
    · rw [loaded_other t hji] at hj hp
      obtain ⟨k', hk', hin, hd, hb⟩ := h.onList j hj hp
      rw [Kernel.desc, loaded_other t hji, loaded_getSuper]
      refine ⟨k', hk', ?_, ?_, ?_⟩
      · rw [loaded_super]
        split_ifs
        · exact List.mem_cons_of_mem _ hin
        · exact hin
      · rw [loaded_super]
        exact hd
      · rw [loaded_super]
        exact hb
  · intro k' hk' j hj
    rw [loaded_super] at hj ⊢
    by_cases hji : j = i
    · subst hji
      have hkk : k' = k := by
        by_contra hne
        rw [if_neg hne] at hj
        exact hfree ⟨k', hk', hj⟩
      subst hkk
      rw [loaded_self]
      exact (getSuper_some hk).2.symm
    · rw [loaded_other t hji]
      refine h.listDev k' hk' j ?_
      dsimp only at hj
      split_ifs at hj
      · exact (List.mem_cons.mp hj).resolve_left hji
      · exact hj
  · have hself : slotNode (NeonixWalks.loaded t k i n) i = n := by rw [slotNode, loaded_self]
    have hother : ∀ {j}, j ≠ i → slotNode (NeonixWalks.loaded t k i n) j = slotNode t j := by
      intro j hj
      rw [slotNode, slotNode, loaded_other t hj]
    intro j j' hj hp heq
    by_cases hji : j = i
    · subst hji
      by_contra hne
      rw [hother hne, hself] at heq
      exact hnew j' heq
    · by_cases hji' : j' = i
      · subst hji'
        rw [hother hji, hself] at heq
        exact absurd heq.symm (hnew j)
      · rw [loaded_other t hji] at hj hp
        rw [hother hji, hother hji'] at heq
        exact h.unique j j' hj hp heq

theorem Walk.loaded {n : Node} (h : Walk s L t)
    (hfree : (t.inode_table i).dev = EOF) (hholds : Holds (i :: L) (NeonixWalks.loaded t k i n))
    (hslots : Slots (NeonixWalks.loaded t k i n)) :
    Walk s (i :: L) (NeonixWalks.loaded t k i n) where
  holds := hholds
  slots := hslots
  frame := by rw [h.frame]; rfl
  supers := fun k' => by
    rw [loaded_super]
    exact h.supers k'
  mount := fun j => by
    refine Eq.trans ?_ (h.mount j)
    by_cases hji : j = i
    · subst hji
      rw [loaded_self]
    · rw [loaded_other t hji]
  kept := fun j hj => by
    have hji : j ≠ i := by
      rintro rfl
      exact h.used (Or.inl hj) hfree
    obtain ⟨hnode, hp, hdesc, -⟩ := sameSlot_of_eq (loaded_other t (k := k) (n := n) hji)
    rw [hnode, hp, hdesc]
    exact h.kept j hj
  plain := fun j hj => by
    by_cases hji : j = i
    · subst hji
      rw [loaded_self]
      exact (Ledger.free h.holds j hfree).2
    · rw [loaded_other t hji]
      exact h.plain j ((List.mem_cons.mp hj).resolve_left hji)

theorem theSuper_walk (h : Walk s L t) (hk : getSuper s dev = some k) :
    From bad t (theSuper dev) fun r u => u = t ∧ r = k := by
  refine From.get ?_
  rw [h.getSuper, hk]
  exact From.pure ⟨rfl, rfl⟩

/-- `get_free_inode` finds a slot unless the table is full. -/
theorem getFreeInode_walk {n : Nat} (h : Walk s L t) (hstop : MayStop bad s n) (hL : L.length ≤ n) :
    From bad t getFreeInode fun i u =>
      u = t ∧ i < INODE_NR ∧ (t.inode_table i).dev = EOF := by
  refine From.get ?_
  cases hfind : (List.range INODE_NR).find? fun i => (t.inode_table i).dev = EOF with
  | none =>
      refine From.stop (hstop L t h hL fun i hi hfree => ?_)
      exact List.find?_eq_none.mp hfind i (List.mem_range.mpr hi) (decide_eq_true hfree)
  | some i =>
      have hfound := List.find?_some hfind
      exact From.pure ⟨rfl, List.mem_range.mp (List.mem_of_find?_eq_some hfind),
        of_decide_eq_true hfound⟩

/-- `iget` of the number of an inode: the slot it returns holds what is mounted
    there, and the other slots the walk holds are as they were. -/
theorem iget_same {n : Node} {m : Nat} (hs : Tree s) (h : Walk s L t) (hstop : MayStop bad s m)
    (hL : L.length ≤ m) (hk : getSuper s n.dev = some k)
    (hnr : 1 ≤ n.nr ∧ n.nr ≤ (s.super_table k).desc.inodes) (hn : n.dev ≠ EOF) :
    From bad t (iget n.dev n.nr) fun r u =>
      Walk s (r :: L) u ∧ slotNode u r = NeonixResolver.mounted s n ∧ ∀ j ∈ L, SameSlot t u j := by
  have hkn := (getSuper_some hk).1
  have hkd := (getSuper_some hk).2
  -- either the inode is in memory, or it is loaded into a free slot
  have hruns : From bad t (iget n.dev n.nr) fun r u =>
      (Walk s (r :: L) u ∧ slotNode u r = NeonixResolver.mounted s n ∧ ∀ j ∈ L, SameSlot t u j) ∨
      ((t.inode_table r).dev = EOF ∧ r < INODE_NR ∧ (∀ j, slotNode t j ≠ n) ∧
        u = NeonixWalks.loaded t k r n) := by
    refine From.bind (Q := fun r u => u = t ∧
      r = (t.super_table k).inode_list.find? fun i => (t.inode_table i).nr = n.nr) ?_ ?_
    · refine From.bind (theSuper_walk h hk) ?_
      rintro k u ⟨rfl, rfl⟩
      exact From.get (From.pure ⟨rfl, rfl⟩)
    rintro r u ⟨rfl, rfl⟩
    cases hfind : (u.super_table k).inode_list.find? fun i => (u.inode_table i).nr = n.nr with
    | some i =>
        have hin := List.mem_of_find?_eq_some hfind
        have hfound := List.find?_some hfind
        have hdev : (u.inode_table i).dev = n.dev := by
          rw [h.slots.listDev k hkn i hin, (h.supers k).2.1, hkd]
        have hnode : slotNode u i = n := by
          rw [slotNode, hdev, of_decide_eq_true hfound]
        have hhold := h.hold (by rw [hdev]; exact hn) (Ledger.listed h.holds k hkn i hin).2
        refine From.set ((fitInode_walk hs hhold).post fun r v hv => Or.inl ?_)
        rw [(hold_same u i i).1, hnode] at hv
        exact ⟨hv.1, hv.2.1, fun j hj => (hold_same u i j).trans (hv.2.2 j hj)⟩
    | none =>
        have hnew : ∀ j, slotNode u j ≠ n := by
          intro j hj
          have hdev : (u.inode_table j).dev = n.dev := congrArg Node.dev hj
          have hpipe : (u.inode_table j).pipe = false := by
            by_contra hp
            have hpos := hs.devices k hkn (by rw [hkd]; exact hn)
            have hneg := h.slots.pipes j (Bool.eq_true_of_not_eq_false hp)
            rw [hkd, ← hdev, hneg] at hpos
            exact absurd hpos (by decide)
          obtain ⟨k', hk', hin, -⟩ := h.slots.onList j (by rw [hdev]; exact hn) hpipe
          rw [hdev, h.getSuper, hk] at hk'
          obtain rfl := Option.some.inj hk'
          exact List.find?_eq_none.mp hfind j hin (decide_eq_true (congrArg Node.nr hj))
        refine From.bind (theSuper_walk h hk) ?_
        rintro k u ⟨rfl, rfl⟩
        refine From.get (past_assert ?_ (From.bind (getFreeInode_walk h hstop hL) ?_))
        · rw [(h.supers k).1]
          exact hnr.2
        rintro i u ⟨rfl, hi, hfree⟩
        have hnot : i ∉ (u.super_table k).inode_list := fun hin =>
          (Ledger.listed h.holds k hkn i hin).1 hfree
        refine From.set (From.get (past_assert hnot (From.set (From.set (From.pure ?_)))))
        refine Or.inr ⟨hfree, hi, hnew, ?_⟩
        simp only [NeonixWalks.loaded, Kernel.setSuper, Kernel.setInode, Function.update_self]
  refine (hruns.also ((iget_holds hn).start h.holds)).post ?_
  rintro r u ⟨hwalk | ⟨hfree, hr, hnew, rfl⟩, hholds⟩
  · exact hwalk
  · have hnot : ¬ Listed t r := fun hl => (Ledger.listedInUse h.holds hl).1 hfree
    have hslots := h.slots.loaded (by rw [h.getSuper, hk]) hr (Ledger.free h.holds r hfree).2 hnot
      (by rw [(h.supers k).1]; exact hnr) hnew
    refine ⟨h.loaded hfree hholds hslots, ?_, fun j hj => sameSlot_of_eq (loaded_other t ?_)⟩
    · rw [h.mounted_new hs hn hnew, slotNode, loaded_self]
    · rintro rfl
      exact h.used (Or.inr hj) hfree

theorem iget_walk {n : Node} {m : Nat} (hs : Tree s) (h : Walk s L t) (hstop : MayStop bad s m)
    (hL : L.length ≤ m) (hk : getSuper s n.dev = some k)
    (hnr : 1 ≤ n.nr ∧ n.nr ≤ (s.super_table k).desc.inodes) (hn : n.dev ≠ EOF) :
    From bad t (iget n.dev n.nr) fun r u =>
      Walk s (r :: L) u ∧ slotNode u r = NeonixResolver.mounted s n :=
  (iget_same hs h hstop hL hk hnr hn).post fun _ _ hu => ⟨hu.1, hu.2.1⟩

/-! ## The blocks stay -/

theorem Walk.bytes (h : Walk s L t) (p : Place) : t.bytes p = s.bytes p := by
  rw [h.frame]
  rfl

theorem Walk.entryPlace (h : Walk s L t) (desc : Place) (n : Nat) :
    NeonixDirectories.entryPlace t desc n = NeonixDirectories.entryPlace s desc n := by
  rw [h.frame]
  rfl

theorem Walk.lookup (h : Walk s L t) (desc : Place) (name : Str) :
    NeonixDirectories.lookup t desc name = NeonixDirectories.lookup s desc name := by
  rw [h.frame]
  rfl

theorem Walk.directoryOk (h : Walk s L t) {desc : Place} {inodes : Nat}
    (hok : DirectoryOk s desc inodes) : DirectoryOk t desc inodes := by
  rw [h.frame]
  intro n hn
  have hn' := hok n hn
  exact ⟨hn'.inFile, hn'.mapped, hn'.ends, hn'.named, hn'.plain, hn'.number⟩

theorem Walk.descOf (h : Walk s L t) (n : Node) :
    NeonixResolver.descOf t n = NeonixResolver.descOf s n := by
  rw [NeonixResolver.descOf, NeonixResolver.descOf, h.getSuper]
  refine Option.map_congr fun k _ => ?_
  rw [(h.supers k).1]

/-- The descriptor of a slot the walk holds is that of its inode. -/
theorem Walk.desc (h : Walk s L t) (hi : inodeRefs s i ≠ 0 ∨ i ∈ L)
    (hpipe : (t.inode_table i).pipe = false) :
    NeonixResolver.descOf s (slotNode t i) = some (t.desc i) := by
  rw [← h.descOf]
  exact h.slots.descOf (h.used hi) hpipe

/-- A directory the tables point to is still one. -/
theorem Walk.dirSlot (h : Walk s L t) (hi : inodeRefs s i ≠ 0) (hd : DirSlot s i) :
    DirSlot t i := by
  obtain ⟨-, hpipe, hdesc⟩ := h.kept i hi
  refine ⟨hpipe.trans hd.1, ?_⟩
  rw [Kernel.mode, hdesc, h.bytes]
  exact hd.2

end NeonixWalks
