import Neonix.Mounts

/-! # At most one super block a device

    A call changes one row of the super block table at most.  `Rows` follows that row
    while the call runs, the others are as they were.  Path walks
    and disk writes leave the table alone (`Fixed`), so the invariant is followed
    through the few stores `fs/super.c` makes itself. -/

namespace NeonixSuperTable

open NeonixMachine NeonixByteBits NeonixVolume NeonixCalls NeonixFileSystem NeonixNamei
  NeonixFrames NeonixReferenceCounts NeonixUmount NeonixMounts NeonixRuns

variable {s₀ s t : Kernel} {j k i n c : Nat} {dev d : Dev} {m : Option Nat}

/-- A row between two calls: free, or mounted with the mount's own reference. -/
def Settled (d : Dev) (c : Nat) (m : Option Nat) : Prop :=
  (d = EOF ∧ c = 0 ∧ m = none) ∨ (d ≠ EOF ∧ c = 1 ∧ m ≠ none)

/-- The table between two calls. -/
structure Table (s : Kernel) : Prop where
  settled : ∀ k < SUPER_NR,
    Settled (s.super_table k).dev (s.super_table k).count (s.super_table k).imount
  distinct : ∀ j < SUPER_NR, ∀ k < SUPER_NR, (s.super_table j).dev = (s.super_table k).dev →
    (s.super_table j).dev ≠ EOF → j = k

/-- The row is as it was. -/
def SameRow (s₀ s : Kernel) (j : Nat) : Prop :=
  (s.super_table j).dev = (s₀.super_table j).dev ∧
    (s.super_table j).count = (s₀.super_table j).count ∧
    (s.super_table j).imount = (s₀.super_table j).imount

/-- Row `k` has device `d`, count `c` and mount point `m`, the others are as they were. -/
structure Rows (s₀ : Kernel) (k : Nat) (d : Dev) (c : Nat) (m : Option Nat) (s : Kernel) :
    Prop where
  lt : k < SUPER_NR
  row : (s.super_table k).dev = d ∧ (s.super_table k).count = c ∧ (s.super_table k).imount = m
  others : ∀ j ≠ k, SameRow s₀ s j

/-- No other row had the device. -/
def Fresh (s₀ : Kernel) (k : Nat) (d : Dev) : Prop :=
  d ≠ EOF → ∀ j < SUPER_NR, j ≠ k → (s₀.super_table j).dev ≠ d

/-- A call that is over has changed one row at most, and has not moved a mount to
    another device. -/
def Done (s₀ s : Kernel) : Prop :=
  ∃ k d c m, Rows s₀ k d c m s ∧ Settled d c m ∧ Fresh s₀ k d ∧
    ((s₀.super_table k).imount ≠ none → m ≠ none → d = (s₀.super_table k).dev)

def Same (s₀ s : Kernel) : Prop := ∀ j, SameRow s₀ s j

theorem SameRow.trans {u : Kernel} (h : SameRow s t j) (h' : SameRow t u j) : SameRow s u j :=
  ⟨h'.1.trans h.1, h'.2.1.trans h.2.1, h'.2.2.trans h.2.2⟩

/-- `Rows` speaks of three columns. -/
theorem Rows.same (h : Rows s₀ k d c m s) (hsup : Same s t) : Rows s₀ k d c m t :=
  ⟨h.lt, ⟨(hsup k).1.trans h.row.1, (hsup k).2.1.trans h.row.2.1, (hsup k).2.2.trans h.row.2.2⟩,
    fun j hj => (h.others j hj).trans (hsup j)⟩

theorem rows_fixed : Fixed (Rows s₀ k d c m) := fun _ _ _ _ _ _ hsup h =>
  h.same fun j => ⟨(hsup j).1, (hsup j).2.2.1, (hsup j).2.2.2.2⟩

theorem same_fixed : Fixed (Same s₀) := fun _ _ _ _ _ _ hsup h j =>
  (h j).trans ⟨(hsup j).1, (hsup j).2.2.1, (hsup j).2.2.2.2⟩

theorem done_fixed : Fixed (Done s₀) := by
  rintro s t h1 h2 h3 h4 hsup ⟨k, d, c, m, h, hrest⟩
  exact ⟨k, d, c, m, rows_fixed s t h1 h2 h3 h4 hsup h, hrest⟩

theorem Same.rows (h : Same s₀ s) (hk : k < SUPER_NR) :
    Rows s₀ k (s₀.super_table k).dev (s₀.super_table k).count (s₀.super_table k).imount s :=
  ⟨hk, h k, fun j _ => h j⟩

theorem Table.fresh (h : Table s₀) (hk : k < SUPER_NR) : Fresh s₀ k (s₀.super_table k).dev :=
  fun hd j hj hne heq => hne (h.distinct j hj k hk heq (by rw [heq]; exact hd))

/-- Nothing has changed. -/
theorem Same.done (h : Same s₀ s) (ht : Table s₀) : Done s₀ s :=
  ⟨0, _, _, _, h.rows (by decide), ht.settled 0 (by decide), ht.fresh (by decide), fun _ _ => rfl⟩

/-- The table is in order after the call. -/
theorem Done.table (h : Done s₀ s) (ht : Table s₀) : Table s := by
  obtain ⟨k, d, c, m, ⟨hlt, ⟨hd, hc, hm⟩, hothers⟩, hset, hfresh, -⟩ := h
  refine ⟨fun j hj => ?_, fun i hi j hj heq hne => ?_⟩
  · by_cases hjk : j = k
    · rw [hjk, hd, hc, hm]
      exact hset
    · obtain ⟨h1, h2, h3⟩ := hothers j hjk
      rw [h1, h2, h3]
      exact ht.settled j hj
  · -- the device of row `k` is new, the others are distinct already
    by_contra hij
    by_cases hik : i = k
    · subst hik
      have hjk : j ≠ i := fun h => hij h.symm
      rw [hd, (hothers j hjk).1] at heq
      rw [hd] at hne
      exact hfresh hne j hj hjk heq.symm
    by_cases hjk : j = k
    · subst hjk
      rw [hd, (hothers i hik).1] at heq
      rw [(hothers i hik).1, heq] at hne
      exact hfresh hne i hi hik heq
    rw [(hothers i hik).1, (hothers j hjk).1] at heq
    rw [(hothers i hik).1] at hne
    exact hij (ht.distinct i hi j hj heq hne)

/-- A mount has kept its device. -/
theorem Done.kept (h : Done s₀ s) (hm : (s₀.super_table j).imount ≠ none)
    (hm' : (s.super_table j).imount ≠ none) : (s.super_table j).dev = (s₀.super_table j).dev := by
  obtain ⟨k, d, c, m, ⟨-, ⟨hd, -, hmk⟩, hothers⟩, -, -, hkept⟩ := h
  by_cases hjk : j = k
  · subst hjk
    rw [hmk] at hm'
    rw [hd]
    exact hkept hm hm'
  · exact (hothers j hjk).1

theorem Done.setInode (h : Done s₀ s) (i : Nat) (f : Inode → Inode) : Done s₀ (s.setInode i f) :=
  done_fixed s _ rfl rfl rfl rfl (fun _ => ⟨rfl, rfl, rfl, rfl, rfl⟩) h

theorem Rows.setInode (h : Rows s₀ k d c m s) (i : Nat) (f : Inode → Inode) :
    Rows s₀ k d c m (s.setInode i f) :=
  rows_fixed s _ rfl rfl rfl rfl (fun _ => ⟨rfl, rfl, rfl, rfl, rfl⟩) h

/-- A store to the row. -/
theorem Rows.set {f : SuperBlock → SuperBlock} {x : Dev} {y : Nat} {z : Option Nat}
    (h : Rows s₀ k d c m s) (hf : (f (s.super_table k)).dev = x ∧
      (f (s.super_table k)).count = y ∧ (f (s.super_table k)).imount = z) :
    Rows s₀ k x y z (s.setSuper k f) := by
  have hself : (s.setSuper k f).super_table k = f (s.super_table k) := Function.update_self ..
  refine ⟨h.lt, by rw [hself]; exact hf, fun j hj => (h.others j hj).trans ?_⟩
  have hother : (s.setSuper k f).super_table j = s.super_table j := Function.update_of_ne hj ..
  rw [SameRow, hother]
  exact ⟨rfl, rfl, rfl⟩

/-- No super block has the device. -/
theorem getSuper_none (h : getSuper s dev = none) (hj : j < SUPER_NR) :
    (s.super_table j).dev ≠ dev := by
  have hall := List.find?_eq_none.mp h j (List.mem_range.mpr hj)
  exact fun heq => hall (decide_eq_true heq)

/-! ## `put_super` -/

theorem putSuper_none : Keeps (Done s₀) (putSuper none) := Keeps.pure

/-- A reference beside the mount's own is dropped. -/
theorem putSuper_shared (h : Rows s₀ k d 2 m s) :
    From never s (putSuper (some k)) fun _ t => Rows s₀ k d 1 m t := by
  refine From.get (from_assert fun _ => From.set (From.get ?_))
  have hdrop := h.set (f := fun sb => { sb with count := sb.count - 1 }) (c := 2) (m := m)
    ⟨h.row.1, by show (s.super_table k).count - 1 = 1; rw [h.row.2.1], h.row.2.2⟩
  refine From.ite (fun _ => From.pure hdrop) fun hne => ?_
  exact absurd hdrop.row.2.1 fun hone => hne (by rw [hone]; exact Nat.one_ne_zero)

/-- The last reference frees the row, and leaves the mount point where it is. -/
theorem putSuper_frees (h : Rows s₀ k d 1 m s) :
    From never s (putSuper (some k)) fun _ t => Rows s₀ k EOF 0 m t := by
  refine From.get (from_assert fun _ => From.set (From.get ?_))
  have hdrop := h.set (f := fun sb => { sb with count := sb.count - 1 }) (m := m)
    ⟨h.row.1, by show (s.super_table k).count - 1 = 0; rw [h.row.2.1], h.row.2.2⟩
  refine From.ite (fun hne => absurd hdrop.row.2.1 hne) fun _ => From.set (From.get ?_)
  have hfree := hdrop.set (f := fun sb => { sb with dev := EOF }) ⟨rfl, hdrop.row.2⟩
  refine From.bind (Triple.start (keeps_iput rows_fixed) hfree) fun _ t ht => ?_
  exact From.get (Triple.start (keeps_iput rows_fixed) ht)

theorem putSuper_last (h : Rows s₀ k d 1 none s) :
    From never s (putSuper (some k)) fun _ t => Done s₀ t :=
  (putSuper_frees h).post fun _ _ ht => ⟨k, EOF, 0, none, ht, .inl ⟨rfl, rfl, rfl⟩,
    fun hd => absurd rfl hd, fun _ hm => absurd rfl hm⟩

/-- A free row has no reference to drop. -/
theorem putSuper_zero {Q : Unit → Kernel → Prop} (hc : (s.super_table k).count = 0) :
    From never s (putSuper (some k)) Q :=
  From.get (from_assert fun hpos => absurd hc (Nat.pos_iff_ne_zero.mp hpos))

/-! ## `sys_mount` -/

theorem mountFails_none {i j : Option Nat} (h : Done s₀ s) :
    From never s (mountFails none i j) fun _ t => Done s₀ t := by
  refine From.bind (Triple.start putSuper_none h) fun _ t ht => ?_
  refine From.bind (Triple.start (keeps_iput done_fixed) ht) fun _ u hu => ?_
  exact From.bind (Triple.start (keeps_iput done_fixed) hu) fun _ v hv => From.pure hv

theorem getFreeSuper_spec :
    From never s getFreeSuper fun k t => t = s ∧ k < SUPER_NR ∧ (s.super_table k).dev = EOF := by
  refine From.get ?_
  cases hfree : getSuper s EOF with
  | none => exact From.stop not_false
  | some k => exact From.pure ⟨rfl, getSuper_some hfree⟩

/-- A device without a super block is new to every row. -/
theorem Same.fresh (h : Same s₀ s) (hnone : getSuper s dev = none) : Fresh s₀ k dev :=
  fun _ j hj _ heq => getSuper_none hnone hj ((h j).1.trans heq)

/-- A free row has no mount point. -/
theorem Same.free (h : Same s₀ s) (ht : Table s₀) (hlt : k < SUPER_NR)
    (hd : (s.super_table k).dev = EOF) :
    Rows s₀ k EOF 0 none s ∧ (s₀.super_table k).imount = none := by
  have hrow := h.rows hlt
  have hd₀ : (s₀.super_table k).dev = EOF := (h k).1.symm.trans hd
  rcases ht.settled k hlt with ⟨-, hc, hm⟩ | hset
  · rw [hd₀, hc, hm] at hrow
    exact ⟨hrow, hm⟩
  · exact absurd hd₀ hset.1

/-- The super block is a free one that is now the device's, or the device's own with
    one more reference. -/
theorem readSuper_rows (ht : Table s₀) (h : Same s₀ s) (hdev : dev ≠ EOF) :
    From never s (readSuper dev) fun k t => Fresh s₀ k dev ∧
      ((Rows s₀ k dev 1 none t ∧ (s₀.super_table k).imount = none) ∨
        ∃ i, Rows s₀ k dev 2 (some i) t ∧ dev = (s₀.super_table k).dev) := by
  refine From.get ?_
  cases hk : getSuper s dev with
  | some k =>
      obtain ⟨hlt, hd⟩ := getSuper_some hk
      have hd₀ : (s₀.super_table k).dev = dev := (h k).1.symm.trans hd
      have hrow := h.rows hlt
      rcases ht.settled k hlt with hset | ⟨-, hcount, hmount⟩
      · exact absurd (hd₀.symm.trans hset.1) hdev
      obtain ⟨i, hi⟩ := Option.ne_none_iff_exists'.mp hmount
      have hfresh := ht.fresh hlt
      rw [hd₀] at hfresh
      refine From.set (From.pure ⟨hfresh, .inr ⟨i, hrow.set ⟨hd, ?_, hrow.row.2.2.trans hi⟩, hd₀.symm⟩⟩)
      show (s.super_table k).count + 1 = 2
      rw [hrow.row.2.1, hcount]
  | none =>
      refine From.bind getFreeSuper_spec fun k t hfree => ?_
      obtain ⟨rfl, hlt, hd⟩ := hfree
      obtain ⟨hrow, hm₀⟩ := h.free ht hlt hd
      refine From.get (from_assert fun _ => ?_)
      cases readDesc (t.disk dev 1) with
      | none => exact From.stop not_false
      | some desc =>
          refine From.set (From.pure ⟨h.fresh hk, .inl ⟨?_, hm₀⟩⟩)
          exact hrow.set ⟨rfl, rfl, hrow.row.2.2⟩

theorem mountOn_done (ht : Table s₀) (h : Same s₀ s) (hdev : dev ≠ EOF) :
    From never s (mountOn dev i j) fun _ t => Done s₀ t := by
  refine From.bind (readSuper_rows ht h hdev) fun k t hread => From.get ?_
  obtain ⟨hfresh, ⟨hrow, hm₀⟩ | ⟨m, hrow, hd₀⟩⟩ := hread
  · refine From.ite (fun hm => ?_) fun _ => ?_
    · rw [hrow.row.2.2] at hm
      cases hm
    refine From.bind (Triple.start (keeps_iget rows_fixed) hrow) fun iroot u hu => ?_
    refine From.set (From.set (From.set ?_))
    have hroot := hu.set (f := fun sb => { sb with iroot := some iroot }) hu.row
    have hmount := hroot.set (f := fun sb => { sb with imount := some j }) (z := some j)
      ⟨hroot.row.1, hroot.row.2.1, rfl⟩
    have hdone : Done s₀ _ := ⟨k, dev, 1, some j, hmount, .inr ⟨hdev, rfl, nofun⟩, hfresh,
      fun hne => absurd hm₀ hne⟩
    have hset := hdone.setInode j fun inode => { inode with mount := dev }
    exact From.bind (Triple.start (keeps_iput done_fixed) hset) fun _ v hv => From.pure hv
  · refine From.ite (fun _ => ?_) fun hm => ?_
    · refine From.bind (putSuper_shared hrow) fun _ u hu => ?_
      have hdone : Done s₀ u := ⟨k, dev, 1, some m, hu, .inr ⟨hdev, rfl, nofun⟩, hfresh,
        fun _ _ => hd₀⟩
      refine From.bind (Triple.start (keeps_iput done_fixed) hdone) fun _ v hv => ?_
      exact From.bind (Triple.start (keeps_iput done_fixed) hv) fun _ w hw => From.pure hw
    · rw [hrow.row.2.2] at hm
      exact absurd rfl hm

/-- The number of a device file is no `EOF`. -/
theorem zone_ne (x : BitVec 16) : ((x.toNat : Int) : Dev) ≠ EOF := by
  intro h
  have hpos : (0 : Int) ≤ (x.toNat : Int) := Int.natCast_nonneg _
  rw [h] at hpos
  exact absurd hpos (by decide)

theorem sysMount_done (devname dirname : Str) (ht : Table s₀) (h : Same s₀ s) :
    From never s (sysMount devname dirname) fun _ t => Done s₀ t := by
  refine From.bind (Triple.start (keeps_namei same_fixed.stable) h) fun found t hsame => ?_
  cases found with
  | none => exact mountFails_none (hsame.done ht)
  | some i =>
      refine From.get (From.ite (fun _ => mountFails_none (hsame.done ht)) fun _ => ?_)
      refine From.bind (Triple.start (keeps_namei same_fixed.stable) hsame) fun found u hu => ?_
      cases found with
      | none => exact mountFails_none (hu.done ht)
      | some j =>
          refine From.get (From.ite (fun _ => mountFails_none (hu.done ht)) fun _ => ?_)
          exact From.ite (fun _ => mountFails_none (hu.done ht)) fun _ =>
            mountOn_done ht hu (zone_ne _)

/-! ## `sys_umount` -/

/-- The device `sys_umount` looks for behind `namei`. -/
def umountDev (s : Kernel) (i : Nat) : Dev :=
  if ISBLK (s.mode i) then (s.index (s.zone i) 0).toNat else (s.inode_table i).dev

/-- The file system of the target is in use: `sys_umount` gets past its first tests
    and finds more than one in-memory inode of the device. -/
def InUse (s : Kernel) (i : Nat) : Prop :=
  (ISBLK (s.mode i) ∨ (s.inode_table i).nr = 1) ∧ some i ≠ (s.super_table s.root).imount ∧
    ∃ k, getSuper s (umountDev s i) = some k ∧ 1 < (s.super_table k).inode_list.length

theorem leave_done {i : Option Nat} {ret : Int} (h : Done s₀ s) :
    From never s (leave none i ret) fun _ t => Done s₀ t := by
  refine From.bind (Triple.start putSuper_none h) fun _ t ht => ?_
  exact From.bind (Triple.start (keeps_iput done_fixed) ht) fun _ u hu => From.pure hu

/-- A file system that is not in use leaves the table with its mount. -/
theorem umountDevice_done (ht : Table s₀) (h : Same s₀ s)
    (hfree : ∀ k, getSuper s dev = some k → (s.super_table k).inode_list.length ≤ 1) :
    From never s (umountDevice i dev) fun _ t => Done s₀ t := by
  refine From.get (from_deref fun k hk => From.get ?_)
  obtain ⟨hlt, hd⟩ := getSuper_some hk
  have hrow := h.rows hlt
  have hset := ht.settled k hlt
  rw [← hrow.row.2.1, ← hrow.row.2.2] at hset
  cases hm : (s.super_table k).imount with
  | none =>
      -- the row is free, and `put_super` finds no reference
      rw [hm] at hset
      rcases hset with ⟨-, hcount, -⟩ | hset
      · exact From.bind (putSuper_zero (Q := fun _ _ => False) hcount) fun _ t hno => hno.elim
      · exact absurd rfl hset.2.2
  | some j =>
      have hle := hfree k hk
      dsimp only
      refine From.ite (fun hgt => absurd hgt (Nat.not_lt.mpr hle)) fun _ => ?_
      rcases hset with hset | ⟨hne, hcount, -⟩
      · rw [hm] at hset
        exact absurd hset.2.2 nofun
      refine From.bind (Triple.start (keeps_iput rows_fixed) hrow) fun _ t hr => From.set ?_
      have hroot := hr.set (f := fun sb => { sb with iroot := none }) hr.row
      have hinode := hroot.setInode j fun inode => { inode with mount := 0 }
      refine From.set (From.bind (Triple.start (keeps_iput rows_fixed) hinode) fun _ u hu => ?_)
      have hgone := hu.set (f := fun sb => { sb with imount := none }) (y := 1) (z := none)
        ⟨hu.row.1, hu.row.2.1.trans (hrow.row.2.1.symm.trans hcount), rfl⟩
      refine From.set (From.bind (putSuper_last hgone) fun _ v hv => ?_)
      exact From.bind (Triple.start (keeps_iput done_fixed) hv) fun _ w hw => From.pure hw

theorem umountInode_done (ht : Table s₀) (h : Same s₀ s) (hfree : ¬ InUse s i) :
    From never s (umountInode i) fun _ t => Done s₀ t := by
  refine From.get (From.ite (fun _ => leave_done (h.done ht)) fun hkind => ?_)
  refine From.ite (fun _ => leave_done (h.done ht)) fun hroot => ?_
  have hkind : ISBLK (s.mode i) ∨ (s.inode_table i).nr = 1 := by
    by_contra hno
    rw [not_or] at hno
    exact hkind hno
  have hidle : ∀ k, getSuper s (umountDev s i) = some k →
      (s.super_table k).inode_list.length ≤ 1 := by
    intro k hk
    by_contra hgt
    exact hfree ⟨hkind, hroot, k, hk, Nat.not_le.mp hgt⟩
  refine From.ite (fun hblk => umountDevice_done ht h ?_) fun hblk => umountDevice_done ht h ?_
  · rw [umountDev, if_pos hblk] at hidle
    exact hidle
  · rw [umountDev, if_neg hblk] at hidle
    exact hidle

/-! ## `sys_mkfs` -/

theorem same_redescribe (s : Kernel) (dev : Dev) (desc : SuperDesc) :
    Same s (redescribe s dev desc) := by
  intro j
  by_cases hd : (s.super_table j).dev = dev
  · have hrow : (redescribe s dev desc).super_table j = { s.super_table j with desc := desc } :=
      if_pos hd
    rw [SameRow, hrow]
    exact ⟨rfl, rfl, rfl⟩
  · have hrow : (redescribe s dev desc).super_table j = s.super_table j := if_neg hd
    rw [SameRow, hrow]
    exact ⟨rfl, rfl, rfl⟩

theorem keeps_redescribe {desc : SuperDesc} :
    Keeps (Rows s₀ k d c m) (modify fun s => redescribe s dev desc) :=
  fun _ s h => h.same (same_redescribe s dev desc)

theorem keeps_zeroBlock {b : Nat} : Keeps (Rows s₀ k d c m) (zeroBlock dev b) :=
  keeps_modifyDisk rows_fixed.diskFree

theorem keeps_balloc : Keeps (Rows s₀ k d c m) (NeonixFileSystem.balloc dev) :=
  .bind (keeps_onVolume rows_fixed.diskFree) fun _ => .pure

theorem keeps_fillLast {first blocks count : Nat} :
    Keeps (Rows s₀ k d c m) (fillLast dev first blocks count) :=
  .ite .stop (keeps_modifyDisk rows_fixed.diskFree)

/-- The bitmaps and the descriptor leave the rows alone. -/
theorem keeps_formatMaps {z : Sizes} {icount : Nat} :
    Keeps (Rows s₀ k d c m) (formatMaps dev z icount) := by
  refine .bind (keeps_modifyDisk rows_fixed.diskFree) fun _ => ?_
  cases makeDesc z.inodes z.zones z.imap_blocks z.zmap_blocks z.firstdatazone with
  | none => exact .stop
  | some desc =>
      refine .bind keeps_redescribe fun _ =>
        .bind (.loop (fun _ => keeps_zeroBlock) _ _) fun _ => ?_
      refine .bind (.loop (fun _ => keeps_zeroBlock) _ _) fun _ => .bind keeps_balloc fun _ => ?_
      refine .bind (keeps_ialloc rows_fixed.diskFree) fun _ => ?_
      refine .bind (keeps_ialloc rows_fixed.diskFree) fun _ => ?_
      exact .bind keeps_fillLast fun _ => keeps_fillLast

/-- So does the root directory, but for the root inode of the row. -/
theorem keeps_formatRoot {j : Nat} : Keeps (Rows s₀ k d c m) (formatRoot dev j) := by
  have hd : DiskFree (Rows s₀ k d c m) := rows_fixed.diskFree
  refine .bind keeps_runningTask fun _ => .bind (keeps_newInode rows_fixed.stable) fun iroot => ?_
  refine .bind (?_ : Keeps (Rows s₀ k d c m) _) fun _ => ?_
  · intro _ s h
    refine h.same fun i => ?_
    by_cases hij : i = j
    · subst hij
      simp only [SameRow, Kernel.setSuper, Function.update_self, and_self]
    · simp only [SameRow, Kernel.setSuper, Function.update_of_ne hij, and_self]
  refine .bind (keeps_modifyDisk hd) fun _ => .bind (keeps_modifyDisk hd) fun _ => ?_
  refine .bind (keeps_modifyDisk hd) fun _ => .bind (keeps_bmap hd) fun _ => ?_
  refine .bind keeps_zeroBlock fun _ => .bind (keeps_modifyDisk hd) fun _ => ?_
  refine .bind (keeps_modifyDisk hd) fun _ => .bind (keeps_modifyDisk hd) fun _ => ?_
  exact keeps_modifyDisk hd

/-- A device without a super block takes a free row and gives it back. -/
theorem devmkfs_done {total icount : Nat} (ht : Table s₀) (h : Same s₀ s) :
    From never s (devmkfs total dev icount) fun _ t => Done s₀ t := by
  refine from_assert fun _ => from_assert fun _ => ?_
  refine From.bind getFreeSuper_spec fun k t hfree => ?_
  obtain ⟨rfl, hlt, hd⟩ := hfree
  obtain ⟨hrow, -⟩ := h.free ht hlt hd
  have htaken := hrow.set (f := fun sb => { sb with dev := dev, count := 1 }) (x := dev) (y := 1)
    ⟨rfl, rfl, hrow.row.2.2⟩
  refine From.set (From.bind (Triple.start keeps_formatMaps htaken) fun _ u hu => ?_)
  refine From.bind (Triple.start keeps_formatRoot hu) fun _ v hv => ?_
  exact From.bind (putSuper_last hv) fun _ w hw => From.pure hw

theorem sysMkfs_done {blocks : Dev → Nat} {icount : Nat} (devname : Str) (ht : Table s₀)
    (h : Same s₀ s) : From never s (sysMkfs blocks devname icount) fun _ t => Done s₀ t := by
  refine From.bind (Triple.start (keeps_namei same_fixed.stable) h) fun found t hsame => ?_
  cases found with
  | none => exact From.pure (hsame.done ht)
  | some i =>
      refine From.get (From.ite (fun _ => ?_) fun _ => from_assert fun _ => ?_)
      · refine From.bind (Triple.start (keeps_iput done_fixed) (hsame.done ht)) fun _ u hu => ?_
        exact From.pure hu
      · refine From.bind (devmkfs_done ht hsame) fun _ u hu => ?_
        exact From.bind (Triple.start (keeps_iput done_fixed) hu) fun _ v hv => From.pure hv

/-! ## Runs of the three calls -/

inductive MountCall where
  | mount (devname dirname : Str)
  | umount (target : Str)
  | mkfs (devname : Str) (icount : Nat)

/-- A task makes one of the calls, whose unbounded loops take at most `fuel` turns. -/
structure MountEvent where
  task : Nat
  fuel : Nat
  call : MountCall

/-- What a call runs. -/
def mountCall (blocks : Dev → Nat) : MountCall → Fs Int
  | .mount devname dirname => sysMount devname dirname
  | .umount target => sysUmount target
  | .mkfs devname icount => sysMkfs blocks devname icount

def mountExec (blocks : Dev → Nat) (s : Kernel) (e : MountEvent) : Except Halt Kernel := do
  let (_, s) ← mountCall blocks e.call e.fuel { s with current := e.task }
  return s

/-- `super_init`: the root file system is mounted, the other rows are free. -/
structure Booted (s : Kernel) : Prop where
  root : s.root < SUPER_NR ∧ (s.super_table s.root).dev ≠ EOF ∧
    (s.super_table s.root).count = 1 ∧ (s.super_table s.root).imount ≠ none
  free : ∀ j < SUPER_NR, j ≠ s.root → (s.super_table j).dev = EOF ∧
    (s.super_table j).count = 0 ∧ (s.super_table j).imount = none

/-- Runs of the three calls from boot, on devices of the given sizes. -/
def mountSystem (blocks : Dev → Nat) : System Kernel MountEvent :=
  execSystem Booted (fun _ _ => True) (mountExec blocks)

/-- A call does not unmount a file system in use. -/
def Careful (s : Kernel) (e : MountEvent) : Prop :=
  match e.call with
  | .umount target => ∀ i t,
      namei target e.fuel { s with current := e.task } = .ok (some i, t) → ¬ InUse t i
  | _ => True

/-- At most one super block a device, and the mounted one is the one `get_super`
    finds. -/
structure OneSuper (s : Kernel) : Prop where
  distinct : ∀ j < SUPER_NR, ∀ k < SUPER_NR, (s.super_table j).dev = (s.super_table k).dev →
    (s.super_table j).dev ≠ EOF → j = k
  found : ∀ k < SUPER_NR, (s.super_table k).imount ≠ none →
    (s.super_table k).dev ≠ EOF ∧ getSuper s (s.super_table k).dev = some k

theorem Booted.table (h : Booted s) : Table s := by
  obtain ⟨⟨hlt, hd, hc, hm⟩, hfree⟩ := h
  refine ⟨fun k hk => ?_, fun i hi j hj heq hne => ?_⟩
  · by_cases hkr : k = s.root
    · rw [hkr]
      exact .inr ⟨hd, hc, hm⟩
    · exact .inl (hfree k hk hkr)
  · -- only the row of the root file system has a device
    have hroot : ∀ n < SUPER_NR, (s.super_table n).dev ≠ EOF → n = s.root := by
      intro n hn hdev
      by_contra hnr
      exact hdev (hfree n hn hnr).1
    rw [hroot i hi hne, hroot j hj (heq ▸ hne)]

theorem Table.oneSuper (h : Table s) : OneSuper s := by
  refine ⟨h.distinct, fun k hk hm => ?_⟩
  have hdev : (s.super_table k).dev ≠ EOF := by
    rcases h.settled k hk with hset | hset
    · exact absurd hset.2.2 hm
    · exact hset.1
  refine ⟨hdev, ?_⟩
  cases hfound : getSuper s (s.super_table k).dev with
  | none => exact absurd rfl (getSuper_none hfound hk)
  | some j =>
      obtain ⟨hlt, hsame⟩ := getSuper_some hfound
      rw [h.distinct j hlt k hk hsame (by rw [hsame]; exact hdev)]

/-! ## Steps -/

section Steps

variable {blocks : Dev → Nat} {e : MountEvent} {target : Str}

theorem mountExec_ok (h : mountExec blocks s e = .ok t) :
    ∃ ret, mountCall blocks e.call e.fuel { s with current := e.task } = .ok (ret, t) := by
  rw [mountExec] at h
  cases hr : mountCall blocks e.call e.fuel { s with current := e.task } with
  | error why =>
      rw [hr] at h
      cases h
  | ok r =>
      rw [hr] at h
      exact ⟨r.1, by rw [← Except.ok.inj h]⟩

/-- What `sys_umount` does behind a path walk that is over. -/
theorem sysUmount_run {found : Option Nat} (h : namei target n s = .ok (found, t)) :
    sysUmount target n s = (match found with
      | none => leave none none EOF
      | some i => umountInode i) n t := by
  cases found with
  | none => exact bind_run h
  | some i => exact bind_run h

/-- A path walk leaves the table alone. -/
theorem namei_same {found : Option Nat} (h : Same s₀ s) (hn : namei target n s = .ok (found, t)) :
    Same s₀ t :=
  (keeps_namei same_fixed.stable).of_ok h hn

theorem sysUmount_done {ret : Int} (ht : Table s₀) (h : Same s₀ s)
    (hfree : ∀ i u, namei target n s = .ok (some i, u) → ¬ InUse u i)
    (hrun : sysUmount target n s = .ok (ret, t)) : Done s₀ t := by
  cases hn : namei target n s with
  | error why =>
      have hstop : sysUmount target n s = .error why := by
        show (namei target n s >>= _) = _
        rw [hn]
        rfl
      rw [hstop] at hrun
      cases hrun
  | ok r =>
      obtain ⟨found, u⟩ := r
      have hsame := namei_same h hn
      rw [sysUmount_run hn] at hrun
      cases found with
      | none => exact (leave_done (hsame.done ht)).of_ok rfl hrun
      | some i => exact (umountInode_done ht hsame (hfree i u hn)).of_ok rfl hrun

/-- A file system in use loses its super block and stays mounted. -/
theorem umountInode_busy (ht : Table s₀) (h : Same s₀ s) (hbusy : InUse s i) :
    From never s (umountInode i) fun _ t => ¬ OneSuper t := by
  obtain ⟨hkind, hroot, k, hk, hlen⟩ := hbusy
  refine From.get (From.ite (fun hno => absurd hkind (not_or.mpr hno)) fun _ => ?_)
  refine From.ite (fun hr => absurd hr hroot) fun _ => ?_
  obtain ⟨hlt, -⟩ := getSuper_some hk
  have hrow := h.rows hlt
  have hset := ht.settled k hlt
  rw [← hrow.row.2.1, ← hrow.row.2.2] at hset
  have hdevice : From never s (umountDevice i (umountDev s i)) fun _ t => ¬ OneSuper t := by
    refine From.get (from_deref fun k' hk' => From.get ?_)
    obtain rfl := Option.some.inj (hk.symm.trans hk')
    cases hm : (s.super_table k).imount with
    | none =>
        rw [hm] at hset
        rcases hset with ⟨-, hcount, -⟩ | hset
        · exact From.bind (putSuper_zero (Q := fun _ _ => False) hcount) fun _ t hno => hno.elim
        · exact absurd rfl hset.2.2
    | some j =>
        refine From.ite (fun _ => ?_) fun hle => absurd hlen hle
        rcases hset with hset | ⟨-, hcount, -⟩
        · rw [hm] at hset
          exact absurd hset.2.2 nofun
        -- `put_super` drops the reference of the mount
        rw [← hrow.row.2.1, hcount, ← hrow.row.2.2, hm] at hrow
        refine From.bind (putSuper_frees hrow) fun _ t hlost => ?_
        refine From.bind (Triple.start (keeps_iput rows_fixed) hlost) fun _ u hu => From.pure ?_
        intro hone
        have hmounted : (u.super_table k).imount ≠ none := by
          rw [hu.row.2.2]
          exact nofun
        exact (hone.found k hlt hmounted).1 hu.row.1
  rw [umountDev] at hdevice
  refine From.ite (fun hblk => ?_) fun hblk => ?_
  · rw [if_pos hblk] at hdevice
    exact hdevice
  · rw [if_neg hblk] at hdevice
    exact hdevice

/-- Another task may run: the table is the same. -/
theorem same_current (s : Kernel) (task : Nat) : Same s { s with current := task } :=
  fun _ => ⟨rfl, rfl, rfl⟩

theorem step_done (ht : Table s) (hc : Careful s e) (h : mountExec blocks s e = .ok t) :
    Done s t := by
  obtain ⟨ret, hrun⟩ := mountExec_ok h
  have hsame := same_current s e.task
  obtain ⟨task, fuel, call⟩ := e
  cases call with
  | mount devname dirname => exact (sysMount_done devname dirname ht hsame).of_ok rfl hrun
  | umount target => exact sysUmount_done ht hsame hc hrun
  | mkfs devname icount => exact (sysMkfs_done devname ht hsame).of_ok rfl hrun

/-- A step that is not careful breaks the table. -/
theorem step_busy (ht : Table s) (hc : ¬ Careful s e) (h : mountExec blocks s e = .ok t) :
    ¬ OneSuper t := by
  obtain ⟨ret, hrun⟩ := mountExec_ok h
  have hsame := same_current s e.task
  obtain ⟨task, fuel, call⟩ := e
  cases call with
  | mount devname dirname => exact absurd trivial hc
  | mkfs devname icount => exact absurd trivial hc
  | umount target =>
      have hbusy : ∃ i u, namei target fuel { s with current := task } = .ok (some i, u) ∧
          InUse u i := by
        by_contra hno
        exact hc fun i u hn hin => hno ⟨i, u, hn, hin⟩
      obtain ⟨i, u, hn, hin⟩ := hbusy
      have hrun : sysUmount target fuel { s with current := task } = .ok (ret, t) := hrun
      rw [sysUmount_run hn] at hrun
      exact (umountInode_busy ht (namei_same hsame hn) hin).of_ok rfl hrun

/-- A call that may do anything. -/
theorem from_any {α : Type} {x : Fs α} : From never s x fun _ _ => True := by
  intro n t _
  cases x n t with
  | error why => exact not_false
  | ok r => trivial

/-- `sys_mkfs` of a block device is not refused, whether or not it is mounted. -/
theorem mkfsInode_accepts {icount : Nat} (hblk : ISBLK (s.mode i)) :
    From never s (mkfsInode blocks i icount) fun ret _ => ret = 0 := by
  refine From.get (From.ite (fun hno => absurd hblk hno) fun _ => from_assert fun _ => ?_)
  have hformat : ∀ total dev icount, From never s (devmkfs total dev icount) fun ret _ =>
      ret = 0 := by
    intro total dev icount
    refine from_assert fun _ => from_assert fun _ => ?_
    refine From.bind from_any fun k t _ => From.set (From.bind from_any fun _ u _ => ?_)
    exact From.bind from_any fun _ v _ => From.bind from_any fun _ w _ => From.pure rfl
  refine From.bind (hformat _ _ _) fun ret t hret => ?_
  exact From.bind from_any fun _ u _ => From.pure hret

/-- In every run of the three calls that unmounts no file system in use, no two super
    blocks have one device, a mounted one keeps its device and `get_super` finds it;
    a step that unmounts one in use breaks this.  A `mkfs` of a block device is never
    refused. -/
theorem one_super (blocks : Dev → Nat) :
    (∀ s, Reach (mountSystem blocks) Careful s → OneSuper s ∧
      ∀ e t, (mountSystem blocks).step s e t → (OneSuper t ↔ Careful s e) ∧
        (Careful s e → ∀ k < SUPER_NR, (s.super_table k).imount ≠ none →
          (t.super_table k).imount ≠ none → (t.super_table k).dev = (s.super_table k).dev)) ∧
    ∀ (s t u : Kernel) (devname : Str) (i icount n : Nat) (ret : Int),
      namei devname n s = .ok (some i, u) → ISBLK (u.mode i) →
      sysMkfs blocks devname icount n s = .ok (ret, t) → ret ≠ EOF := by
  have htable : ∀ s, Reach (mountSystem blocks) Careful s → Table s := by
    intro s hs
    have hinit : ∀ s, (mountSystem blocks).init s → Table s := fun _ h => Booted.table h
    refine hs.invariant hinit ?_
    rintro s e t ht hc ⟨-, hstep⟩
    exact (step_done ht hc hstep).table ht
  refine ⟨fun s hs => ⟨(htable s hs).oneSuper, ?_⟩, ?_⟩
  · rintro e t ⟨-, hstep⟩
    have ht := htable s hs
    refine ⟨⟨fun hone => ?_, fun hc => ((step_done ht hc hstep).table ht).oneSuper⟩, ?_⟩
    · by_contra hc
      exact step_busy ht hc hstep hone
    · intro hc k _ hm hm'
      exact (step_done ht hc hstep).kept hm hm'
  · intro s t u devname i icount n ret hn hblk hrun
    have hmkfs : sysMkfs blocks devname icount n s = mkfsInode blocks i icount n u := bind_run hn
    rw [hmkfs] at hrun
    have hzero : ret = 0 := (mkfsInode_accepts hblk).of_ok rfl hrun
    rw [hzero]
    decide

end Steps

/-! ## The device file of the root file system -/

/-- The root directory has a third entry, the device file `b` of device 1. -/
def deviceDisk (block : Nat) : Bytes := fun k =>
  match block with
  | 2 => if k = 0 then 7 else 0
  | 4 => ([0xED, 0x41, 0, 0, 48, 0, 0, 0, 0, 0, 0, 0, 0, 2, 5] ++ List.replicate 17 0 ++
      [0x80, 0x61, 0, 0, 0, 0, 0, 0, 0, 0, 0, 0, 0, 1, 1]).getD k 0
  | 5 => ([1, 0, 0x2E] ++ List.replicate 13 0 ++ [1, 0, 0x2E, 0x2E] ++ List.replicate 12 0 ++
      [2, 0, 0x62]).getD k 0
  | b => bootDisk b k

def deviceState : Kernel :=
  { bootState with
    disk := fun _ => deviceDisk
    super_table := fun k =>
      { desc := bootDesc, dev := if k = 0 then 1 else EOF, count := if k = 0 then 1 else 0
        inode_list := if k = 0 then [0] else [], iroot := if k = 0 then some 0 else none
        imount := if k = 0 then some 0 else none } }

theorem deviceState_booted : Booted deviceState := by
  refine ⟨by decide, fun j _ hne => ?_⟩
  have hj : j ≠ 0 := hne
  exact ⟨if_neg hj, if_neg hj, if_neg hj⟩

/-- The root file system is mounted and its super block has lost the device. -/
def lost (r : Except Halt Kernel) : Bool :=
  r.toOption.any fun t => (t.super_table 0).dev = EOF ∧ (t.super_table 0).imount ≠ none

/-- `umount` of the device file of the root file system frees its super block. -/
theorem umount_frees_mounted : ∃ t, Reach (mountSystem fun _ => 64) free t ∧ ¬ OneSuper t := by
  have hlost : lost (mountExec (fun _ => 64) deviceState ⟨0, 4, .umount pathB⟩) = true := by
    decide +kernel
  rw [lost] at hlost
  obtain ⟨t, ht, hbad⟩ := (Option.any_eq_true ..).mp hlost
  obtain ⟨hdev, hmount⟩ := of_decide_eq_true hbad
  have hstart : Reach (mountSystem fun _ => 64) free deviceState := Reach.start deviceState_booted
  have hstep : mountExec (fun _ => 64) deviceState ⟨0, 4, .umount pathB⟩ = .ok t := by
    cases hr : mountExec (fun _ => 64) deviceState ⟨0, 4, .umount pathB⟩ with
    | error why =>
        rw [hr] at ht
        cases ht
    | ok u =>
        rw [hr] at ht
        rw [Option.some.inj ht]
  exact ⟨t, hstart.step trivial ⟨trivial, hstep⟩, fun hone =>
    (hone.found 0 (by decide) hmount).1 hdev⟩

end NeonixSuperTable
