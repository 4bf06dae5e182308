import Neonix.NewInodes

/-! # Calls that put a name into a directory

    `sys_mkdir`, `sys_mknod`, `sys_link` and `sys_open` with `O_CREAT` walk to a
    directory, put the name in and go on with the inode behind it.  Whatever they
    write after `add_entry` is outside the directory, so `creation_iff` is about
    the stored name alone. -/

namespace NeonixCreations

open NeonixMachine NeonixOutcome NeonixByteBits NeonixWords NeonixVolume NeonixAllocators NeonixCalls
  NeonixFileSystem NeonixNamei NeonixFiles NeonixFrames NeonixInodeRefs NeonixPathRefs
  NeonixComponents NeonixDirectories NeonixResolver NeonixWalks NeonixPathResolution
  NeonixBlockTrees NeonixNewEntries NeonixCreatedNames NeonixBlindCalls NeonixNewInodes

/-! ## The directory and its volume -/

/-- The directory in inode `m`, with its descriptor at `d`, is in order, and so is
    its volume as far as a creation goes: the inode is marked, as is inode 0; there
    is an entry `..`; a free inode has no zones and nothing is mounted there; there
    are zones to spare, blank ones where the directory has to grow by index blocks. -/
structure Fit (s : Kernel) (sb : SuperDesc) (m : Node) (d : Place) : Prop where
  directory : DirOk s sb d
  desc : descOf s m = some d
  self : InodeUsed (vol s sb d.dev) m.nr
  zero : InInodeMap sb 0 → inodeBit (vol s sb d.dev) 0 = true
  parent : lookup s d dotdot ≠ none
  blank : ∀ n, InodeFree (vol s sb d.dev) n → ∀ k < 18,
    s.bytes ((inodeDesc sb d.dev n).add 14) k = 0
  mounts : ∀ i, (s.inode_table i).mount ≠ 0 → (s.inode_table i).dev = d.dev →
    ¬ InodeFree (vol s sb d.dev) (s.inode_table i).nr
  spare : Spare (vol s sb d.dev) 4
  grows : (∀ n < entriesOf s d, Live s (entryPlace s d n)) →
    Grows s sb d (entriesOf s d / BLOCK_DENTRIES)

variable {s t u v w : Kernel} {sb : SuperDesc} {m n : Node} {d p : Place} {name : Str}
    {dir i nr : Nat}
  {L : List Nat} {W : Nat → Nat → Prop}

theorem Fit.device (h : Fit s sb m d) : d.dev = m.dev := by
  obtain ⟨k, -, hk⟩ := Option.map_eq_some_iff.mp h.desc
  rw [← hk]
  rfl

theorem Fit.place (h : Fit s sb m d) : d = inodeDesc sb d.dev m.nr := by
  obtain ⟨k, hk, hsb⟩ := h.directory.volume
  have hdesc := h.desc
  rw [descOf, ← h.device, hk, Option.map_some, hsb] at hdesc
  exact (Option.some.inj hdesc).symm

/-! ### A matter of the disks -/

theorem blockAt_disk (h : u.disk = s.disk) (z : Nat) (js : List Nat) :
    blockAt u d z js = blockAt s d z js := by
  have hindex : ∀ array i, u.index array i = s.index array i := fun array i =>
    index_congr fun k _ => by rw [h]
  rw [blockAt, blockAt]
  generalize d.add 14 = array
  induction js generalizing array z with
  | nil => rw [through, through, hindex]
  | cons j js ih => rw [through, through, hindex, ih]

theorem dirOk_disk (h : u.disk = s.disk) (hm : OnVolume u d.dev sb) (hok : DirOk s sb d) :
    DirOk u sb d := by
  have hnone : Differs d.dev (fun _ _ => False) s u := .of_disk h
  have hmarks : Marks d.dev sb s u := (hnone.marks fun _ _ hb => hb.elim).1
  have htree := hok.tree.congr hmarks fun z js _ => blockAt_disk h z js
  have hentries := directoryOk_disk h hok.entries
  obtain ⟨_, _, _, _, _, _, disk, _⟩ := u
  obtain rfl : disk = s.disk := h
  exact ⟨hok.place, hm, hok.reserved, htree, hok.isDir, hok.whole, hentries, hok.unique⟩

theorem mayGrow_disk (h : u.disk = s.disk) (hg : MayGrow s sb d) : MayGrow u sb d := by
  have hblock := blockAt_disk (d := d) h
  obtain ⟨_, _, _, _, _, _, disk, _⟩ := u
  obtain rfl : disk = s.disk := h
  intro hall
  obtain ⟨hspare, hgrows⟩ := hg hall
  refine ⟨hspare, hgrows.imp id fun hway k hk => ?_⟩
  rw [hblock]
  exact hway k hk

theorem inserted_disk {e : Nat} (h : u.disk = s.disk) (hi : Inserted u sb d name e t) :
    Inserted s sb d name e t := by
  obtain ⟨_, _, _, _, _, _, disk, _⟩ := u
  obtain rfl : disk = s.disk := h
  exact ⟨⟨hi.marks.used, hi.marks.free, hi.marks.reserved⟩, hi.tree, hi.mode, hi.slot, hi.inFile,
    hi.mapped, hi.new, hi.size, hi.places, hi.others, hi.named, hi.ends⟩

/-! ## After `add_entry` -/

/-- A call that holds `dir` and `L` has put the name in, as the entry at `p`, and has
    written no bytes but those of `W`. -/
structure Stage (s : Kernel) (sb : SuperDesc) (m : Node) (d : Place) (name : Str) (dir : Nat)
    (L : List Nat) (W : Nat → Nat → Prop) (p : Place) (u : Kernel) : Prop where
  tables : Over s (dir :: L) u
  node : slotNode u dir = m
  entry : ∃ e, Inserted s sb d name e u ∧ p = entryPlace u d e
  kept : Differs d.dev W s u
  spare : Spare (vol u sb d.dev) 1

theorem Stage.desc (h : Stage s sb m d name dir L W p u) (hfit : Fit s sb m d) :
    u.desc dir = d := by
  have hdir := h.tables.desc (i := dir) List.mem_cons_self
  rw [h.node, hfit.desc] at hdir
  exact (Option.some.inj hdir).symm

theorem over_volume (h : Over s L u) {dev : Dev} (hm : OnVolume s dev sb) : OnVolume u dev sb := by
  have hw : Walk s L (onDisk u s.disk) := h
  obtain ⟨k, hk, hsb⟩ := hm
  refine ⟨k, ?_, ?_⟩
  · rw [← hk]
    exact hw.getSuper dev
  · rw [← hsb]
    exact (hw.supers k).1

theorem addEntry_stage (hfit : Fit s sb m d) (h : Walk s (dir :: L) t) (hm : slotNode t dir = m)
    (hname : ∀ c ∈ name, c ≠ 0) (hplain : ¬ Split name) (habsent : lookup s d name = none) :
    From never t (addEntry dir name) fun p u => Stage s sb m d name dir L (AddBytes sb d) p u ∧
      u.inode_table = t.inode_table := by
  have hover := over_of_walk h
  have hdisk : t.disk = s.disk := by rw [h.frame]
  have hdesc : t.desc dir = d := by
    have hdir := hover.desc (i := dir) List.mem_cons_self
    rw [hm, hfit.desc] at hdir
    exact (Option.some.inj hdir).symm
  have hdev : (t.inode_table dir).dev = d.dev := by
    rw [hfit.device]
    exact congrArg Node.dev hm
  have hdd : name ≠ dotdot := by
    rintro rfl
    exact hfit.parent habsent
  have hgrow : MayGrow s sb d := fun hall => ⟨hfit.spare.mono (by omega), hfit.grows hall⟩
  refine (addEntry_adds (dirOk_disk hdisk (over_volume hover hfit.directory.volume) hfit.directory) hname
    hplain hdd ?_ (mayGrow_disk hdisk hgrow) hdesc hdev).post ?_
  · rw [(lookup_disk hdisk).1]
    exact habsent
  rintro p u ⟨e, hins, rfl, -, hw, hspare⟩
  refine ⟨⟨hover.within hw, ?_, ⟨e, inserted_disk hdisk hins, rfl⟩,
    (Differs.of_disk hdisk).trans hw.toDiffers, hspare ?_⟩, by rw [hw.tables]⟩
  · rw [hw.tables]
    exact hm
  · have hvol : vol t sb d.dev = vol s sb d.dev := by rw [vol, hdisk, vol]
    rw [hvol]
    exact hfit.spare

/-- The bytes written up to the number of the entry. -/
def EntryBytes (sb : SuperDesc) (d : Place) (b o : Nat) : Prop :=
  AddBytes sb d b o ∨ b < 2 + sb.imap_blocks

/-- A free inode is marked. -/
theorem ialloc_stage (hfit : Fit s sb m d) (h : Stage s sb m d name dir L (AddBytes sb d) p u) :
    From never u (ialloc (u.inode_table dir).dev) fun nr v =>
      Stage s sb m d name dir L (EntryBytes sb d) p v ∧ InodeFree (vol s sb d.dev) nr := by
  have hd := hfit.directory.place
  have hdev : (u.inode_table dir).dev = d.dev := by
    rw [hfit.device]
    exact congrArg Node.dev h.node
  have hadd : ∀ b o, b < 2 + sb.imap_blocks → ¬ AddBytes sb d b o := by
    have hlayout := Nat.le_of_add_right_le sb.layout
    have hlow := hd.low
    rintro b o hb (hz | hat | hdata)
    · exact absurd hz.1 (Nat.not_le.mpr hb)
    · have hblock := hat.1
      omega
    · have hfirst := hdata.1
      omega
  have himap : ∀ b o, b < 2 + sb.imap_blocks → u.disk d.dev b o = s.disk d.dev b o :=
    fun b o hb => h.kept.bytes b o (hadd b o hb)
  rw [hdev]
  refine (ialloc_from (over_volume h.tables hfit.directory.volume)).post ?_
  rintro nr v ⟨hlt, hin, hfree, hw⟩
  have hfree' : inodeBit (vol s sb d.dev) nr = false := (inodeBit_congr himap hin).symm.trans hfree
  have hpos : nr ≠ 0 := by
    rintro rfl
    exact absurd (hfree'.symm.trans (hfit.zero hin)) Bool.false_ne_true
  have htail : Tail sb d u v := .elsewhere hd (hw.toDiffers.mono fun b o hb => Or.inl hb)
  obtain ⟨e, hins, rfl⟩ := h.entry
  obtain ⟨hv, hplace, -⟩ := inserted_tail hins hfit.directory htail
  refine ⟨⟨h.tables.within hw, ?_, ⟨e, hv, hplace.symm⟩, ?_, ?_⟩,
    ⟨Nat.one_le_iff_ne_zero.mpr hpos, hlt.le⟩, hin, hfree'⟩
  · rw [hw.tables]
    exact h.node
  · exact (h.kept.mono fun b o hb => Or.inl hb).trans (hw.toDiffers.mono fun b o hb => Or.inr hb)
  · refine (hw.marks fun b o hb hz => ?_).2 1 h.spare
    exact absurd hz.1 (Nat.not_le.mpr hb)

/-- The number is stored. -/
theorem stage_numbered (hfit : Fit s sb m d) (h : Stage s sb m d name dir L W p u)
    (hW : ∀ b o, IsDataZone sb b → W b o) (hnr : nr < 2 ^ 16) :
    Stage s sb m d name dir L W p (u.setEntryNr p nr) ∧ (u.setEntryNr p nr).entryNr p = nr := by
  obtain ⟨e, hins, rfl⟩ := h.entry
  have hused := entry_used hins.tree hins.inFile hins.mapped
  obtain ⟨hv, hplace, hnumber⟩ := inserted_numbered hins hfit.directory hnr
  have hw : Within d.dev (At (entryPlace u d e) 2) u (u.setEntryNr (entryPlace u d e) nr) :=
    within_putU16 (entryPlace u d e) (BitVec.ofNat 16 nr)
  refine ⟨⟨h.tables.within hw, ?_, ⟨e, hv, hplace.symm⟩, h.kept.trans (hw.toDiffers.mono ?_),
    ?_⟩, hnumber⟩
  · rw [hw.tables]
    exact h.node
  · exact fun b o hb => hW b o (hb.1 ▸ hused.1)
  · exact (hw.marks fun b o hb => hb.1 ▸ dataZone_not_zmap hused.1).2 1 h.spare

/-- The name is in the directory, with the number of an inode. -/
def Made (s : Kernel) (sb : SuperDesc) (d : Place) (name : Str) (t : Kernel) : Prop :=
  ∃ e, Inserted s sb d name e t ∧ Live t (entryPlace t d e) ∧
    t.entryNr (entryPlace t d e) ≤ sb.inodes

theorem Stage.made (hfit : Fit s sb m d) (h : Stage s sb m d name dir L W p u)
    (hnr : IsInode sb (u.entryNr p)) (ht : Tail sb d u v) : Made s sb d name v := by
  obtain ⟨e, hins, rfl⟩ := h.entry
  obtain ⟨hv, hplace, hnumber⟩ := inserted_tail hins hfit.directory ht
  refine ⟨e, hv, ?_, ?_⟩
  · rw [hplace, Live, hnumber]
    exact Nat.one_le_iff_ne_zero.mp hnr.1
  · rw [hplace, hnumber]
    exact hnr.2

/-! ## The new inode -/

/-- The call holds the new inode besides, in slot `i`; its descriptor at `d'` has no
    zones. -/
structure Fresh (s : Kernel) (sb : SuperDesc) (m : Node) (d d' : Place) (dir i : Nat) (L : List Nat)
    (u v : Kernel) : Prop where
  tables : Over s (i :: dir :: L) v
  tail : Tail sb d u v
  node : slotNode v dir = m
  other : OtherDesc sb d d'
  desc : v.desc i = d'
  device : (v.inode_table i).dev = d.dev
  zones : ∀ k < 18, v.bytes (d'.add 14) k = 0
  reserved : Reserved (vol v sb d.dev)
  spare : Spare (vol v sb d.dev) 1

/-- The bytes of a new inode's descriptor before its zones, and the time, the group
    and the links of the directory. -/
def HeadBytes (d d' : Place) (b o : Nat) : Prop := At d' 14 b o ∨ At (d.add 8) 6 b o

theorem HeadBytes.elsewhere {d' : Place} {b o : Nat} (hd' : OtherDesc sb d d')
    (h : HeadBytes d d' b o) :
    Elsewhere sb d b o := by
  rcases h with ⟨hb, hlo, hhi⟩ | hat
  · exact Or.inr (Or.inl ⟨d', hd'.toDescPlace, hd'.apart, hb, hlo, by omega⟩)
  · exact Or.inr (Or.inr hat)

/-- Stores there leave the zones. -/
theorem Fresh.within {d' : Place} (hd : DescPlace sb d) (h : Fresh s sb m d d' dir i L u v)
    (hw : Within d.dev (HeadBytes d d') v w) : Fresh s sb m d d' dir i L u w where
  tables := h.tables.within hw
  tail := h.tail.trans (.elsewhere hd (hw.toDiffers.mono fun _ _ hb => hb.elsewhere h.other))
  node := by
    rw [hw.tables]
    exact h.node
  other := h.other
  desc := by
    rw [hw.tables]
    exact h.desc
  device := by
    rw [hw.tables]
    exact h.device
  zones := fun k hk => by
    rw [← h.zones k hk]
    show w.disk d'.dev d'.block (d'.off + 14 + k) = v.disk d'.dev d'.block (d'.off + 14 + k)
    rw [h.other.device]
    refine hw.bytes _ _ ?_
    obtain ⟨r, hr⟩ := hd.slot
    obtain ⟨r', hr'⟩ := h.other.slot
    rintro (⟨-, -, hhi⟩ | ⟨hb, hlo, hhi⟩)
    · omega
    · have hoff := h.other.apart.resolve_left fun hne => hne hb
      change d.off + 8 ≤ _ at hlo
      change _ < d.off + 8 + 6 at hhi
      omega
  reserved := (hw.marks fun _ _ hb => (hb.elsewhere h.other).not_zmap hd).1.reserved h.reserved
  spare := (hw.marks fun _ _ hb => (hb.elsewhere h.other).not_zmap hd).2 1 h.spare

theorem Fresh.head {d' : Place} {k x : Nat} (hd : DescPlace sb d)
    (h : Fresh s sb m d d' dir i L u v)
    (hw : Within d'.dev (At (d'.add k) x) v w) (hk : k + x ≤ 14) :
    Fresh s sb m d d' dir i L u w := by
  have hhead : Within d'.dev (HeadBytes d d') v w := (within_field hw hk).mono fun _ _ => Or.inl
  have hdev : d'.dev = d.dev := h.other.device
  rw [hdev] at hhead
  exact h.within hd hhead

/-- Nothing is mounted at a free inode. -/
theorem Fit.mounted (hfit : Fit s sb m d) (hfree : InodeFree (vol s sb d.dev) nr) :
    NeonixResolver.mounted s { dev := d.dev, nr := nr } = { dev := d.dev, nr := nr } := by
  rw [NeonixResolver.mounted]
  cases hfind : (List.range INODE_NR).find? fun j => slotNode s j = { dev := d.dev, nr := nr } with
  | none => rfl
  | some j =>
      have hfound := List.find?_some hfind
      have hnode : slotNode s j = { dev := d.dev, nr := nr } := of_decide_eq_true hfound
      have hmount : (s.inode_table j).mount = 0 := by
        by_contra hne
        refine hfit.mounts j hne (congrArg Node.dev hnode) ?_
        rw [show (s.inode_table j).nr = nr from congrArg Node.nr hnode]
        exact hfree
      exact if_pos hmount

/-- The stores of `new_inode` are in the descriptor of the new inode. -/
theorem Stage.fresh {d' : Place} (hfit : Fit s sb m d)
    (h : Stage s sb m d name dir L (EntryBytes sb d) p u) (hother : OtherDesc sb d d')
    (hblank : ∀ k < 18, s.bytes (d'.add 14) k = 0) (hv : Over s (i :: dir :: L) v)
    (hdesc : v.desc i = d') (hdevi : (v.inode_table i).dev = d.dev) (hsame : SameSlot u v dir)
    (hw : Differs d.dev (At d' 14) u v) : Fresh s sb m d d' dir i L u v := by
  have hd := hfit.directory.place
  have hhead : Differs d.dev (HeadBytes d d') u v := hw.mono fun _ _ => Or.inl
  have hmarks := hhead.marks fun b o hb => (hb.elsewhere hother).not_zmap hd
  obtain ⟨e, hins, -⟩ := h.entry
  refine ⟨hv, .elsewhere hd (hhead.mono fun _ _ hb => hb.elsewhere hother),
    hsame.1.trans h.node, hother, hdesc, hdevi, fun j hj => ?_,
    hmarks.1.reserved (hins.marks.reserved hfit.directory.reserved), hmarks.2 1 h.spare⟩
  -- nothing was written to the zones of the free inode
  rw [← hblank j hj]
  show v.disk d'.dev d'.block (d'.off + 14 + j) = s.disk d'.dev d'.block (d'.off + 14 + j)
  rw [hother.device]
  refine (hw.bytes _ _ ?_).trans (h.kept.bytes _ _ ?_)
  · rintro ⟨-, -, hhi⟩
    omega
  · rintro ((hz | ⟨hb, hlo, hhi⟩ | hdata) | hb)
    · exact hother.not_zmap hz
    · have hoff := hother.apart.resolve_left fun hne => hne hb
      obtain ⟨r, hr⟩ := hd.slot
      obtain ⟨r', hr'⟩ := hother.slot
      omega
    · exact dataZone_ne_desc hdata hother.toDescPlace rfl
    · have hlow := hother.low
      omega

theorem newInode_fresh (hs : Tree s) (hfit : Fit s sb m d)
    (h : Stage s sb m d name dir L (EntryBytes sb d) p u) (hfree : InodeFree (vol s sb d.dev) nr) :
    From never u (newInode (u.inode_table dir).dev nr) fun i v =>
      Fresh s sb m d (inodeDesc sb d.dev nr) dir i L u v := by
  have hd := hfit.directory.place
  have hdev : (u.inode_table dir).dev = d.dev := by
    rw [hfit.device]
    exact congrArg Node.dev h.node
  have hne : nr ≠ m.nr := by
    rintro rfl
    exact absurd (hfree.2.2.symm.trans hfit.self.2.2) Bool.false_ne_true
  have hother : OtherDesc sb d (inodeDesc sb d.dev nr) := by
    have hinode : IsInode sb nr := hfree.1
    have hself : IsInode sb m.nr := hfit.self.1
    refine ⟨descPlace_inode hinode, inodeDesc_dev .., ?_⟩
    have happ : (inodeDesc sb d.dev nr).block ≠ (inodeDesc sb d.dev m.nr).block ∨
        (inodeDesc sb d.dev nr).off ≠ (inodeDesc sb d.dev m.nr).off := inodeDesc_ne hinode hself hne
    rw [← hfit.place] at happ
    exact happ
  obtain ⟨k, hk, hsb⟩ := hfit.directory.volume
  have hused : d.dev ≠ EOF := by
    have hw : Walk s (dir :: L) (onDisk u s.disk) := h.tables
    rw [← hdev]
    exact hw.used (Or.inr List.mem_cons_self)
  rw [hdev]
  refine (newInode_from hs h.tables hk hsb hfree.1 hused (hfit.mounted hfree)).post ?_
  rintro i v ⟨hv, hdesc, hdevi, hsame, hw⟩
  exact h.fresh hfit hother (hfit.blank nr hfree) hv hdesc hdevi (hsame dir List.mem_cons_self) hw

/-! ### Its first block -/

theorem Fresh.index {d' : Place} {z : Nat} (h : Fresh s sb m d d' dir i L u v) (hz : z < 9) :
    v.index (d'.add 14) z = 0 := by
  have h0 := h.zones (2 * z) (by omega)
  have h1 := h.zones (2 * z + 1) (by omega)
  rw [Kernel.index, u16At, h0, h1]
  rfl

/-- A file without zones has no blocks. -/
theorem Fresh.tree {d' : Place} (h : Fresh s sb m d d' dir i L u v) : BlockTree v sb d' := by
  have hzero : ∀ z js, Position z js → blockAt v d' z js = 0 := by
    intro z js hp
    rw [blockAt]
    cases js with
    | nil =>
        rw [through, h.index hp.zone]
        rfl
    | cons j js => rw [through, if_pos (h.index hp.zone)]
  exact ⟨fun z js hp hne => absurd (hzero z js hp) hne,
    fun z js z' js' hp _ hne _ => absurd (hzero z js hp) hne⟩

/-- `bmap` takes a free zone for the first block of the new inode. -/
theorem Fresh.bmap {d' : Place} (h : Fresh s sb m d d' dir i L u v)
    (hm : OnVolume s d.dev sb) : From never v (bmap i 0 true) fun r w =>
      ZoneFree (vol v sb d.dev) r ∧ Marks d.dev sb v w ∧
        Within d.dev (fun b o => IsZmap sb b ∨ At (d'.add 14) 2 b o) v w := by
  have hdev : d'.dev = d.dev := h.other.device
  have hslot : From never v (slot (d'.add 14).dev true (d'.add 14) 0) _ := slot_create (n := 0)
    (show OnVolume v d'.dev sb from hdev ▸ over_volume h.tables hm)
    (show Reserved (vol v sb d'.dev) from hdev ▸ h.reserved)
    (show Spare (vol v sb d'.dev) 1 from hdev ▸ h.spare)
  refine past_assert (by decide) (From.get ?_)
  rw [h.device, show v.zone i = d'.add 14 by rw [Kernel.zone, h.desc]]
  refine From.ite (fun _ => ?_) fun hno => absurd (by decide) hno
  rw [← hdev]
  refine From.post hslot ?_
  rintro r w (⟨hne, -, -⟩ | ⟨-, ⟨hr, -⟩, rfl⟩)
  · exact absurd (h.index (by omega)) hne
  · have hplace : SlotOf v d' 0 [] (d'.add 14) 0 := Or.inl ⟨rfl, rfl, rfl⟩
    have hpos : Position 0 [] := ⟨by omega, Nat.zero_le _, fun j hj => absurd hj List.not_mem_nil⟩
    exact ⟨hr, (marks_filled h.tree.index h.other.toDescPlace hplace hpos hr).1,
      within_filled hplace hr⟩

/-- The block is filled in. -/
theorem Fresh.filled {d' : Place} {r : Nat} (h : Fresh s sb m d d' dir i L u v)
    (hr : ZoneFree (vol v sb d.dev) r) (hm : Marks d.dev sb v w)
    (hw : Within d.dev (fun b o => IsZmap sb b ∨ At (d'.add 14) 2 b o) v w)
    (ht : Within d.dev (fun b _ => b = r) w t) : Over s (i :: dir :: L) t ∧ Tail sb d u t := by
  refine ⟨(h.tables.within hw).within ht, h.tail.trans ⟨?_, hm.trans ?_⟩⟩
  · refine (hw.toDiffers.mono fun b o hb => ?_).trans (ht.toDiffers.mono fun b o hb => ?_)
    · rcases hb with hz | ⟨hb, hlo, hhi⟩
      · exact Or.inr (Or.inl hz)
      · refine Or.inl (Or.inr (Or.inl ⟨d', h.other.toDescPlace, h.other.apart, hb, ?_, ?_⟩))
        · exact (Nat.le_add_right ..).trans hlo
        · change o < d'.off + 14 + 2 at hhi
          omega
    · exact Or.inr (Or.inr (hb ▸ hr))
  · exact (ht.marks fun b o hb => hb ▸ dataZone_not_zmap hr.1).1

/-! ### Truncated while empty -/

theorem putU16_zero {b : Bytes} {k : Nat} (h0 : b k = 0) (h1 : b (k + 1) = 0) :
    putU16 b k 0 = b := by
  funext o
  by_cases ho1 : o = k + 1
  · rw [ho1, h1]
    exact if_pos rfl
  · by_cases ho : o = k
    · rw [ho, h0]
      exact (if_neg (Nat.ne_of_lt k.lt_succ_self)).trans (if_pos rfl)
    · exact putU16_other ho ho1

/-- A zone that is 0 is set to 0. -/
theorem Fresh.setIndex {d' : Place} {z : Nat} (h : Fresh s sb m d d' dir i L u v) (hz : z < 9) :
    v.setIndex (d'.add 14) z 0 = v := by
  have h0 := h.zones (2 * z) (by omega)
  have h1 := h.zones (2 * z + 1) (by omega)
  have hsame := putU16_zero (b := v.disk d'.dev d'.block) (k := d'.off + 14 + 2 * z) h0 h1
  show v.setBlock d'.dev d'.block (putU16 (v.disk d'.dev d'.block) (d'.off + 14 + 2 * z) 0) = v
  rw [hsame, Kernel.setBlock, Function.update_eq_self, Function.update_eq_self]

theorem Fresh.releaseZone {d' : Place} {dev : Dev} {level z : Nat}
    (h : Fresh s sb m d d' dir i L u v) (hz : z < 9) :
    From never v (releaseZone dev (d'.add 14) level z) fun _ w => w = v := by
  have hfree : From never v (inodeBfree dev level (d'.add 14) z) fun _ w => w = v := by
    cases level with
    | zero => exact From.get (From.ite (fun _ => From.pure rfl) fun hne => absurd (h.index hz) hne)
    | succ level => exact From.get (From.ite (fun _ => From.pure rfl) fun hne => absurd (h.index hz) hne)
  refine From.bind hfree ?_
  rintro _ v rfl
  exact From.store (h.setIndex hz)

/-- `inode_truncate` of the new inode writes the size and the time. -/
theorem Fresh.truncate {d' : Place} (hd : DescPlace sb d) (h : Fresh s sb m d d' dir i L u v) :
    From never v (inodeTruncate i) fun _ w => Fresh s sb m d d' dir i L u w := by
  refine From.get (From.ite (fun _ => From.pure h) fun _ => ?_)
  rw [show v.zone i = d'.add 14 by rw [Kernel.zone, h.desc]]
  refine From.bind (Q := fun _ w => w = v) ?_ ?_
  · refine (Triple.loop (I := fun _ w => w = v) 0 DIRECT_BLOCK fun z _ hz => ?_).start rfl
    refine Triple.intro fun w hw => ?_
    subst hw
    exact h.releaseZone (hz.trans (by decide))
  rintro _ v rfl
  refine From.bind (h.releaseZone (by decide)) ?_
  rintro _ v rfl
  refine From.bind (h.releaseZone (by decide)) ?_
  rintro _ v rfl
  have h1 := h.head hd (within_setSize h.desc 0) (by omega)
  exact From.set (From.store (h1.head hd (within_setMtime h1.desc (v.setSize i 0).time) (by omega)))

end NeonixCreations
