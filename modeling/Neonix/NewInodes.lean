import Neonix.BlindCalls

/-! # A new inode behind a new entry

    After `add_entry` a call marks an inode in the inode bitmap, stores its number
    in the entry and fills in its descriptor.  None of this is a byte of the
    directory but the number: the descriptors do not overlap, and blocks the call
    takes were free (`Tail`). -/

namespace NeonixNewInodes

open NeonixMachine NeonixOutcome NeonixByteBits NeonixWords NeonixVolume NeonixAllocators NeonixCalls
  NeonixFileSystem NeonixNamei NeonixFrames NeonixDirectories NeonixResolver NeonixWalks
  NeonixBlockTrees NeonixNewEntries NeonixBlindCalls

variable {s t u v : Kernel} {sb : SuperDesc} {d p : Place} {dev : Dev} {e n nr : Nat} {name : Str}
  {L : List Nat} {b o : Nat}

/-! ## `ialloc` -/

/-- What `ialloc` returned: an inode that was free, marked now. -/
theorem ialloc_returns {v v' : Volume} {r : Option Nat} (hx : NeonixVolume.ialloc v = .ok (r, v')) :
    ∃ n, r = some n ∧ n < v.desc.inodes ∧ InInodeMap v.desc n ∧ inodeBit v n = false ∧
      v' = putInode v n true := by
  classical
  have hB : BLOCK_BITS = 8192 := rfl
  by_cases hblk : 0 < v.desc.imap_blocks
  · by_cases hclear : ∃ n, n < BLOCK_BITS ∧ inodeBit v n = false
    · -- the first clear bit of the first block
      obtain ⟨hn, hfree⟩ := Nat.find_spec hclear
      have hset : ∀ k, k < Nat.find hclear → inodeBit v k = true := by
        intro k hk
        by_contra hno
        exact Nat.find_min hclear hk ⟨hk.trans hn, by simpa using hno⟩
      generalize Nat.find hclear = n at *
      have hhere := mapAlloc_here (v := v) (m := imaps v.desc) (i := 0) (k := n)
        (IMAP_NR - 1) (by show BLOCK_SIZE ≤ BLOCK_BITS; decide) hblk hn
        (by rw [Nat.zero_mul, Nat.zero_add]; exact hfree)
        (fun k hk => by rw [Nat.zero_mul, Nat.zero_add]; exact hset k hk)
      have hoff : n + (imaps v.desc).offset 0 = n := by
        show n + 0 * BLOCK_BITS = n
        omega
      rw [hoff, Nat.zero_mul, Nat.zero_add] at hhere
      change NeonixVolume.ialloc v = _ at hhere
      rw [hhere] at hx
      obtain ⟨_, hlimit, hx⟩ := bind_eq_ok hx
      obtain ⟨rfl, rfl⟩ := Prod.mk.inj (Except.ok.inj hx)
      refine ⟨n, rfl, of_check hlimit, ?_, hfree, rfl⟩
      show n < BLOCK_BITS * v.desc.imap_blocks
      rw [hB] at hn ⊢
      omega
    · rw [ialloc_past hblk fun n hn => by
        by_contra hno
        exact hclear ⟨n, hn, by simpa using hno⟩] at hx
      cases hx
  · have hnull : NeonixVolume.ialloc v = .error .assertion :=
      mapAlloc_null (m := imaps v.desc) (i := 0) hblk
    rw [hnull] at hx
    cases hx

theorem ialloc_from (hm : OnVolume s dev sb) :
    From never s (ialloc dev) fun n t => n < sb.inodes ∧ InInodeMap sb n ∧
      inodeBit (vol s sb dev) n = false ∧ Within dev (fun b _ => b < 2 + sb.imap_blocks) s t := by
  refine From.bind (onVolume_from hm) ?_
  rintro r t ⟨v, hv, rfl⟩
  obtain ⟨n, rfl, hn, hin, hfree, rfl⟩ := ialloc_returns hv
  refine From.pure ⟨hn, hin, hfree, ⟨⟨fun e he => Function.update_of_ne he .., fun b o hno => ?_⟩, rfl⟩⟩
  have hB : BLOCK_BITS = 8192 := rfl
  have hlt : n < 8192 * sb.imap_blocks := hin
  show Function.update s.disk dev (putInode (vol s sb dev) n true).disk dev b o = _
  rw [Function.update_self]
  show Function.update (s.disk dev) (2 + n / BLOCK_BITS) _ b o = _
  rw [Function.update_of_ne]
  rintro rfl
  rw [hB] at hno
  exact hno (by omega)

/-- Bits of the inode bitmap whose blocks are the same. -/
theorem inodeBit_congr (h : ∀ b o, b < 2 + sb.imap_blocks → t.disk dev b o = s.disk dev b o)
    (hn : InInodeMap sb n) : inodeBit (vol t sb dev) n = inodeBit (vol s sb dev) n := by
  have hB : BLOCK_BITS = 8192 := rfl
  have hlt : n < 8192 * sb.imap_blocks := hn
  show bitAt (t.disk dev (2 + n / BLOCK_BITS)) _ = bitAt (s.disk dev (2 + n / BLOCK_BITS)) _
  refine congrArg (bitAt · _) (funext fun o => h _ o ?_)
  rw [hB]
  omega

/-! ## Descriptors -/

theorem inodeDesc_eq (hn : IsInode sb n) : inodeDesc sb dev n =
    { dev := dev, block := 2 + sb.imap_blocks + sb.zmap_blocks + (n - 1) / 32, off := 32 * ((n - 1) % 32) } := by
  have h1 := hn.1
  have h2 := hn.2
  have h3 := sb.inodes_le
  have hwrap : (n + (2 ^ 32 - 1)) % 2 ^ 32 = n - 1 := by omega
  rw [inodeDesc, inodeBlock, hwrap]
  rfl

theorem inodeDesc_dev (sb : SuperDesc) (dev : Dev) (n : Nat) : (inodeDesc sb dev n).dev = dev := rfl

theorem descPlace_inode (hn : IsInode sb n) : DescPlace sb (inodeDesc sb dev n) := by
  have h1 := hn.1
  have h2 := hn.2
  have hlayout := sb.layout
  rw [show BLOCK_INODES = 32 from rfl] at hlayout
  rw [inodeDesc_eq hn]
  refine ⟨Nat.le_add_right .., ?_, _, rfl⟩
  show 2 + sb.imap_blocks + sb.zmap_blocks + (n - 1) / 32 < sb.firstdatazone
  omega

theorem inodeDesc_ne {m : Nat} (hn : IsInode sb n) (hm : IsInode sb m) (hne : n ≠ m) :
    (inodeDesc sb dev n).block ≠ (inodeDesc sb dev m).block ∨
      (inodeDesc sb dev n).off ≠ (inodeDesc sb dev m).off := by
  have h1 := hn.1
  have h2 := hm.1
  rw [inodeDesc_eq hn, inodeDesc_eq hm]
  dsimp only
  omega

/-! ## The rest of a call -/

/-- Bytes outside the directory: the inode bitmap, other descriptors, and of the
    descriptor of the directory the time, the group and the links. -/
def Elsewhere (sb : SuperDesc) (d : Place) (b o : Nat) : Prop :=
  b < 2 + sb.imap_blocks ∨
    (∃ d', DescPlace sb d' ∧ (d'.block ≠ d.block ∨ d'.off ≠ d.off) ∧ At d' 32 b o) ∨
    At (d.add 8) 6 b o

/-- After `u` only such bytes were written, and blocks that were free. -/
structure Tail (sb : SuperDesc) (d : Place) (u v : Kernel) : Prop where
  differs : Differs d.dev (fun b o => Elsewhere sb d b o ∨ IsZmap sb b ∨ ZoneFree (vol u sb d.dev) b) u v
  marks : Marks d.dev sb u v

theorem Tail.trans (h : Tail sb d u v) (h' : Tail sb d v t) : Tail sb d u t where
  differs := h.differs.trans <| h'.differs.mono fun _ _ hb =>
    hb.imp id fun hz => hz.imp id (h.marks.free _)
  marks := h.marks.trans h'.marks

theorem Tail.of_disk (h : v.disk = u.disk) : Tail sb d u v where
  differs := .of_disk h
  marks := ((Differs.of_disk (W := fun _ _ => False) h).marks fun _ _ hb => hb.elim).1

theorem Elsewhere.not_zmap (hd : DescPlace sb d) (h : Elsewhere sb d b o) : ¬ IsZmap sb b := by
  rcases h with hb | ⟨d', hd', -, rfl, -⟩ | ⟨rfl, -⟩
  · exact fun hz => absurd hz.1 (Nat.not_le.mpr hb)
  · exact hd'.not_zmap
  · exact hd.not_zmap

theorem Elsewhere.not_data (hd : DescPlace sb d) (h : Elsewhere sb d b o) : ¬ IsDataZone sb b := by
  have hlayout := Nat.le_of_add_right_le sb.layout
  rcases h with hb | ⟨d', hd', -, rfl, -⟩ | ⟨rfl, -⟩
  · intro hz
    have h1 := hz.1
    omega
  · exact fun hz => dataZone_ne_desc hz hd' rfl
  · exact fun hz => dataZone_ne_desc hz hd rfl

theorem Tail.elsewhere (hd : DescPlace sb d) (h : Differs d.dev (Elsewhere sb d) u v) :
    Tail sb d u v where
  differs := h.mono fun _ _ hb => Or.inl hb
  marks := (h.marks fun _ _ hb => hb.not_zmap hd).1

/-- A descriptor of the volume but that of the directory. -/
structure OtherDesc (sb : SuperDesc) (d d' : Place) : Prop extends DescPlace sb d' where
  device : d'.dev = d.dev
  apart : d'.block ≠ d.block ∨ d'.off ≠ d.off

/-- Stores to another descriptor. -/
theorem Tail.desc {d' : Place} {k n : Nat} (hd : DescPlace sb d) (hd' : OtherDesc sb d d')
    (hk : k + n ≤ 32) (h : Within d'.dev (At (d'.add k) n) u v) : Tail sb d u v := by
  refine .elsewhere hd ?_
  have hw := h.toDiffers
  rw [hd'.device] at hw
  refine hw.mono fun b o ⟨hb, hlo, hhi⟩ =>
    Or.inr (Or.inl ⟨d', hd'.toDescPlace, hd'.apart, hb, ?_, ?_⟩)
  · exact (Nat.le_add_right ..).trans hlo
  · change o < d'.off + k + n at hhi
    omega

/-- A byte of a directory is in a block in use, or in the first or the last bytes
    of its descriptor. -/
theorem dirBytes_cases (hB : BlockTree u sb d) (h : DirBytes u d b o) :
    ZoneUsed (vol u sb d.dev) b ∨
      b = d.block ∧ (d.off ≤ o ∧ o < d.off + 8 ∨ d.off + 14 ≤ o ∧ o < d.off + 32) := by
  rcases h with ⟨hb, hlo, hhi⟩ | (⟨hb, hlo, hhi⟩ | ⟨z, js, hp, -, hne, rfl⟩) | ⟨n, hn, hne, rfl⟩
  · exact Or.inr ⟨hb, Or.inl ⟨hlo, hhi⟩⟩
  · refine Or.inr ⟨hb, Or.inr ⟨hlo, ?_⟩⟩
    change o < d.off + 14 + 18 at hhi
    omega
  · exact Or.inl (hB.used z js hp hne)
  · rw [blockOf_eq] at hne ⊢
    exact Or.inl (hB.used _ _ (position_of hn) hne)

theorem Elsewhere.not_dir (hd : DescPlace sb d) (hB : BlockTree u sb d) (h : Elsewhere sb d b o) :
    ¬ DirBytes u d b o := by
  intro hdir
  rcases dirBytes_cases hB hdir with hused | ⟨rfl, hbytes⟩
  · exact h.not_data hd hused.1
  obtain ⟨r, hr⟩ := hd.slot
  rcases h with hb | ⟨d', hd', hne, hb', hlo, hhi⟩ | ⟨-, hlo, hhi⟩
  · have hlow := hd.low
    omega
  · obtain ⟨r', hr'⟩ := hd'.slot
    have hoff := hne.resolve_left fun hb => hb hb'.symm
    omega
  · change d.off + 8 ≤ o at hlo
    change o < d.off + 8 + 6 at hhi
    omega

/-- The rest of a call leaves the new entry and its number. -/
theorem inserted_tail (h : Inserted s sb d name e u) (hok : DirOk s sb d) (ht : Tail sb d u v) :
    Inserted s sb d name e v ∧ entryPlace v d e = entryPlace u d e ∧
      v.entryNr (entryPlace u d e) = u.entryNr (entryPlace u d e) := by
  have hd := hok.place
  have hused := entry_used h.tree h.inFile h.mapped
  obtain ⟨hv, hplace⟩ := h.away hok ht.differs ht.marks fun b o hb => Or.inr fun hdir => by
    rcases hb with hb | hz | hf
    · exact hb.not_dir hd h.tree hdir
    · rcases dirBytes_cases h.tree hdir with hu | ⟨rfl, -⟩
      · exact dataZone_not_zmap hu.1 hz
      · exact hd.not_zmap hz
    · rcases dirBytes_cases h.tree hdir with hu | ⟨rfl, -⟩
      · exact not_used_of_free hf hu
      · exact dataZone_ne_desc hf.1 hd rfl
  refine ⟨hv, hplace, entryNr_same (p := entryPlace u d e) ht.differs fun k _ hb => ?_⟩
  rcases hb with hb | hz | hf
  · exact hb.not_data hd hused.1
  · exact dataZone_not_zmap hused.1 hz
  · exact not_used_of_free hf hused

/-- The number of the new entry is stored. -/
theorem inserted_numbered (h : Inserted s sb d name e u) (hok : DirOk s sb d) (hnr : nr < 2 ^ 16) :
    Inserted s sb d name e (u.setEntryNr (entryPlace u d e) nr) ∧
      entryPlace (u.setEntryNr (entryPlace u d e) nr) d e = entryPlace u d e ∧
      (u.setEntryNr (entryPlace u d e) nr).entryNr (entryPlace u d e) = nr := by
  have hused := entry_used h.tree h.inFile h.mapped
  have hw := within_putU16 (s := u) (entryPlace u d e) (BitVec.ofNat 16 nr)
  have hm : Marks d.dev sb u _ := (hw.marks fun b o hb => hb.1 ▸ dataZone_not_zmap hused.1).1
  obtain ⟨hv, hplace⟩ := h.away hok hw.toDiffers hm fun b o hb => Or.inl hb
  exact ⟨hv, hplace, entryNr_setEntryNr u _ hnr⟩

/-! ## `new_inode` -/

/-- A store to a field within the first bytes of a descriptor. -/
theorem within_field {k w : Nat} (h : Within d.dev (At (d.add k) w) u v) (hk : k + w ≤ n) :
    Within d.dev (At d n) u v := by
  refine h.mono fun b o ⟨hb, hlo, hhi⟩ => ⟨hb, (Nat.le_add_right ..).trans hlo, ?_⟩
  change o < d.off + k + w at hhi
  omega

section Fields

variable {i : Nat} (hdesc : u.desc i = d)
include hdesc

theorem within_setMode (x : BitVec 16) : Within d.dev (At (d.add 0) 2) u (u.setMode i x) :=
  hdesc ▸ within_putU16 (u.desc i) x

theorem within_setUid (x : BitVec 16) : Within d.dev (At (d.add 2) 2) u (u.setUid i x) :=
  hdesc ▸ within_putU16 ((u.desc i).add 2) x

theorem within_setSize (x : Nat) : Within d.dev (At (d.add 4) 4) u (u.setSize i x) :=
  hdesc ▸ within_putU32 ((u.desc i).add 4) (BitVec.ofNat 32 x)

theorem within_setMtime (x : BitVec 32) : Within d.dev (At (d.add 8) 4) u (u.setMtime i x) :=
  hdesc ▸ within_putU32 ((u.desc i).add 8) x

theorem within_setGid (x : Byte) : Within d.dev (At (d.add 12) 1) u (u.setGid i x) :=
  hdesc ▸ within_putU8 ((u.desc i).add 12) x

theorem within_setNlinks (x : Byte) : Within d.dev (At (d.add 13) 1) u (u.setNlinks i x) :=
  hdesc ▸ within_putU8 ((u.desc i).add 13) x

/-- All the stores of `new_inode`. -/
theorem within_owned (mode uid : BitVec 16) (gid : Byte) (time : BitVec 32) :
    Within d.dev (At d 14) u ((((((u.setMode i mode).setUid i uid).setSize i 0).setMtime i
      time).setGid i gid).setNlinks i 1) := by
  have hmode := within_field (n := 14) (within_setMode hdesc mode) (by omega)
  have huid := within_field (n := 14) (within_setUid (u := u.setMode i mode) hdesc uid) (by omega)
  have hsize := within_field (n := 14)
    (within_setSize (u := (u.setMode i mode).setUid i uid) hdesc 0) (by omega)
  have hmtime := within_field (n := 14)
    (within_setMtime (u := ((u.setMode i mode).setUid i uid).setSize i 0) hdesc time) (by omega)
  have hgid := within_field (n := 14) (within_setGid
    (u := (((u.setMode i mode).setUid i uid).setSize i 0).setMtime i time) hdesc gid) (by omega)
  have hlinks := within_field (n := 14) (within_setNlinks
    (u := ((((u.setMode i mode).setUid i uid).setSize i 0).setMtime i time).setGid i gid) hdesc 1)
    (by omega)
  exact hmode.trans (huid.trans (hsize.trans (hmtime.trans (hgid.trans hlinks))))

end Fields

/-- `new_inode` writes the first bytes of a descriptor. -/
theorem newInode_from {k : Nat} (hs : Tree s) (h : Over s L u) (hk : getSuper s dev = some k)
    (hsb : (s.super_table k).desc = sb) (hnr : IsInode sb nr) (hdev : dev ≠ EOF)
    (hmount : mounted s { dev := dev, nr := nr } = { dev := dev, nr := nr }) :
    From never u (newInode dev nr) fun i v => Over s (i :: L) v ∧
      v.desc i = inodeDesc sb dev nr ∧ (v.inode_table i).dev = dev ∧
      (∀ j ∈ L, SameSlot u v j) ∧ Differs dev (At (inodeDesc sb dev nr) 14) u v := by
  have htask : From never u runningTask fun _ v => v = u :=
    (keeps_runningTask (P := fun v => v = u)).start rfl
  refine From.bind htask ?_
  rintro task u rfl
  refine From.bind (iget_over (n := { dev := dev, nr := nr }) hs h (mayStop_never s L.length) Nat.le.refl
    hk ⟨hnr.1, hsb ▸ hnr.2⟩ hdev) ?_
  rintro i v ⟨hdisk, hv, hnode, hsame⟩
  rw [hmount] at hnode
  have hdesc : v.desc i = inodeDesc sb dev nr := by
    have hi := hv.desc (i := i) List.mem_cons_self
    rw [hnode, descOf, hk, Option.map_some, hsb] at hi
    exact (Option.some.inj hi).symm
  have hstores := within_owned (u := v) hdesc (0o777 &&& ~~~ task.umask) (BitVec.ofNat 16 task.uid)
    (BitVec.ofNat 8 task.gid) v.time
  refine From.post (Q := fun r w => r = i ∧ Within dev (At (inodeDesc sb dev nr) 14) v w) ?_ ?_
  · exact From.set (From.set (From.set (From.set (From.set (From.set (From.pure ⟨rfl, hstores⟩))))))
  rintro _ w ⟨rfl, hw⟩
  refine ⟨hv.within hw, ?_, ?_, fun j hj => ?_, (Differs.of_disk hdisk).trans hw.toDiffers⟩
  · rw [hw.tables]
    exact hdesc
  · rw [hw.tables]
    exact congrArg Node.dev hnode
  · rw [hw.tables]
    exact hsame j hj

end NeonixNewInodes
