import Neonix.BlockTrees

/-! # A new entry of a directory

    `add_entry` puts a name into the first free entry of a directory, or behind
    the last one: then the directory grows by an entry, and by a block where the
    last one is full.  The name is stored cut to 13 bytes.  `Inserted` says how
    the directory looks afterwards; stores elsewhere keep it so. -/

namespace NeonixNewEntries

open NeonixMachine NeonixOutcome NeonixByteBits NeonixWords NeonixVolume NeonixAllocators NeonixCalls
  NeonixFileSystem NeonixNamei NeonixFrames NeonixComponents NeonixDirectories NeonixBlockTrees

variable {s t u v : Kernel} {sb : SuperDesc} {d p : Place} {z e n : Nat} {js : List Nat}
    {name : Str}

/-! ## The stored name -/

/-- A string of nonzero bytes and the zero behind it. -/
theorem stringAt_of_bytes {b : Bytes} {l : Str} (hl : l.length < n)
    (hget : ∀ k, k < l.length → b k = l.getD k 0) (hzero : b l.length = 0) (hne : ∀ c ∈ l, c ≠ 0) :
    stringAt b n = l := by
  induction l generalizing b n with
  | nil =>
      obtain ⟨n, rfl⟩ := Nat.exists_eq_add_one_of_ne_zero (Nat.ne_of_gt hl)
      rw [stringAt]
      exact if_pos hzero
  | cons c l ih =>
      obtain ⟨n, rfl⟩ := Nat.exists_eq_add_one_of_ne_zero (Nat.ne_of_gt ((Nat.zero_le _).trans_lt hl))
      have h0 : b 0 = c := hget 0 (Nat.succ_pos _)
      rw [stringAt, h0, if_neg (hne c List.mem_cons_self)]
      congr 1
      refine ih (Nat.lt_of_succ_lt_succ hl) (fun k hk => ?_) hzero fun c' hc' =>
        hne c' (List.mem_cons_of_mem _ hc')
      exact hget (k + 1) (Nat.succ_lt_succ hk)

/-- The bytes of the stored name: the first 13, and a zero. -/
theorem strncpy_stored (dest : Bytes) (name : Str) :
    (∀ k, k < (name.take 13).length → strncpy dest name NAME_LEN k = (name.take 13).getD k 0) ∧
      strncpy dest name NAME_LEN (name.take 13).length = 0 := by
  have h14 : NAME_LEN = 14 := rfl
  rw [List.length_take, h14]
  constructor
  · intro k hk
    rw [strncpy, if_pos ⟨by omega, by omega⟩, if_neg (by omega), List.getD_eq_getElem?_getD,
      List.getD_eq_getElem?_getD, List.getElem?_take_of_lt (by omega)]
  · rw [strncpy]
    split_ifs with h1 h2 h3
    · rfl
    · omega
    · rfl
    · omega

theorem stored_name (hname : ∀ c ∈ name, c ≠ 0) (dest : Bytes) :
    stringAt (strncpy dest name NAME_LEN) NAME_LEN = name.take 13 := by
  obtain ⟨hget, hzero⟩ := strncpy_stored dest name
  have hlen : (name.take 13).length < NAME_LEN := by
    rw [List.length_take]
    exact (Nat.min_le_left ..).trans_lt (by decide)
  exact stringAt_of_bytes hlen hget hzero fun c hc => hname c (List.mem_of_mem_take hc)

theorem stored_ends (dest : Bytes) (name : Str) :
    Terminated (strncpy dest name NAME_LEN) NAME_LEN := by
  refine ⟨(name.take 13).length, ?_, (strncpy_stored dest name).2⟩
  rw [List.length_take]
  exact (Nat.min_le_left ..).trans_lt (by decide)

/-- The string depends on its bytes. -/
theorem stringAt_congr {b b' : Bytes} (h : ∀ k < n, b' k = b k) : stringAt b' n = stringAt b n := by
  induction n generalizing b b' with
  | zero => rfl
  | succ n ih =>
      rw [stringAt, stringAt, h 0 n.succ_pos]
      by_cases h0 : b 0 = 0
      · rw [if_pos h0, if_pos h0]
      · rw [if_neg h0, if_neg h0, ih fun k hk => h (k + 1) (Nat.succ_lt_succ hk)]

theorem terminated_congr {b b' : Bytes} (h : ∀ k < n, b' k = b k) (ht : Terminated b n) :
    Terminated b' n := by
  obtain ⟨k, hk, hz⟩ := ht
  exact ⟨k, hk, (h k hk).trans hz⟩

/-! ## What a directory looks like -/

/-- A directory in order, on a mounted volume. -/
structure DirOk (s : Kernel) (sb : SuperDesc) (d : Place) : Prop where
  place : DescPlace sb d
  volume : OnVolume s d.dev sb
  reserved : Reserved (vol s sb d.dev)
  tree : BlockTree s sb d
  isDir : ISDIR (u16At (s.bytes d) 0)
  whole : (u32At (s.bytes d) 4).toNat % 16 = 0
  entries : DirectoryOk s d sb.inodes
  unique : ∀ m n, m < entriesOf s d → n < entriesOf s d → Live s (entryPlace s d m) →
    Live s (entryPlace s d n) → nameOf s (entryPlace s d m) = nameOf s (entryPlace s d n) → m = n

/-- The bytes the blocks of a file hang on: the zones and the index blocks. -/
def WayBytes (s : Kernel) (d : Place) (b o : Nat) : Prop := At (d.add 14) 18 b o ∨ IsIndex s d b

theorem blockAt_same (h : ∀ b o, WayBytes s d b o → t.disk d.dev b o = s.disk d.dev b o)
    (hp : Position z js) : blockAt t d z js = blockAt s d z js := by
  induction js using List.reverseRecOn with
  | nil =>
      have hz := hp.zone
      refine congrArg BitVec.toNat (index_congr fun k hk => h _ _ (Or.inl ⟨rfl, ?_, ?_⟩))
      · exact Nat.le_add_right ..
      · show d.off + 14 + (2 * z + k) < d.off + 14 + 18
        omega
  | append_singleton l j ih =>
      have hdepth := hp.depth
      rw [List.length_append, List.length_singleton] at hdepth
      rw [blockAt_append, blockAt_append, ih hp.init]
      by_cases h0 : blockAt s d z l = 0
      · rw [if_pos h0, if_pos h0]
      · rw [if_neg h0, if_neg h0]
        refine congrArg BitVec.toNat (index_congr fun k _ => h _ _ (Or.inr ?_))
        exact ⟨z, l, hp.init, by omega, h0, rfl⟩

theorem blockOf_same (h : ∀ b o, WayBytes s d b o → t.disk d.dev b o = s.disk d.dev b o)
    (hn : n < TOTAL_BLOCK) : blockOf t d n = blockOf s d n := by
  rw [blockOf_eq, blockOf_eq, blockAt_same h (position_of hn)]

/-- Where entry `n` is, in terms of the block of its part. -/
theorem entryPlace_same (h : blockOf t d (n / BLOCK_DENTRIES) = blockOf s d (n / BLOCK_DENTRIES)) :
    entryPlace t d n = entryPlace s d n := by
  rw [entryPlace, entryPlace, h]

/-- The block of an entry is a block of data in use. -/
theorem entry_used (hB : BlockTree s sb d) (hn : n / BLOCK_DENTRIES < TOTAL_BLOCK)
    (hb : blockOf s d (n / BLOCK_DENTRIES) ≠ 0) :
    ZoneUsed (vol s sb d.dev) (entryPlace s d n).block := by
  rw [blockOf_eq] at hb
  have hu := hB.used _ _ (position_of hn) hb
  rw [← blockOf_eq] at hu
  exact hu

/-- No index block and no zone slot is in the block of an entry. -/
theorem entry_not_way (hB : BlockTree s sb d) (hd : DescPlace sb d)
    (hn : n / BLOCK_DENTRIES < TOTAL_BLOCK) (hb : blockOf s d (n / BLOCK_DENTRIES) ≠ 0) (o : Nat) :
    ¬ WayBytes s d (entryPlace s d n).block o := by
  rintro (⟨hblock, -⟩ | ⟨z', js', hp, hlen, -, heq⟩)
  · exact dataZone_ne_desc (entry_used hB hn hb).1 hd hblock
  · change blockAt s d z' js' = blockOf s d (n / BLOCK_DENTRIES) at heq
    rw [blockOf_eq] at heq hb
    obtain ⟨rfl, rfl⟩ := hB.once _ _ _ _ (position_of hn) hp hb heq.symm
    have hleaf := leaf_of (n / BLOCK_DENTRIES)
    omega

/-- Different entries do not overlap. -/
theorem entry_apart {m : Nat} (hB : BlockTree s sb d) (hm : m / BLOCK_DENTRIES < TOTAL_BLOCK)
    (hn : n / BLOCK_DENTRIES < TOTAL_BLOCK) (hb : blockOf s d (n / BLOCK_DENTRIES) ≠ 0)
    (hne : n ≠ m)
    {k : Nat} (hk : k < 16) :
    ¬ At (entryPlace s d m) 16 (entryPlace s d n).block ((entryPlace s d n).off + k) := by
  rintro ⟨hblock, hlo, hhi⟩
  change blockOf s d (n / BLOCK_DENTRIES) = blockOf s d (m / BLOCK_DENTRIES) at hblock
  rw [blockOf_eq, blockOf_eq] at hblock
  rw [blockOf_eq] at hb
  obtain ⟨hz, hs⟩ := hB.once _ _ _ _ (position_of hn) (position_of hm) hb hblock
  have hpart := position_inj hz hs
  change 16 * (m % 64) ≤ 16 * (n % 64) + k at hlo
  change 16 * (n % 64) + k < 16 * (m % 64) + 16 at hhi
  change n / 64 = m / 64 at hpart
  omega

/-! ## Stores of `add_entry` -/

theorem bytes_congr {k : Nat} (h : t.disk p.dev p.block (p.off + k) = s.disk p.dev p.block (p.off + k)) :
    t.bytes p k = s.bytes p k := h

theorem bytes_add (s : Kernel) (p : Place) (i k : Nat) :
    s.bytes (p.add i) k = s.bytes p (i + k) := by
  show s.disk p.dev p.block (p.off + i + k) = s.disk p.dev p.block (p.off + (i + k))
  rw [Nat.add_assoc]

/-- Words of the same bytes. -/
theorem u16At_congr {b b' : Bytes} {j k : Nat} (h : ∀ i < 2, b' (j + i) = b (k + i)) :
    u16At b' j = u16At b k :=
  congrArg₂ (· ++ ·) (h 1 (by omega)) (h 0 (by omega))

theorem u32At_congr {b b' : Bytes} {j k : Nat} (h : ∀ i < 4, b' (j + i) = b (k + i)) :
    u32At b' j = u32At b k := by
  refine congrArg₂ (· ++ ·) (u16At_congr fun i hi => ?_) (u16At_congr fun i hi => h i (by omega))
  rw [Nat.add_assoc, Nat.add_assoc]
  exact h (2 + i) (by omega)

theorem u32At_putU32 (b : Bytes) (k : Nat) (x : BitVec 32) : u32At (putU32 b k x) k = x := by
  have hlow : u16At (putU32 b k x) k = x.setWidth 16 := by
    have hsame : ∀ i < 2, putU32 b k x (k + i) = putU16 b k (x.setWidth 16) (k + i) := fun i hi =>
      putU16_other (by omega) (by omega)
    rw [u16At_congr hsame, u16At_putU16]
  have hhigh : u16At (putU32 b k x) (k + 2) = (x >>> 16).setWidth 16 := u16At_putU16 ..
  rw [u32At, hlow, hhigh]
  refine BitVec.eq_of_getLsbD_eq fun i hi => ?_
  rw [BitVec.getLsbD_append]
  by_cases h16 : i < 16
  · simp [h16]
  · have h : 16 + (i - 16) = i := by omega
    simp [h16, h]
    omega

/-- What is behind a pointer after a store there. -/
theorem bytes_setBlock (s : Kernel) (p : Place) (data : Bytes) (k : Nat) :
    (s.setBlock p.dev p.block data).bytes p k = data (p.off + k) := by
  show Function.update s.disk p.dev (Function.update (s.disk p.dev) p.block data) p.dev p.block _ = _
  rw [Function.update_self, Function.update_self]

theorem bytes_setBytes (s : Kernel) (p : Place) (f : Bytes → Bytes) (k : Nat) :
    (s.setBytes p f).bytes p k = f (s.bytes p) k := by
  rw [Kernel.setBytes, bytes_setBlock, if_neg (by omega), Nat.add_sub_cancel_left]

theorem entryNr_setEntryNr (s : Kernel) (p : Place) {nr : Nat} (h : nr < 2 ^ 16) :
    (s.setEntryNr p nr).entryNr p = nr := by
  have hback : u16At ((s.setEntryNr p nr).bytes p) 0 = BitVec.ofNat 16 nr := by
    have hindex := index_setIndex (s := s) p 0 (BitVec.ofNat 16 nr)
    exact hindex
  rw [Kernel.entryNr, hback, BitVec.toNat_ofNat, Nat.mod_eq_of_lt h]

theorem size_setSize {dir x : Nat} (hdesc : s.desc dir = d) (h : x < 2 ^ 32) :
    (u32At ((s.setSize dir x).bytes d) 4).toNat = x := by
  have hback : u32At ((s.setSize dir x).bytes d) 4 = BitVec.ofNat 32 x := by
    rw [← u32At_putU32 (s.disk d.dev d.block) (d.off + 4) (BitVec.ofNat 32 x)]
    refine u32At_congr fun i _ => ?_
    rw [Kernel.setSize, hdesc, ← bytes_add]
    exact bytes_setBlock s (d.add 4) _ i
  rw [hback, BitVec.toNat_ofNat, Nat.mod_eq_of_lt h]

/-! ## The directory afterwards -/

/-- Entry `e` of a directory was put in: it was free or is behind the last one, and
    it has the stored name; the other entries are as they were. -/
structure Inserted (s : Kernel) (sb : SuperDesc) (d : Place) (name : Str) (e : Nat) (u : Kernel) :
    Prop where
  marks : Marks d.dev sb s u
  tree : BlockTree u sb d
  mode : u16At (u.bytes d) 0 = u16At (s.bytes d) 0
  slot : e ≤ entriesOf s d
  inFile : e / BLOCK_DENTRIES < TOTAL_BLOCK
  mapped : blockOf u d (e / BLOCK_DENTRIES) ≠ 0
  new : e < entriesOf s d → ¬ Live s (entryPlace s d e)
  size : (u32At (u.bytes d) 4).toNat = 16 * max (entriesOf s d) (e + 1)
  places : ∀ n < entriesOf s d, entryPlace u d n = entryPlace s d n
  others : ∀ n < entriesOf s d, n ≠ e → ∀ k < 16,
    u.bytes (entryPlace s d n) k = s.bytes (entryPlace s d n) k
  named : nameOf u (entryPlace u d e) = name.take 13
  ends : Terminated (u.bytes ((entryPlace u d e).add 2)) NAME_LEN

/-- The bytes a directory is made of: of the descriptor the mode, the size and the
    zones, and the blocks. -/
def DirBytes (s : Kernel) (d : Place) (b o : Nat) : Prop :=
  At d 8 b o ∨ WayBytes s d b o ∨
    ∃ n < TOTAL_BLOCK, blockOf s d n ≠ 0 ∧ b = blockOf s d n

/-- Stores elsewhere and to the number of the new entry leave its name and the other
    entries as they are. -/
theorem Inserted.away {W : Nat → Nat → Prop} (h : Inserted s sb d name e u) (hok : DirOk s sb d)
    (hw : Differs d.dev W u v) (hm : Marks d.dev sb u v)
    (hW : ∀ b o, W b o → At (entryPlace u d e) 2 b o ∨ ¬ DirBytes u d b o) :
    Inserted s sb d name e v ∧ entryPlace v d e = entryPlace u d e := by
  have hd := hok.place
  have hsame : ∀ b o, ¬ At (entryPlace u d e) 2 b o → DirBytes u d b o →
      v.disk d.dev b o = u.disk d.dev b o := fun b o hn hb =>
    hw.bytes b o fun hwb => (hW b o hwb).elim hn fun hno => hno hb
  have hblock := entry_used h.tree h.inFile h.mapped
  have hway : ∀ b o, WayBytes u d b o → v.disk d.dev b o = u.disk d.dev b o := fun b o hb =>
    hsame b o (fun hat => entry_not_way h.tree hd h.inFile h.mapped o (hat.1 ▸ hb))
      (Or.inr (Or.inl hb))
  have hhead : ∀ k < 8, v.bytes d k = u.bytes d k := fun k hk =>
    hsame _ _ (fun hat => dataZone_ne_desc hblock.1 hd hat.1.symm)
      (Or.inl ⟨rfl, Nat.le_add_right .., Nat.add_lt_add_left hk _⟩)
  have hplace : entryPlace v d e = entryPlace u d e := entryPlace_same (blockOf_same hway h.inFile)
  have hadd : ∀ k, v.bytes ((entryPlace u d e).add 2) k = u.bytes ((entryPlace u d e).add 2) k := by
    intro k
    refine hsame _ _ ?_ (Or.inr (Or.inr ⟨_, h.inFile, h.mapped, rfl⟩))
    rintro ⟨-, -, hhi⟩
    change (entryPlace u d e).off + 2 + k < (entryPlace u d e).off + 2 at hhi
    omega
  have hold : ∀ n < entriesOf s d, n / BLOCK_DENTRIES < TOTAL_BLOCK ∧
      blockOf u d (n / BLOCK_DENTRIES) ≠ 0 := by
    intro n hn
    rw [show blockOf u d (n / BLOCK_DENTRIES) = blockOf s d (n / BLOCK_DENTRIES) from
      congrArg Place.block (h.places n hn)]
    exact ⟨(hok.entries n hn).inFile, (hok.entries n hn).mapped⟩
  refine ⟨{ h with
    marks := h.marks.trans hm
    tree := h.tree.congr hm fun z js hp => blockAt_same hway hp
    mode := (u16At_congr fun i hi => hhead (0 + i) (by omega)).trans h.mode
    mapped := by
      rw [blockOf_same hway h.inFile]
      exact h.mapped
    size := by
      rw [u32At_congr fun i hi => hhead (4 + i) (by omega)]
      exact h.size
    places := fun n hn =>
      (entryPlace_same (blockOf_same hway (hold n hn).1)).trans (h.places n hn)
    others := fun n hn hne k hk => ?_
    named := ?_
    ends := ?_ }, hplace⟩
  · obtain ⟨hin, hb⟩ := hold n hn
    have happ := entry_apart h.tree h.inFile hin hb hne hk
    rw [← h.others n hn hne k hk]
    refine hsame _ _ (fun hat => ?_) (Or.inr (Or.inr ⟨_, hin, hb, ?_⟩))
    · rw [h.places n hn] at happ
      exact happ ⟨hat.1, hat.2.1, hat.2.2.trans_le (Nat.add_le_add_left (by omega) _)⟩
    · exact (congrArg Place.block (h.places n hn)).symm
  · rw [hplace, ← h.named]
    exact stringAt_congr fun k _ => hadd k
  · rw [hplace]
    exact terminated_congr (fun k _ => hadd k) h.ends

/-- The number of the entry, where it is not written. -/
theorem entryNr_same {W : Nat → Nat → Prop} (hw : Differs p.dev W u v)
    (h : ∀ k < 2, ¬ W p.block (p.off + k)) : v.entryNr p = u.entryNr p :=
  congrArg BitVec.toNat (u16At_congr fun i hi => by
    have hb := hw.bytes _ _ (h i hi)
    rw [Nat.zero_add]
    exact hb)

/-! ## The loop of `add_entry` -/

/-- What `add_entry` writes: the zone bitmap, the descriptor of the directory and
    data zones. -/
def AddBytes (sb : SuperDesc) (d : Place) (b o : Nat) : Prop :=
  IsZmap sb b ∨ At d 32 b o ∨ IsDataZone sb b

/-- There is room for entry `e`, and the directory is as it was. -/
structure Opened (s : Kernel) (sb : SuperDesc) (d : Place) (e : Nat) (t : Kernel) : Prop where
  within : Within d.dev (AddBytes sb d) s t
  marks : Marks d.dev sb s t
  tree : BlockTree t sb d
  head : ∀ k < 14, t.bytes d k = s.bytes d k
  inFile : e / BLOCK_DENTRIES < TOTAL_BLOCK
  mapped : blockOf t d (e / BLOCK_DENTRIES) ≠ 0
  places : ∀ n < entriesOf s d, entryPlace t d n = entryPlace s d n
  others : ∀ n < entriesOf s d, ∀ k, t.bytes (entryPlace s d n) k = s.bytes (entryPlace s d n) k

theorem Opened.refl (hok : DirOk s sb d) (he : e / BLOCK_DENTRIES < TOTAL_BLOCK)
    (hb : blockOf s d (e / BLOCK_DENTRIES) ≠ 0) : Opened s sb d e s :=
  ⟨.refl, .refl, hok.tree, fun _ _ => rfl, he, hb, fun _ _ => rfl, fun _ _ _ => rfl⟩

/-- A block was added. -/
theorem Opened.grown {r : Nat} (hok : DirOk s sb d) (he : e / BLOCK_DENTRIES < TOTAL_BLOCK)
    (h : Grown sb d (zoneOf (e / BLOCK_DENTRIES)) (slotsOn (e / BLOCK_DENTRIES)) r s t) :
    Opened s sb d e t := by
  have hblocks : ∀ n < entriesOf s d,
      blockOf t d (n / BLOCK_DENTRIES) = blockOf s d (n / BLOCK_DENTRIES) := by
    intro n hn
    have hb := (hok.entries n hn).mapped
    rw [blockOf_eq] at hb
    rw [blockOf_eq, blockOf_eq, h.keeps _ _ (position_of (hok.entries n hn).inFile) hb]
  constructor
  · refine h.within.mono ?_
    rintro b o (hz | hd | ⟨z, js, hp, -, hne, rfl⟩ | hf)
    · exact Or.inl hz
    · refine Or.inr (Or.inl ⟨hd.1, ?_, ?_⟩)
      · have hlo := hd.2.1
        change d.off + 14 ≤ o at hlo
        omega
      · have hhi := hd.2.2
        change o < d.off + 14 + 18 at hhi
        omega
    · exact Or.inr (Or.inr (hok.tree.used z js hp hne).1)
    · exact Or.inr (Or.inr hf.1)
  · exact h.marks
  · exact h.tree
  · intro k hk
    refine h.within.bytes _ _ ?_
    rintro (hz | ⟨-, hlo, -⟩ | ⟨z, js, hp, -, hne, heq⟩ | hf)
    · exact hok.place.not_zmap hz
    · change d.off + 14 ≤ d.off + k at hlo
      omega
    · have hu := hok.tree.used z js hp (by rw [heq]; exact hne)
      rw [heq] at hu
      exact dataZone_ne_desc hu.1 hok.place rfl
    · exact dataZone_ne_desc hf.1 hok.place rfl
  · exact he
  · rw [blockOf_eq, h.block]
    exact h.pos
  · exact fun n hn => entryPlace_same (hblocks n hn)
  · intro n hn k
    have hin := (hok.entries n hn).inFile
    have hb := (hok.entries n hn).mapped
    have hdata := h.data hok.tree hok.place (position_of hin) (leaf_of _)
      (by rw [← blockOf_eq]; exact hb)
    rw [← blockOf_eq] at hdata
    exact hdata _

/-- The stores to the entry and to the size and the time of the directory. -/
theorem Opened.insert (h : Opened s sb d e t) (hok : DirOk s sb d) (hslot : e ≤ entriesOf s d)
    (hnew : e < entriesOf s d → ¬ Live s (entryPlace s d e))
    (hw : Within d.dev (fun b o => At (entryPlace t d e) 16 b o ∨ At (d.add 4) 8 b o) t u)
    (hsize : (u32At (u.bytes d) 4).toNat = 16 * max (entriesOf s d) (e + 1))
    (hnamed : nameOf u (entryPlace t d e) = name.take 13)
    (hends : Terminated (u.bytes ((entryPlace t d e).add 2)) NAME_LEN) :
    Inserted s sb d name e u ∧ entryPlace u d e = entryPlace t d e ∧
      Within d.dev (AddBytes sb d) s u ∧ ∀ n, Spare (vol t sb d.dev) n →
      Spare (vol u sb d.dev) n := by
  have hd := hok.place
  have hblock := entry_used h.tree h.inFile h.mapped
  have hz : ∀ b o, At (entryPlace t d e) 16 b o ∨ At (d.add 4) 8 b o → ¬ IsZmap sb b := by
    rintro b o (⟨rfl, -⟩ | ⟨rfl, -⟩)
    · exact dataZone_not_zmap hblock.1
    · exact hd.not_zmap
  obtain ⟨hmarks, hspare⟩ := hw.marks hz
  have hway : ∀ b o, WayBytes t d b o → u.disk d.dev b o = t.disk d.dev b o := by
    intro b o hb
    refine hw.bytes b o ?_
    rintro (⟨rfl, -⟩ | ⟨rfl, hlo, hhi⟩)
    · exact entry_not_way h.tree hd h.inFile h.mapped o hb
    · rcases hb with ⟨-, hlo', -⟩ | ⟨z, js, hp, -, hne, heq⟩
      · change d.off + 14 ≤ o at hlo'
        change o < d.off + 4 + 8 at hhi
        omega
      · have hu := h.tree.used z js hp (by rw [heq]; exact hne)
        rw [heq] at hu
        exact dataZone_ne_desc hu.1 hd rfl
  have hplace : entryPlace u d e = entryPlace t d e := entryPlace_same (blockOf_same hway h.inFile)
  have hplaces : ∀ n < entriesOf s d, entryPlace u d n = entryPlace s d n := fun n hn =>
    (entryPlace_same (blockOf_same hway (hok.entries n hn).inFile)).trans (h.places n hn)
  refine ⟨?_, hplace, ?_, hspare⟩
  · constructor
    · exact h.marks.trans hmarks
    · exact h.tree.congr hmarks fun z js hp => blockAt_same hway hp
    · refine u16At_congr fun i hi => ?_
      rw [← h.head (0 + i) (by omega)]
      refine hw.bytes _ _ ?_
      rintro (⟨hb, -⟩ | ⟨-, hlo, -⟩)
      · exact dataZone_ne_desc hblock.1 hd hb.symm
      · change d.off + 4 ≤ d.off + (0 + i) at hlo
        omega
    · exact hslot
    · exact h.inFile
    · rw [blockOf_same hway h.inFile]
      exact h.mapped
    · exact hnew
    · exact hsize
    · exact hplaces
    · intro n hn hne k hk
      have hn' := hok.entries n hn
      have hb : blockOf t d (n / BLOCK_DENTRIES) ≠ 0 := by
        rw [show blockOf t d (n / BLOCK_DENTRIES) = blockOf s d (n / BLOCK_DENTRIES) from
          congrArg Place.block (h.places n hn)]
        exact hn'.mapped
      rw [← h.others n hn k]
      have happ : ¬ At (entryPlace t d e) 16 (entryPlace t d n).block ((entryPlace t d n).off + k) :=
        entry_apart h.tree h.inFile hn'.inFile hb hne hk
      rw [h.places n hn] at happ
      refine hw.bytes _ _ ?_
      rintro (hent | ⟨hblk, -⟩)
      · exact happ hent
      · exact dataZone_ne_desc (entry_used hok.tree hn'.inFile hn'.mapped).1 hd hblk
    · rw [hplace]
      exact hnamed
    · rw [hplace]
      exact hends
  · refine h.within.trans (hw.mono ?_)
    rintro b o (⟨rfl, -⟩ | ⟨hb, hlo, hhi⟩)
    · exact Or.inr (Or.inr hblock.1)
    · change d.off + 4 ≤ o at hlo
      change o < d.off + 4 + 8 at hhi
      exact Or.inr (Or.inl ⟨hb, by omega, by omega⟩)

/-- `strncpy(entry->name, name, NAME_LEN)` and `dir->desc->mtime = time()`. -/
def storeName (s : Kernel) (entry : Place) (dir : Nat) (name : Str) : Kernel :=
  (s.setBytes (entry.add 2) fun old => strncpy old name NAME_LEN).setMtime dir s.time

/-- A new entry behind the last one: `entry->nr = 0` and the size. -/
def appendEntry (s : Kernel) (entry : Place) (dir i : Nat) : Kernel :=
  (s.setEntryNr entry 0).setSize dir ((i + 1) * 16)

section Stores

variable {dir : Nat} (hdesc : s.desc dir = d) (hp : p.dev = d.dev)
include hdesc hp

theorem within_storeName : Within d.dev (fun b o => At (p.add 2) 14 b o ∨ At (d.add 8) 4 b o) s
    (storeName s p dir name) := by
  have hbytes : ∀ (b : Bytes) k, 14 ≤ k → strncpy b name NAME_LEN k = b k := by
    intro b k hk
    have h14 : ¬ k < NAME_LEN := Nat.not_lt.mpr hk
    rw [strncpy, if_neg fun h => h14 h.1, if_neg fun h => h14 h.1]
  have h1 := within_setBytes (s := s) (p.add 2) hbytes
  have h2 := within_putU32 (s := s.setBytes (p.add 2) fun old => strncpy old name NAME_LEN)
    (d.add 8) s.time
  rw [show (p.add 2).dev = d.dev from hp] at h1
  refine (h1.mono fun b o hb => Or.inl hb).trans ?_
  rw [storeName, Kernel.setMtime, show (s.setBytes (p.add 2) fun old => strncpy old name NAME_LEN).desc
    dir = d from hdesc]
  exact h2.mono fun b o hb => Or.inr hb

theorem within_appendEntry (i : Nat) :
    Within d.dev (fun b o => At p 2 b o ∨ At (d.add 4) 4 b o) s (appendEntry s p dir i) := by
  have h1 := within_putU16 (s := s) p (BitVec.ofNat 16 0)
  have h2 := within_putU32 (s := s.setEntryNr p 0) (d.add 4) (BitVec.ofNat 32 ((i + 1) * 16))
  rw [hp] at h1
  refine (h1.mono fun b o hb => Or.inl hb).trans ?_
  rw [appendEntry, Kernel.setSize, show (s.setEntryNr p 0).desc dir = d from hdesc]
  exact h2.mono fun b o hb => Or.inr hb

variable (hblock : p.block ≠ d.block)
include hblock

/-- What the stores to the name and the time leave in the entry and the size. -/
theorem storeName_spec (hname : ∀ c ∈ name, c ≠ 0) :
    nameOf (storeName s p dir name) p = name.take 13 ∧
      Terminated ((storeName s p dir name).bytes (p.add 2)) NAME_LEN ∧
      (storeName s p dir name).entryNr p = s.entryNr p ∧
      u32At ((storeName s p dir name).bytes d) 4 = u32At (s.bytes d) 4 := by
  have hw : Within d.dev (fun b o => At (p.add 2) 14 b o ∨ At (d.add 8) 4 b o) s
      (storeName s p dir name) := within_storeName hdesc hp
  have hbytes : ∀ k, (storeName s p dir name).bytes (p.add 2) k =
      strncpy (s.bytes (p.add 2)) name NAME_LEN k := by
    intro k
    refine Eq.trans ?_ (bytes_setBytes s (p.add 2) (fun old => strncpy old name NAME_LEN) k)
    have ht := (within_putU32 (s := s.setBytes (p.add 2) fun old => strncpy old name NAME_LEN)
      (d.add 8) s.time).bytes p.block (p.off + 2 + k) fun hb => hblock hb.1
    rw [show (d.add 8).dev = p.dev from hp.symm] at ht
    rw [storeName, Kernel.setMtime, show (s.setBytes (p.add 2) fun old =>
      strncpy old name NAME_LEN).desc dir = d from hdesc]
    exact ht
  refine ⟨?_, ?_, congrArg BitVec.toNat (u16At_congr fun i hi => ?_), u32At_congr fun i hi => ?_⟩
  · rw [nameOf, funext hbytes]
    exact stored_name hname _
  · rw [funext hbytes]
    exact stored_ends _ name
  · show (storeName s p dir name).disk p.dev p.block _ = s.disk p.dev p.block _
    rw [hp]
    refine hw.bytes _ _ ?_
    rintro (⟨-, hlo, -⟩ | ⟨hb, -⟩)
    · change p.off + 2 ≤ p.off + (0 + i) at hlo
      omega
    · exact hblock hb
  · refine hw.bytes _ _ ?_
    rintro (⟨hb, -⟩ | ⟨-, hlo, -⟩)
    · exact hblock hb.symm
    · change d.off + 8 ≤ d.off + (4 + i) at hlo
      omega

theorem appendEntry_spec {i : Nat} (hi : (i + 1) * 16 < 2 ^ 32) :
    (appendEntry s p dir i).entryNr p = 0 ∧
      (u32At ((appendEntry s p dir i).bytes d) 4).toNat = (i + 1) * 16 := by
  constructor
  · rw [← entryNr_setEntryNr s p (by decide : 0 < 2 ^ 16)]
    refine congrArg BitVec.toNat (u16At_congr fun k hk => ?_)
    have ht := (within_putU32 (s := s.setEntryNr p 0) (d.add 4)
      (BitVec.ofNat 32 ((i + 1) * 16))).bytes p.block (p.off + (0 + k)) fun hb => hblock hb.1
    rw [show (d.add 4).dev = p.dev from hp.symm] at ht
    rw [appendEntry, Kernel.setSize, show (s.setEntryNr p 0).desc dir = d from hdesc]
    exact ht
  · exact size_setSize (s := s.setEntryNr p 0) hdesc hi

end Stores

/-- What `add_entry` returns: a new entry with the name, its number still 0. -/
def Added (s : Kernel) (sb : SuperDesc) (d : Place) (name : Str) (entry : Place)
    (u : Kernel) : Prop :=
  ∃ e, Inserted s sb d name e u ∧ entry = entryPlace u d e ∧ u.entryNr entry = 0 ∧
    Within d.dev (AddBytes sb d) s u ∧ (Spare (vol s sb d.dev) 4 → Spare (vol u sb d.dev) 1)

/-- Where all entries are live the directory grows: zones to spare, and blank ones
    where index blocks are missing. -/
def MayGrow (s : Kernel) (sb : SuperDesc) (d : Place) : Prop :=
  (∀ n < entriesOf s d, Live s (entryPlace s d n)) →
    Spare (vol s sb d.dev) 3 ∧ Grows s sb d (entriesOf s d / BLOCK_DENTRIES)

/-- The last stores, once there is room for the entry. -/
theorem Opened.added {dir : Nat} (h : Opened s sb d e t) (hok : DirOk s sb d)
    (hname : ∀ c ∈ name, c ≠ 0) (hdesc : u.desc dir = d) (hslot : e ≤ entriesOf s d)
    (hnew : e < entriesOf s d → ¬ Live s (entryPlace s d e))
    (hw : Within d.dev (fun b o => At (entryPlace t d e) 2 b o ∨ At (d.add 4) 4 b o) t u)
    (hsize : (u32At (u.bytes d) 4).toNat = 16 * max (entriesOf s d) (e + 1))
    (hnr : u.entryNr (entryPlace t d e) = 0)
    (hspare : Spare (vol s sb d.dev) 4 → Spare (vol t sb d.dev) 1) :
    Added s sb d name (entryPlace t d e) (storeName u (entryPlace t d e) dir name) := by
  have hblock : (entryPlace t d e).block ≠ d.block :=
    dataZone_ne_desc (entry_used h.tree h.inFile h.mapped).1 hok.place
  obtain ⟨hnamed, hends, hnr', hsize'⟩ :=
    storeName_spec (p := entryPlace t d e) hdesc rfl hblock hname
  have hall : Within d.dev (fun b o => At (entryPlace t d e) 16 b o ∨ At (d.add 4) 8 b o) t
      (storeName u (entryPlace t d e) dir name) := by
    refine (hw.mono ?_).trans ((within_storeName (p := entryPlace t d e) hdesc rfl).mono ?_)
    · rintro b o (⟨hb, hlo, hhi⟩ | ⟨hb, hlo, hhi⟩)
      · exact Or.inl ⟨hb, hlo, by omega⟩
      · exact Or.inr ⟨hb, hlo, by omega⟩
    · rintro b o (⟨hb, hlo, hhi⟩ | ⟨hb, hlo, hhi⟩)
      · change (entryPlace t d e).off + 2 ≤ o at hlo
        change o < (entryPlace t d e).off + 2 + 14 at hhi
        exact Or.inl ⟨hb, by omega, by omega⟩
      · change d.off + 8 ≤ o at hlo
        change o < d.off + 8 + 4 at hhi
        refine Or.inr ⟨hb, ?_, ?_⟩
        · change d.off + 4 ≤ o
          omega
        · change o < d.off + 4 + 8
          omega
  obtain ⟨hins, hplace, hwithin, hspare'⟩ := h.insert hok hslot hnew hall
    (by rw [hsize']; exact hsize) hnamed hends
  exact ⟨e, hins, hplace.symm, hnr'.trans hnr, hwithin, fun hs => hspare' 1 (hspare hs)⟩

/-- At the end of a full block the directory gets another one. -/
theorem entryAt_opens {dir i : Nat} {entry : Option Place} (hok : DirOk s sb d)
    (hgrows : Grows s sb d (i / BLOCK_DENTRIES)) (hspare : Spare (vol s sb d.dev) 3)
    (hdesc : s.desc dir = d) (hdev : (s.inode_table dir).dev = d.dev) (h0 : i % BLOCK_DENTRIES = 0)
    (hc : Cursor s d i entry) : From never s (entryAt dir i true entry) fun p t =>
      Opened s sb d i t ∧ p = entryPlace t d i ∧
        (Spare (vol s sb d.dev) 4 → Spare (vol t sb d.dev) 1) := by
  have hmap : From never s (bmap dir (i / BLOCK_DENTRIES) true) fun r t =>
      (i / BLOCK_DENTRIES < TOTAL_BLOCK ∧
        Grown sb d (zoneOf (i / BLOCK_DENTRIES)) (slotsOn (i / BLOCK_DENTRIES)) r s t) ∧
      (Spare (vol s sb d.dev) 4 → Spare (vol t sb d.dev) 1) := by
    by_cases h4 : Spare (vol s sb d.dev) 4
    · refine (bmap_create hok.place hok.tree hok.volume hok.reserved hdesc hdev hgrows
        (k := 1) h4).post ?_
      exact fun _ _ ⟨hn, hg, hs⟩ => ⟨⟨hn, hg⟩, fun _ => hs⟩
    · refine (bmap_create hok.place hok.tree hok.volume hok.reserved hdesc hdev hgrows
        (k := 0) hspare).post ?_
      exact fun _ _ ⟨hn, hg, _⟩ => ⟨⟨hn, hg⟩, fun h => absurd h h4⟩
  have hload : From never s (do
      let block ← bmap dir (i / BLOCK_DENTRIES) true
      assert (block ≠ 0)
      return { dev := ((← get).inode_table dir).dev, block := block, off := 0 } : Fs Place)
      fun p t => Opened s sb d i t ∧ p = entryPlace t d i ∧
        (Spare (vol s sb d.dev) 4 → Spare (vol t sb d.dev) 1) := by
    refine From.bind hmap ?_
    rintro r t ⟨⟨hn, hg⟩, hs⟩
    refine from_assert fun _ => From.get (From.pure ⟨.grown hok hn hg, ?_, hs⟩)
    have hdev' : (t.inode_table dir).dev = d.dev := by
      rw [hg.within.tables]
      exact hdev
    rw [entryPlace, blockOf_eq, hg.block, h0, hdev']
  rw [entryAt]
  cases entry with
  | none => exact hload
  | some p =>
      rw [Cursor, if_pos h0] at hc
      rw [Option.filter_some, if_neg (by simp [hc])]
      exact hload

/-- The loop stops at the first free entry, or behind the last one. -/
theorem addLoop_adds {dir fuel i : Nat} {entry : Option Place} (hok : DirOk s sb d)
    (hname : ∀ c ∈ name, c ≠ 0) (hgrow : MayGrow s sb d) (hdesc : s.desc dir = d)
    (hdev : (s.inode_table dir).dev = d.dev) (hi : i ≤ entriesOf s d)
    (hlive : ∀ n < i, Live s (entryPlace s d n)) (hc : Cursor s d i entry) :
    From never s (addLoop dir name fuel i entry) fun p u => Added s sb d name p u := by
  have hwhole : (u32At (s.bytes d) 4).toNat = 16 * entriesOf s d := by
    have hw := hok.whole
    rw [entriesOf]
    omega
  have hsize : s.size dir = 16 * entriesOf s d := by
    rw [Kernel.size, hdesc, hwhole]
  induction fuel generalizing i entry with
  | zero => exact From.stop not_false
  | succ fuel ih =>
      -- the new entry `i` is behind the last one
      have hend : ∀ {t}, i = entriesOf s d → Opened s sb d i t → t.desc dir = d →
          (Spare (vol s sb d.dev) 4 → Spare (vol t sb d.dev) 1) → t.size dir = 16 * i →
          From never t (do
            onlyIf (i * 16 ≥ (← get).size dir) do
              modify fun s => s.setEntryNr (entryPlace t d i) 0
              modify fun s => s.setSize dir ((i + 1) * 16)
            if (← get).entryNr (entryPlace t d i) ≠ 0 then
              addLoop dir name fuel (i + 1) (some ((entryPlace t d i).add 16))
            else
              modify fun s => s.setBytes ((entryPlace t d i).add 2) fun old =>
                strncpy old name NAME_LEN
              modify fun s => s.setMtime dir s.time
              return entryPlace t d i : Fs Place) fun p u => Added s sb d name p u := by
        intro t hie ho hdt hsp hst
        have hin := ho.inFile
        have hsmall : (i + 1) * 16 < 2 ^ 32 := by
          have hmax : TOTAL_BLOCK = 262663 := rfl
          have h64 : BLOCK_DENTRIES = 64 := rfl
          rw [hmax, h64] at hin
          omega
        have hblock : (entryPlace t d i).block ≠ d.block :=
          dataZone_ne_desc (entry_used ho.tree ho.inFile ho.mapped).1 hok.place
        obtain ⟨hnr, hsz⟩ := appendEntry_spec (s := t) (p := entryPlace t d i) hdt rfl hblock hsmall
        refine From.get (From.onlyIf (fun _ => ?_) fun hlt => absurd (by omega) hlt)
        refine From.bind (Q := fun _ u => u = appendEntry t (entryPlace t d i) dir i)
          (From.set (From.store rfl)) ?_
        rintro _ u rfl
        refine From.get (From.ite (fun hne => absurd hnr hne) fun _ => ?_)
        refine From.set (From.set (From.pure ?_))
        refine ho.added hok hname hdt hie.le (fun hlt => absurd hie hlt.ne)
          (within_appendEntry (p := entryPlace t d i) hdt rfl i) ?_ hnr hsp
        rw [hsz]
        omega
      by_cases hlt : i < entriesOf s d
      · have hentry := hok.entries i hlt
        refine From.bind (entryAt_mapped (by rw [hdev, hdesc]) hentry.inFile
          (by rw [hdesc]; exact hentry.mapped) (by rw [hdesc]; exact hc)) ?_
        rintro p u ⟨rfl, rfl⟩
        rw [hdesc]
        refine From.get (From.onlyIf (fun hge => absurd hge (by rw [hsize]; omega)) fun _ => ?_)
        refine From.get (From.ite (fun hne => ?_) fun hz => ?_)
        · refine ih hlt (fun n hn => ?_) Cursor.next
          rcases Nat.lt_succ_iff_lt_or_eq.mp hn with hn | rfl
          · exact hlive n hn
          · exact hne
        · refine From.set (From.set (From.pure ?_))
          refine (Opened.refl hok hentry.inFile hentry.mapped).added hok hname hdesc hlt.le
            (fun _ => hz) .refl ?_ (not_not.mp hz) fun hs => hs.mono (by omega)
          rw [hwhole]
          omega
      · have hie : i = entriesOf s d := by omega
        obtain ⟨hspare, hgrows⟩ := hgrow fun n hn => hlive n (by omega)
        rw [← hie] at hgrows
        by_cases h0 : i % BLOCK_DENTRIES = 0
        · refine From.bind (entryAt_opens hok hgrows hspare hdesc hdev h0 hc) ?_
          rintro p t ⟨ho, rfl, hsp⟩
          have hdt : t.desc dir = d := by
            rw [ho.within.tables]
            exact hdesc
          refine hend hie ho hdt hsp ?_
          rw [Kernel.size, hdt, u32At_congr fun k hk => ho.head (4 + k) (by omega), hwhole, hie]
        · -- in the block of the last entry
          have hpart : (i - 1) / BLOCK_DENTRIES = i / BLOCK_DENTRIES := by
            change ¬ i % 64 = 0 at h0
            change (i - 1) / 64 = i / 64
            omega
          have hpos : i ≠ 0 := by
            rintro rfl
            exact h0 rfl
          have hlast := hok.entries (i - 1) (by omega)
          have hin := hlast.inFile
          have hmap := hlast.mapped
          rw [hpart] at hin hmap
          refine From.bind (entryAt_mapped (by rw [hdev, hdesc]) hin (by rw [hdesc]; exact hmap)
            (by rw [hdesc]; exact hc)) ?_
          rintro p u ⟨rfl, rfl⟩
          rw [hdesc]
          exact hend hie (Opened.refl hok hin hmap) hdesc (fun hs => hs.mono (by omega))
            (by rw [hsize, hie])

/-! ## `find_entry` and `add_entry` -/

/-- `find_entry` in the directory itself only reads. -/
theorem findEntry_plain {bad : Halt → Prop} {dir inodes : Nat} {path next : Str}
    (hdesc : s.desc dir = d) (hdev : (s.inode_table dir).dev = d.dev)
    (hok : DirectoryOk s d inodes) (hmode : ISDIR (u16At (s.bytes d) 0))
    (hup : ¬ (first path = dotdot ∧ (s.inode_table dir).nr = 1)) :
    From bad s (findEntry dir path next) fun r t => t = s ∧ r.2.1 = dir ∧
      Found s d path (lookup s d (first path)) (r.1, r.2.2) := by
  have hmode' : ISDIR (s.mode dir) := by
    rw [Kernel.mode, hdesc]
    exact hmode
  have hstart : ∀ m : Option Str, (m.isSome = true → first path = dotdot) →
      From bad s (startDir dir m.isSome) fun r t => t = s ∧ r = dir := fun m hm =>
    From.get (From.ite (fun h => absurd ⟨hm h.1, h.2⟩ hup) fun _ => From.pure ⟨rfl, rfl⟩)
  refine From.get (past_assert hmode' (past_ofRes matchName_dotdot ?_))
  refine From.bind (hstart _ fun h => ?_) ?_
  · by_contra hne
    rw [if_neg hne] at h
    cases h
  rintro _ s ⟨rfl, rfl⟩
  subst hdesc
  refine From.get (From.bind (findLoop_lookup hdev hok) ?_)
  rintro ⟨entry, next'⟩ s ⟨rfl, hfound⟩
  exact From.pure ⟨rfl, rfl, hfound⟩

theorem addEntry_adds {dir : Nat} (hok : DirOk s sb d) (hname : ∀ c ∈ name, c ≠ 0)
    (hplain : ¬ Split name) (hdd : name ≠ dotdot) (habsent : lookup s d name = none)
    (hgrow : MayGrow s sb d) (hdesc : s.desc dir = d) (hdev : (s.inode_table dir).dev = d.dev) :
    From never s (addEntry dir name) fun p u => Added s sb d name p u := by
  have hfirst := (first_of_not_split hplain).1
  refine From.bind (findEntry_plain hdesc hdev hok.entries hok.isDir
    fun h => hdd (hfirst.symm.trans h.1)) ?_
  rintro ⟨entry, dir', next⟩ s ⟨rfl, rfl, hfound⟩
  rw [hfirst, habsent] at hfound
  obtain rfl : entry = none := hfound
  refine from_assert fun _ => ?_
  refine From.bind (Q := fun _ t => t = s) (fun _ _ ht => ht) ?_
  rintro fuel s rfl
  exact addLoop_adds hok hname hgrow hdesc hdev (Nat.zero_le _) (fun n hn => absurd hn n.not_lt_zero)
    rfl

/-- `find_entry` of a name finds that entry, or none, from every in-memory inode of
    the directory. -/
def Finds (s : Kernel) (d : Place) (name : Str) (found : Option Place) : Prop :=
  ∀ (u : Kernel) (i : Nat) (next : Str), u.disk = s.disk → u.desc i = d →
    (u.inode_table i).dev = d.dev → ¬ (name = dotdot ∧ (u.inode_table i).nr = 1) →
    From (fun _ => True) u (findEntry i name next) fun r v => v = u ∧ r.1 = found

/-- The contents of a directory are a matter of the disks. -/
theorem lookup_disk (h : u.disk = s.disk) :
    lookup u d = lookup s d ∧ entryPlace u d = entryPlace s d := by
  obtain ⟨_, _, _, _, _, _, disk, _⟩ := u
  obtain rfl : disk = s.disk := h
  exact ⟨rfl, rfl⟩

theorem directoryOk_disk {inodes : Nat} (h : u.disk = s.disk) (hok : DirectoryOk s d inodes) :
    DirectoryOk u d inodes := by
  obtain ⟨_, _, _, _, _, _, disk, _⟩ := u
  obtain rfl : disk = s.disk := h
  exact fun n hn => ⟨(hok n hn).inFile, (hok n hn).mapped, (hok n hn).ends, (hok n hn).named,
    (hok n hn).plain, (hok n hn).number⟩

end NeonixNewEntries
