import Neonix.FileContents

/-! # What is written to a file is read back

    `write_then_read` is about one call of `inode_write` and the calls of `inode_read`
    behind it, on a disk whose index blocks are data zones and whose parts are in data
    zones of their own all along. -/

namespace NeonixWriteRead

open NeonixMachine NeonixOutcome NeonixByteBits NeonixWords NeonixVolume NeonixAllocators NeonixCalls
  NeonixFileSystem NeonixNamei NeonixFrames NeonixDirectories NeonixBlockTrees NeonixBlockMaps
  NeonixFileData NeonixFileOffsets NeonixFileContents NeonixReferenceCounts NeonixCreationCalls

variable {s t u v : Kernel} {sb : SuperDesc} {d : Place} {i o n fuel : Nat} {data : Nat → Byte}

/-- After `inode_write` of `n` bytes at `o` that ended in `t`. -/
structure ReadsBack (s t : Kernel) (d : Place) (i o n : Nat) (data : Nat → Byte) : Prop where
  size : t.size i = max (s.size i) (o + n)
  back : ∀ fuel, inodeRead i n o fuel t = .ok (((n : Int), (List.range n).map data), t)
  others : ∀ fuel x len, x < 2 ^ 31 → x < s.size i → x + len ≤ s.size i →
    (∀ y, x ≤ y → y < x + len → Has s d y ∧ ¬ (o ≤ y ∧ y < o + n)) →
    ∃ r, inodeRead i len x fuel s = .ok (r, s) ∧ inodeRead i len x fuel t = .ok (r, t)
  count : ∀ fuel x len, x < 2 ^ 31 → x < t.size i →
    (∀ y, x ≤ y → y < x + min len (t.size i - x) → Has t d y) →
    ∃ bytes, inodeRead i len x fuel t = .ok (((min len (t.size i - x) : Nat), bytes), t) ∧
      bytes.length = min len (t.size i - x)
  eof : ∀ fuel x len, x < 2 ^ 31 → t.size i ≤ x → inodeRead i len x fuel t = .ok ((EOF, []), t)

/-- `inode_write` returns the length, the size is the old one or the end of the data, the
    data are read back, bytes elsewhere are read as before, and a read returns what is
    left of the file, or `EOF` behind it: if all along the parts of the file are in data
    zones of their own, the index blocks are data zones, and `bmap` returns blocks. -/
theorem write_then_read (hloc : Located s sb d i) (hmode : ISFILE (s.mode i)) (hn : 0 < n)
    (hmax : o + n ≤ TOTAL_BLOCK * BLOCK_SIZE)
    (hall : Throughout (Private · sb d) i o n data fuel s) :
    ∃ t, inodeWrite i data n o fuel s = .ok ((n : Int), t) ∧ ReadsBack s t d i o n data := by
  have htotal : TOTAL_BLOCK * BLOCK_SIZE = 268966912 := rfl
  obtain ⟨t, hrun, ht⟩ := inodeWrite_stores hloc hmode hall (by omega)
  have hloct := hloc.of_disk ht.tables
  have hmodet : ISFILE (t.mode i) ∨ ISDIR (t.mode i) := Or.inl (by rw [ht.mode]; exact hmode)
  have hsize : t.size i = max (s.size i) (o + n) := by
    rw [ht.size, if_pos (by omega)]
  refine ⟨t, hrun, hsize, fun fuel => ?_, fun fuel x len hx hxs hend hold => ?_,
    fun fuel x len hx hxt hhas => ?_, fun fuel x len hx hxt => inodeRead_eof hmodet hx hxt⟩
  · have hmin : min n (t.size i - o) = n := by omega
    rw [inodeRead_reads hloct hmodet (by omega) (by omega) fun x hx hx' => ht.has x hx (by omega),
      hmin]
    have hbytes : bytesAt t d o n = (List.range n).map data := by
      refine List.map_congr_left fun k hk => ?_
      have hk := List.mem_range.mp hk
      rw [ht.written _ (by omega) (by omega), Nat.add_sub_cancel_left]
    rw [hbytes]
  · have hmins : min len (s.size i - x) = len := by omega
    have hmint : min len (t.size i - x) = len := by omega
    refine ⟨((len : Int), bytesAt s d x len), ?_, ?_⟩
    · rw [inodeRead_reads hloc (Or.inl hmode) hx hxs fun y hy hy' => (hold y hy (by omega)).1, hmins]
    · rw [inodeRead_reads hloct hmodet hx (by omega) fun y hy hy' =>
        ht.has_old (hold y hy (by omega)).1, hmint]
      -- byte for byte
      have hbytes : bytesAt t d x len = bytesAt s d x len := by
        refine List.map_congr_left fun k hk => ?_
        have hk := List.mem_range.mp hk
        obtain ⟨hhas, hout⟩ := hold (x + k) (by omega) (by omega)
        exact ht.rest _ hhas hout
      rw [hbytes]
  · refine ⟨_, inodeRead_reads hloct hmodet hx hxt hhas, ?_⟩
    rw [bytesAt, List.length_map, List.length_range]

/-! ## Files of two parts -/

/-- Part 0 is at block `b`, part 7 at block `a` if there is an index block `m`, and there
    is nothing else. -/
structure Flat (s : Kernel) (d : Place) (m a b : Nat) : Prop where
  zones : ∀ z < 9, (s.index (d.add 14) z).toNat = if z = 0 then b else if z = 7 then m else 0
  slots : m ≠ 0 → ∀ j < 512, (s.index { dev := d.dev, block := m, off := 0 } j).toNat =
    if j = 0 then a else 0

theorem Flat.blockOf {m a b : Nat} (h : Flat s d m a b) (hn : n < TOTAL_BLOCK) :
    NeonixDirectories.blockOf s d n = if n = 0 then b else if n = 7 ∧ m ≠ 0 then a else 0 := by
  change n < 7 + 512 + 512 * 512 at hn
  rw [NeonixDirectories.blockOf]
  dsimp only
  by_cases h7 : n < DIRECT_BLOCK
  · have h7' : n < 7 := h7
    rw [if_pos h7, through, h.zones n (by omega)]
    split_ifs
    all_goals first | rfl | omega
  rw [if_neg h7]
  have h7' : ¬ n < 7 := h7
  by_cases h1 : n - DIRECT_BLOCK < INDIRECT1_BLOCK
  · have h1' : n - 7 < 512 := h1
    have hzone : (s.index (d.add 14) DIRECT_BLOCK).toNat = m := h.zones 7 (by omega)
    rw [if_pos h1, through, through]
    by_cases hm : m = 0
    · rw [if_pos ((toNat_eq_zero _).mp (hzone.trans hm))]
      split_ifs
      all_goals first | rfl | omega
    · rw [if_neg fun h0 => hm (hzone.symm.trans ((toNat_eq_zero _).mpr h0)), hzone]
      have hslot := h.slots hm (n - DIRECT_BLOCK) h1'
      rw [hslot]
      have hsub : n - DIRECT_BLOCK = 0 ↔ n = 7 := by
        show n - 7 = 0 ↔ n = 7
        omega
      split_ifs
      all_goals first | rfl | omega
  · have h1' : ¬ n - 7 < 512 := h1
    have hzone : (s.index (d.add 14) (DIRECT_BLOCK + 1)).toNat = 0 := h.zones 8 (by omega)
    rw [if_neg h1, through, if_pos ((toNat_eq_zero _).mp hzone)]
    split_ifs
    all_goals first | rfl | omega

theorem Flat.index {m a b x : Nat} (h : Flat s d m a b) (hx : IsIndex s d x) : x = m ∧ m ≠ 0 := by
  obtain ⟨z, js, hp, hlen, hne, rfl⟩ := hx
  have hz := hp.zone
  -- behind zone 8 is nothing
  have h8 : z ≠ 8 := by
    rintro rfl
    refine hne ?_
    have hzone : (s.index (d.add 14) 8).toNat = 0 := h.zones 8 (by omega)
    rw [blockAt]
    cases js with
    | nil => exact hzone
    | cons j js => rw [through, if_pos ((toNat_eq_zero _).mp hzone)]
  obtain rfl : z = 7 := by omega
  obtain rfl : js = [] := List.length_eq_zero_iff.mp (by omega)
  have hzone : blockAt s d 7 [] = m := h.zones 7 (by omega)
  exact ⟨hzone, hzone ▸ hne⟩

theorem Flat.spread {m a b : Nat} (h : Flat s d m a b) (hm : ¬ IsDataZone sb m)
    (ha : IsDataZone sb a)
    (hb : b = 0 ∨ IsDataZone sb b) (hab : a ≠ b) : Spread s sb d where
  zones := fun n hn hne => by
    rw [h.blockOf hn] at hne ⊢
    split_ifs at hne ⊢
    · exact hb.resolve_left hne
    · exact ha
    · exact absurd rfl hne
  once := fun j hj k hk hne heq => by
    rw [h.blockOf hj] at hne
    rw [h.blockOf hj, h.blockOf hk] at heq
    split_ifs at hne heq
    all_goals omega
  apart := fun n hn hne hidx => by
    obtain ⟨hx, -⟩ := h.index hidx
    rw [h.blockOf hn] at hne hx
    split_ifs at hne hx
    · exact hm (hx ▸ hb.resolve_left hne)
    · exact hm (hx ▸ ha)
    · exact hne rfl

/-- A write of one byte at the start of a file. -/
theorem throughout_one {P : Kernel → Prop} {nr : Nat} (hloc : Located u sb d i) (hs : P s)
    (hrun : bmap i 0 true fuel s = .ok (nr, u)) (hnr : nr ≠ 0) (hu : P u)
    (hstore : P (storeChunk u i d.dev nr 0 1 1 data)) : Throughout P i 0 1 data fuel s := by
  intro k x w hk
  cases k with
  | zero =>
      obtain ⟨rfl, rfl⟩ := Prod.mk.inj (Except.ok.inj hk)
      exact ⟨hs, fun _ => ⟨nr, u, hrun, hnr, hu⟩⟩
  | succ k =>
      have hturn : writeLoop i (k + 1) (0 : Nat) 1 data fuel s = _ :=
        writeLoop_turn k data hloc.device hrun hnr (by decide)
      have hdone : ∀ v, writeLoop i k ((1 : Nat) : Int) 0 (fun j => data (j + 1)) fuel v =
          .ok (((1 : Nat) : Int), v) := by
        intro v
        cases k with
        | zero => rfl
        | succ k =>
            rw [writeLoop, if_pos rfl]
            rfl
      obtain ⟨rfl, rfl⟩ := Prod.mk.inj (Except.ok.inj ((hdone _).symm.trans (hturn.symm.trans hk)))
      exact ⟨hstore, fun hx => absurd hx (by decide)⟩

/-- A file of 7169 bytes in inode 1, on a volume whose bitmap begins with some bits. -/
def fileState (bits block index : Byte) : Kernel :=
  { bootState with
    disk := fun _ b k =>
      if b = 3 then (if k = 0 then bits else 0)
      else if b = 4 then
        [0xA4, 0x81, 0, 0, 1, 0x1C, 0, 0, 0, 0, 0, 0, 0, 1, block, 0, 0, 0, 0, 0, 0, 0, 0, 0, 0, 0,
          0, 0, index, 0, 0, 0].getD k 0
      else if b = 31 then 1
      else 0 }

theorem fileState_located (bits block index : Byte) :
    Located (fileState bits block index) bootDesc bootPlace 0 where
  volume := ⟨0, rfl, rfl⟩
  desc := rfl
  device := rfl
  place := bootState_fit.directory.place

/-- One byte goes to block 5 and is read back. -/
theorem write_then_read_one : ∃ t, inodeWrite 0 (fun _ => 7) 1 (0 : Nat) 8 (fileState 3 5 0) =
    .ok (((1 : Nat) : Int), t) ∧ ReadsBack (fileState 3 5 0) t bootPlace 0 0 1 fun _ => 7 := by
  have hloc := fileState_located 3 5 0
  have hflat : ∀ s, (∀ z < 9, (s.index (bootPlace.add 14) z).toNat = if z = 0 then 5 else 0) →
      Private s bootDesc bootPlace := by
    intro s hs
    have h : Flat s bootPlace 0 6 5 := by
      refine ⟨fun z hz => ?_, fun h => absurd rfl h⟩
      rw [hs z hz, ite_self]
    refine ⟨h.spread ?_ ?_ (Or.inr ?_) (by decide), fun b hb => absurd rfl (h.index hb).2⟩
    · exact fun hz => absurd hz.1 (by decide)
    · exact ⟨by decide, by decide⟩
    · exact ⟨by decide, by decide⟩
  have hrun : bmap 0 0 true 8 (fileState 3 5 0) = .ok (5, fileState 3 5 0) := rfl
  refine write_then_read hloc (by decide +kernel) (by decide) (by decide) ?_
  refine throughout_one hloc (hflat _ (by decide +kernel)) hrun (by decide) (hflat _ (by decide +kernel)) ?_
  exact hflat _ (by decide +kernel)

/-- The index block of part 7 is the zone bitmap, whose first bits are also the number of
    a block. -/
def mixedState : Kernel := fileState 0x1F 0 3

/-- What decides the blocks of such a file. -/
def FlatIn (s : Kernel) (a b : Nat) : Prop :=
  (∀ z < 9, (s.index (bootPlace.add 14) z).toNat = if z = 0 then b else if z = 7 then 3 else 0) ∧
    ∀ j < 512, (s.index { dev := bootPlace.dev, block := 3, off := 0 } j).toNat = if j =
      0 then a else 0

instance (s : Kernel) (a b : Nat) : Decidable (FlatIn s a b) := inferInstanceAs (Decidable (_ ∧ _))

theorem FlatIn.spread {a b : Nat} (h : FlatIn s a b) (ha : 5 ≤ a ∧ a < 64)
    (hb : b = 0 ∨ 5 ≤ b ∧ b < 64) (hab : a ≠ b) : Spread s bootDesc bootPlace := by
  have hflat : Flat s bootPlace 3 a b := ⟨h.1, fun _ => h.2⟩
  exact hflat.spread (fun hz => absurd hz.1 (by decide)) ha hb hab

/-- A byte is written to part 0, which had no block.  The bit that is set makes part 7
    block 63, where it was block 31, and what is read there is another byte. -/
theorem write_moves_part : Located mixedState bootDesc bootPlace 0 ∧ ISFILE (mixedState.mode 0) ∧
    Throughout (Spread · bootDesc bootPlace) 0 0 1 (fun _ => 7) 8 mixedState ∧
    ∃ t, inodeWrite 0 (fun _ => 7) 1 (0 : Nat) 8 mixedState = .ok (((1 : Nat) : Int), t) ∧
      ¬ ReadsBack mixedState t bootPlace 0 0 1 fun _ => 7 := by
  have hloc : Located mixedState bootDesc bootPlace 0 := fileState_located ..
  have hstart : FlatIn mixedState 31 0 := by decide +kernel
  have hmapped : (bmap 0 0 true 8 mixedState).toOption.map (fun x =>
      (x.1, decide (FlatIn x.2 63 9), decide (FlatIn (storeChunk x.2 0 1 9 0 1 1 fun _ => 7) 63 9))) =
        some (9, true, true) := by decide +kernel
  have hwrite : (inodeWrite 0 (fun _ => 7) 1 (0 : Nat) 8 mixedState).toOption.map (fun x =>
      (x.1, (inodeRead 0 1 (7168 : Nat) 8 x.2).toOption.map Prod.fst)) =
      some (1, some (1, [0])) := by
    decide +kernel
  have hread : (inodeRead 0 1 (7168 : Nat) 8 mixedState).toOption.map Prod.fst = some (1, [1]) := by
    decide +kernel
  refine ⟨hloc, by decide +kernel, ?_, ?_⟩
  · cases hrun : bmap 0 0 true 8 mixedState with
    | error e =>
        rw [hrun] at hmapped
        cases hmapped
    | ok x =>
        obtain ⟨nr, u⟩ := x
        rw [hrun] at hmapped
        obtain ⟨rfl, hflags⟩ := Prod.mk.inj (Option.some.inj hmapped)
        obtain ⟨hu, hstored⟩ := Prod.mk.inj hflags
        have htables := (bmap_walk hloc hrun).within rfl
        refine throughout_one (hloc.of_disk htables.tables) ?_ hrun (by decide) ?_ ?_
        · exact hstart.spread (by decide) (Or.inl rfl) (by decide)
        · exact (of_decide_eq_true hu).spread (by decide) (Or.inr (by decide)) (by decide)
        · exact (of_decide_eq_true hstored).spread (by decide) (Or.inr (by decide)) (by decide)
  · cases hrun : inodeWrite 0 (fun _ => 7) 1 (0 : Nat) 8 mixedState with
    | error e =>
        rw [hrun] at hwrite
        cases hwrite
    | ok x =>
        obtain ⟨n, t⟩ := x
        rw [hrun] at hwrite
        obtain ⟨rfl, hlast⟩ := Prod.mk.inj (Option.some.inj hwrite)
        refine ⟨t, rfl, fun h => ?_⟩
        have hin : ∀ y, 7168 ≤ y → y < 7168 + 1 →
            Has mixedState bootPlace y ∧ ¬ (0 ≤ y ∧ y < 0 + 1) := by
          intro y hy hy'
          obtain rfl : y = 7168 := by omega
          exact ⟨⟨by decide, by decide +kernel⟩, by omega⟩
        obtain ⟨r, hs, ht⟩ := h.others 8 7168 1 (by decide) (by decide +kernel) (by decide +kernel) hin
        rw [hs] at hread
        rw [ht] at hlast
        have hsame := (Option.some.inj hread).symm.trans (Option.some.inj hlast)
        exact absurd hsame (by decide)

end NeonixWriteRead
