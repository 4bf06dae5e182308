import Mathlib.Algebra.BigOperators.Intervals
import Neonix.Truncations
import Neonix.ZoneOrder

/-! # Files without holes

    A file that was written from the start on has its first parts and no others, and
    the index blocks on the ways to these.  Then the numbers of the parts say how many
    zones the next ones take, and which of those become index blocks. -/

namespace NeonixDenseFiles

open NeonixMachine NeonixOutcome NeonixByteBits NeonixWords NeonixVolume NeonixAllocators NeonixCalls
  NeonixFileSystem NeonixNamei NeonixFrames NeonixDirectories NeonixBlockTrees NeonixBlockMaps
  NeonixNewEntries NeonixNewInodes NeonixFileData NeonixFileContents NeonixZoneOrder

variable {s t u v : Kernel} {dev : Dev} {sb : SuperDesc} {d : Place}
    {i m n p r z k fuel o left : Nat}
  {js l : List Nat} {buf : Nat → Byte}

/-! ## The order of the parts -/

/-- The first part behind a position. -/
def firstPart (z : Nat) (js : List Nat) : Nat :=
  if z < DIRECT_BLOCK then z
  else if z = DIRECT_BLOCK then DIRECT_BLOCK + js.headD 0
  else DIRECT_BLOCK + INDIRECT1_BLOCK + (js.headD 0 * BLOCK_INDEXES + js.tail.headD 0)

/-- How many positions on the way to part `n` have it as their first part: that of the
    part itself, and those of index blocks. -/
def firsts (n : Nat) : Nat :=
  ((slotsOn n).inits.filter fun l => firstPart (zoneOf n) l = n).length

/-- The ways to the parts. -/
theorem slots_cases (hn : n < TOTAL_BLOCK) :
    (n < 7 ∧ zoneOf n = n ∧ slotsOn n = []) ∨
    (∃ j < 512, n = 7 + j ∧ zoneOf n = 7 ∧ slotsOn n = [j]) ∨
    (∃ j < 512, ∃ k < 512, n = 519 + (j * 512 + k) ∧ zoneOf n = 8 ∧ slotsOn n = [j, k]) := by
  change n < 7 + 512 + 512 * 512 at hn
  rw [zoneOf, slotsOn]
  by_cases h7 : n < DIRECT_BLOCK
  · rw [if_pos h7, if_pos h7]
    exact Or.inl ⟨h7, rfl, rfl⟩
  · rw [if_neg h7, if_neg h7]
    change ¬ n < 7 at h7
    by_cases h1 : n - DIRECT_BLOCK < INDIRECT1_BLOCK
    · rw [if_pos h1, if_pos h1]
      change n - 7 < 512 at h1
      exact Or.inr (Or.inl ⟨n - 7, h1, by omega, rfl, rfl⟩)
    · rw [if_neg h1, if_neg h1]
      change ¬ n - 7 < 512 at h1
      refine Or.inr (Or.inr ⟨(n - 7 - 512) / 512, by omega, (n - 7 - 512) % 512, by omega, ?_, rfl, rfl⟩)
      omega

/-- The positions on the way to a part come before it. -/
theorem firstPart_le (hn : n < TOTAL_BLOCK) (hl : l <+: slotsOn n) :
    firstPart (zoneOf n) l ≤ n := by
  rcases slots_cases hn with ⟨h7, hz, hs⟩ | ⟨j, hj, rfl, hz, hs⟩ | ⟨j, hj, k, hk, rfl, hz, hs⟩
  · rw [hz, firstPart, if_pos (show n < DIRECT_BLOCK from h7)]
  · rw [hs] at hl
    rw [hz]
    rcases List.prefix_cons_iff.mp hl with rfl | ⟨l', rfl, hl'⟩
    · exact Nat.le_add_right 7 j
    · rfl
  · rw [hs] at hl
    rw [hz]
    rcases List.prefix_cons_iff.mp hl with rfl | ⟨l', rfl, hl'⟩
    · exact Nat.le_add_right 519 _
    · rcases List.prefix_cons_iff.mp hl' with rfl | ⟨l'', rfl, hl''⟩
      · show 7 + 512 + (j * 512 + 0) ≤ 519 + (j * 512 + k)
        omega
      · rfl

/-- The position of a part is that of its first part. -/
theorem firstPart_self (hn : n < TOTAL_BLOCK) : firstPart (zoneOf n) (slotsOn n) = n := by
  rcases slots_cases hn with ⟨h7, hz, hs⟩ | ⟨j, hj, rfl, hz, hs⟩ | ⟨j, hj, k, hk, rfl, hz, hs⟩
  · rw [hz, firstPart, if_pos (show n < DIRECT_BLOCK from h7)]
  · rw [hz, hs]
    rfl
  · rw [hz, hs]
    rfl

/-- A position is on the way to its first part. -/
theorem on_way (hp : Position z js) (hn : n < TOTAL_BLOCK) (h : firstPart z js = n) :
    z = zoneOf n ∧ js <+: slotsOn n := by
  have hz := hp.zone
  have hlen := hp.depth
  have hslots : ∀ j ∈ js, j < 512 := hp.slots
  rw [firstPart] at h
  rcases slots_cases hn with ⟨h7, hzn, hs⟩ | ⟨j, hj, rfl, hzn, hs⟩ | ⟨j, hj, k, hk, rfl, hzn, hs⟩
  all_goals rw [hzn, hs]
  · split_ifs at h with hz7 hz7'
    · obtain rfl : js = [] := List.length_eq_zero_iff.mp (by change z < 7 at hz7; omega)
      exact ⟨h, List.prefix_refl _⟩
    · change 7 + _ = n at h
      omega
    · change 7 + 512 + _ = n at h
      omega
  · split_ifs at h with hz7 hz7'
    · change z < 7 at hz7
      omega
    · subst hz7'
      refine ⟨rfl, ?_⟩
      rcases js with - | ⟨a, - | ⟨b, js⟩⟩
      · exact List.nil_prefix
      · change 7 + a = 7 + j at h
        rw [Nat.add_left_cancel h]
      · rw [List.length_cons, List.length_cons] at hlen
        change _ ≤ 7 - 6 at hlen
        omega
    · change 7 + 512 + _ = 7 + j at h
      omega
  · split_ifs at h with hz7 hz7'
    · change z < 7 at hz7
      omega
    · subst hz7'
      rcases js with - | ⟨a, js⟩
      · change 7 + 0 = _ at h
        omega
      · have ha := hslots a List.mem_cons_self
        change 7 + a = _ at h
        omega
    · obtain rfl : z = 8 := by
        change ¬ z < 7 at hz7
        change ¬ z = 7 at hz7'
        omega
      refine ⟨rfl, ?_⟩
      rcases js with - | ⟨a, - | ⟨b, - | ⟨c, js⟩⟩⟩
      · exact List.nil_prefix
      · change 7 + 512 + (a * 512 + 0) = 519 + (j * 512 + k) at h
        obtain rfl : a = j := by omega
        exact List.prefix_append [a] [k]
      · have hb := hslots b (by simp)
        change 7 + 512 + (a * 512 + b) = 519 + (j * 512 + k) at h
        obtain rfl : a = j := by omega
        obtain rfl : b = k := by omega
        exact List.prefix_refl _
      · rw [List.length_cons, List.length_cons, List.length_cons] at hlen
        omega

/-! ## The first parts of a file -/

/-- The file has its first `m` parts, and what is on the ways to them. -/
def Filled (s : Kernel) (d : Place) (m : Nat) : Prop :=
  ∀ z js, Position z js → (blockAt s d z js ≠ 0 ↔ firstPart z js < m)

theorem Filled.part (h : Filled s d m) (hn : n < TOTAL_BLOCK) : blockOf s d n ≠ 0 ↔ n < m := by
  rw [blockOf_eq, h _ _ (position_of hn), firstPart_self hn]

/-- The empty slots on a way are the positions without a block. -/
theorem missing_count {array : Place} {j : Nat} : missing s dev array j js =
    (js.inits.filter fun l => through s dev array j l = 0).length := by
  induction js generalizing array j with
  | nil =>
      rw [missing, List.inits, List.filter_cons, List.filter_nil, through]
      by_cases h : s.index array j = 0
      · rw [if_pos h, if_pos (decide_eq_true ((toNat_eq_zero _).mpr h)), List.length_singleton]
      · rw [if_neg h, if_neg, List.length_nil]
        exact fun hz => h ((toNat_eq_zero _).mp (of_decide_eq_true hz))
  | cons b js ih =>
      rw [missing, List.inits, List.filter_cons, List.filter_map, through]
      by_cases h : s.index array j = 0
      · -- there is nothing behind an empty slot
        have hall : js.inits.filter ((fun l => decide (through s dev array j l = 0)) ∘ fun l => b :: l) =
            js.inits := by
          refine List.filter_eq_self.mpr fun l _ => decide_eq_true ?_
          rw [through, if_pos h]
        rw [if_pos h, if_pos (decide_eq_true ((toNat_eq_zero _).mpr h)), hall, List.length_cons,
          List.length_map, List.length_inits]
      · have hbehind : ((fun l => decide (through s dev array j l = 0)) ∘ fun l => b :: l) =
            fun l => decide (through s dev
              { dev := dev, block := (s.index array j).toNat, off := 0 } b l = 0) := by
          funext l
          rw [Function.comp_apply, through, if_neg h]
        rw [if_neg h, if_neg, hbehind, List.length_map, ih]
        exact fun hz => h ((toNat_eq_zero _).mp (of_decide_eq_true hz))

/-- What the next part takes. -/
theorem Filled.missing (h : Filled s d m) (hm : m < TOTAL_BLOCK) : missingOn s d m = firsts m := by
  rw [missingOn, missing_count, firsts]
  refine congrArg List.length (List.filter_congr fun l hl => ?_)
  have hpre := List.mem_inits _ _ |>.mp hl
  have hle := firstPart_le hm hpre
  have hp := position_of hm
  have hlp : Position (zoneOf m) l :=
    ⟨hp.zone, hpre.length_le.trans hp.depth, fun j hj => hp.slots j (hpre.subset hj)⟩
  refine decide_eq_decide.mpr ?_
  rw [← not_iff_not, ← blockAt]
  exact (h _ _ hlp).trans (by omega)

/-- No slot is empty on the way to a part that is there. -/
theorem Filled.held (h : Filled s d m) (hn : n < TOTAL_BLOCK) (hnm : n < m) :
    missingOn s d n = 0 := by
  by_contra hne
  refine (h.part hn).mpr hnm ?_
  rw [blockOf_eq]
  exact through_missing hne

/-- The next part is put in. -/
theorem Filled.next (h : Filled s d m) (hm : m < TOTAL_BLOCK)
    (htaken : Taken sb d (zoneOf m) (slotsOn m) k r s t) : Filled t d (m + 1) := by
  intro z js hp
  by_cases hway : z = zoneOf m ∧ js <+: slotsOn m
  · obtain ⟨rfl, hpre⟩ := hway
    have hle := firstPart_le hm hpre
    refine ⟨fun _ => by omega, fun _ hzero => ?_⟩
    -- behind an empty position is no block
    obtain ⟨l, hl⟩ := hpre
    have hblock := htaken.grown.block
    rw [← hl, NeonixTruncations.blockAt_empty l hzero] at hblock
    exact htaken.grown.pos hblock.symm
  · rw [htaken.others z js hp hway, h z js hp]
    have hne : firstPart z js ≠ m := fun heq => hway (on_way hp hm heq)
    omega

/-! ## The zones the next parts take -/

/-- So many zones the parts from `m` to `p` take. -/
def takes (m p : Nat) : Nat := ∑ n ∈ Finset.Ico m p, firsts n

theorem takes_self (m : Nat) : takes m m = 0 := by
  rw [takes, Finset.Ico_self, Finset.sum_empty]

theorem takes_add (hmn : m ≤ n) (hnp : n ≤ p) : takes m p = takes m n + takes n p :=
  (Finset.sum_Ico_consecutive firsts hmn hnp).symm

theorem takes_next (m : Nat) : takes m (m + 1) = firsts m := by
  rw [takes, Nat.Ico_succ_singleton, Finset.sum_singleton]

/-- There are zones for the parts from `m` to `last`, and those of them that become index
    blocks are blank. -/
structure Room (s : Kernel) (sb : SuperDesc) (d : Place) (m last : Nat) : Prop where
  index : ∀ p, m ≤ p → p < last → ∀ c, ZoneFree (vol s sb d.dev) c →
    takes m p ≤ freeBefore (vol s sb d.dev) c →
    freeBefore (vol s sb d.dev) c + 1 < takes m p + firsts p →
    ∀ o < BLOCK_SIZE, s.disk d.dev c o = 0
  spare : Spare (vol s sb d.dev) (takes m last)

theorem Room.ready {last : Nat} (h : Room s sb d m last) (hm : m < last) :
    Ready s sb d (firsts m) where
  blank := fun c hc hlt => by
    refine h.index m Nat.le.refl hm c hc ?_ ?_
    · rw [takes_self]
      exact Nat.zero_le _
    · rwa [takes_self, Nat.zero_add]
  spare := by
    refine h.spare.mono ?_
    rw [takes_add (Nat.le_succ m) hm, takes_next]
    exact Nat.le_add_right ..

/-- Some parts have taken their zones. -/
theorem Room.after {last : Nat} (h : Room s sb d m last) (hmn : m ≤ n)
    (htook : Took sb d.dev (takes m n) s t) : Room t sb d n last where
  index := fun p hp hlast c hc hlo hhi o ho => by
    obtain ⟨hfree, hbefore⟩ := htook.free c hc
    have hsum := takes_add hmn hp
    rw [htook.bytes c hc o]
    exact h.index p (hmn.trans hp) hlast c hfree (by omega) (by omega) o ho
  spare := by
    by_cases hn : n ≤ last
    · refine htook.spare _ ?_
      rw [Nat.add_comm, ← takes_add hmn hn]
      exact h.spare
    · rw [takes, Finset.Ico_eq_empty_of_le (Nat.le_of_not_le hn), Finset.sum_empty]
      exact Or.inr ⟨[], List.nodup_nil, Nat.le_refl 0, fun j hj => absurd hj List.not_mem_nil⟩

/-- A file without holes on a mounted volume. -/
structure Dense (s : Kernel) (sb : SuperDesc) (d : Place) (i m : Nat) : Prop where
  located : Located s sb d i
  reserved : Reserved (vol s sb d.dev)
  tree : BlockTree s sb d
  filled : Filled s d m
  bound : m ≤ TOTAL_BLOCK

/-- What is not on the disk does not matter. -/
theorem Dense.of_disk (h : Dense s sb d i m) (hdisk : t.disk = s.disk) (hloc : Located t sb d i) :
    Dense t sb d i m := by
  have hvol : vol t sb d.dev = vol s sb d.dev := by rw [vol, vol, hdisk]
  have hat : ∀ z js, blockAt t d z js = blockAt s d z js := NeonixCreations.blockAt_disk hdisk
  refine ⟨hloc, ?_, ⟨fun z js hp hne => ?_, fun z js z' js' hp hp' hne heq => ?_⟩,
    fun z js hp => ?_, h.bound⟩
  · rw [hvol]
    exact h.reserved
  · rw [hat] at hne ⊢
    rw [hvol]
    exact h.tree.used z js hp hne
  · rw [hat] at hne heq
    rw [hat] at heq
    exact h.tree.once z js z' js' hp hp' hne heq
  · rw [hat]
    exact h.filled z js hp

/-- Stores outside the bitmap, the free zones and the ways to the parts. -/
theorem Dense.within {W : Nat → Nat → Prop} (h : Dense s sb d i m) (hw : Within d.dev W s t)
    (hW : ∀ b o, W b o → ¬ IsZmap sb b ∧ ¬ ZoneFree (vol s sb d.dev) b ∧ ¬ WayBytes s d b o) :
    Dense t sb d i m ∧ Took sb d.dev 0 s t := by
  have hat : ∀ z js, Position z js → blockAt t d z js = blockAt s d z js := fun z js hp =>
    blockAt_same (fun b o hway => hw.bytes b o fun hb => (hW b o hb).2.2 hway) hp
  obtain ⟨hmarks, -⟩ := hw.toDiffers.marks fun b o hb => (hW b o hb).1
  refine ⟨⟨h.located.of_disk hw.tables, hmarks.reserved h.reserved, h.tree.congr hmarks hat,
    fun z js hp => ?_, h.bound⟩, took_nothing hw fun b o hb => ⟨(hW b o hb).1, (hW b o hb).2.1⟩⟩
  rw [hat z js hp]
  exact h.filled z js hp

/-- A byte of the descriptor in front of its zones. -/
theorem Dense.head {b o x c : Nat} (h : Dense s sb d i m) (hx : x + c ≤ 14)
    (hb : At (d.add x) c b o) :
    ¬ IsZmap sb b ∧ ¬ ZoneFree (vol s sb d.dev) b ∧ ¬ WayBytes s d b o := by
  obtain ⟨rfl, hlo, hhi⟩ := hb
  change o < d.off + x + c at hhi
  refine ⟨h.located.place.not_zmap, fun hfree => dataZone_ne_desc hfree.1 h.located.place rfl, ?_⟩
  rintro (⟨-, hlo', -⟩ | hidx)
  · change d.off + 14 ≤ o at hlo'
    omega
  · exact dataZone_ne_desc ((private_of_tree h.tree).index _ hidx) h.located.place rfl

/-- A byte of a part. -/
theorem Dense.data {b : Nat} (h : Dense s sb d i m) (hn : n < TOTAL_BLOCK)
    (hb : b = blockOf s d n) (hne : b ≠ 0) (o : Nat) :
    ¬ IsZmap sb b ∧ ¬ ZoneFree (vol s sb d.dev) b ∧ ¬ WayBytes s d b o := by
  subst hb
  have hpriv := private_of_tree h.tree
  have hzone := hpriv.zones n hn hne
  refine ⟨dataZone_not_zmap hzone, fun hfree => ?_, ?_⟩
  · rw [blockOf_eq] at hne hfree
    exact not_used_of_free hfree (h.tree.used _ _ (position_of hn) hne)
  · rintro (⟨hblock, -⟩ | hidx)
    · exact dataZone_ne_desc hzone h.located.place hblock
    · exact hpriv.apart n hn hne hidx

/-- One call of `bmap` of a write that leaves no hole. -/
theorem Dense.bmap {last : Nat} (h : Dense s sb d i m) (hnm : n ≤ m) (hroom : Room s sb d m last)
    (hlast : n < last) (hrun : bmap i n true fuel s = .ok (r, u)) :
    Dense u sb d i (max m (n + 1)) ∧ Room u sb d (max m (n + 1)) last ∧
      blockOf u d n = r ∧ (m ≤ n → ZoneFree (vol s sb d.dev) r ∧
        freeBefore (vol s sb d.dev) r + 1 = firsts m ∧
        ∀ o, u.disk d.dev r o = s.disk d.dev r o) := by
  have hn := bmap_bound hrun
  by_cases hold : n < m
  · -- the part has a block
    have hne := (h.filled.part hn).mpr hold
    have hend : From never s (NeonixFileSystem.bmap i n true) fun r t =>
        t = s ∧ r = blockOf s (s.desc i) n :=
      bmap_mapped hn (by rw [h.located.desc]; exact h.located.device) (by rw [h.located.desc]; exact hne)
    obtain ⟨rfl, rfl⟩ := hend.of_ok rfl hrun
    rw [h.located.desc, max_eq_left hold]
    exact ⟨h, hroom, rfl, fun hle => absurd hold (Nat.not_lt.mpr hle)⟩
  · obtain rfl : n = m := by omega
    have hmissing := h.filled.missing hn
    have htaken := bmap_taken h.located h.reserved h.tree (hmissing ▸ hroom.ready hlast) hrun
    have hpos := htaken.grown.pos
    rw [hmissing] at htaken
    have hfirst : firsts n ≠ 0 := by
      rw [← hmissing]
      intro hzero
      have hheld : blockAt s d (zoneOf n) (slotsOn n) ≠ 0 := through_held hzero
      rw [← blockOf_eq] at hheld
      exact hold ((h.filled.part hn).mp hheld)
    rw [max_eq_right (Nat.le_succ n)]
    refine ⟨⟨h.located.of_disk htaken.grown.within.tables, htaken.grown.marks.reserved h.reserved,
      htaken.grown.tree, h.filled.next hn htaken, hn⟩, ?_, ?_, fun _ => htaken.last hfirst⟩
    · refine hroom.after (Nat.le_succ n) ?_
      rw [takes_next]
      exact htaken.took
    · rw [blockOf_eq]
      exact htaken.grown.block

/-! ## The loop of `inode_write` -/

/-- How many parts a file of a size has. -/
def parts (size : Nat) : Nat := (size + (BLOCK_SIZE - 1)) / BLOCK_SIZE

theorem lt_parts {x size : Nat} (h : x < size) : x / BLOCK_SIZE < parts size := by
  change x / 1024 < (size + 1023) / 1024
  omega

theorem parts_le {size : Nat} (h : size ≤ n * BLOCK_SIZE) : parts size ≤ n := by
  change size ≤ n * 1024 at h
  change (size + 1023) / 1024 ≤ n
  omega

/-- The zone that the next part takes is clear in front of byte `o` of the file. -/
def FrontClear (s : Kernel) (sb : SuperDesc) (d : Place) (m o : Nat) : Prop :=
  ∀ y < o, m ≤ y / BLOCK_SIZE → ∀ c, ZoneFree (vol s sb d.dev) c →
    freeBefore (vol s sb d.dev) c + 1 = firsts m → s.disk d.dev c (y % BLOCK_SIZE) = 0

/-- One turn of a write that leaves no hole. -/
theorem Dense.turn {nr last : Nat} (buf : Nat → Byte) (h : Dense s sb d i m)
    (hnear : o / BLOCK_SIZE ≤ m) (hroom : Room s sb d m last) (hlast : o / BLOCK_SIZE < last)
    (hfront : FrontClear s sb d m o) (hrun : NeonixFileSystem.bmap i (o / BLOCK_SIZE) true fuel s = .ok (nr, u))
    (hnr : nr ≠ 0) (hleft : 0 < left) (hv : v =
      storeChunk u i d.dev nr (o % BLOCK_SIZE) (chunk o left) (o + chunk o left) buf) :
    Dense v sb d i (max m (o / BLOCK_SIZE + 1)) ∧ Room v sb d (max m (o / BLOCK_SIZE + 1)) last ∧
      Stored d i o (o + chunk o left) buf s v ∧
      ∀ y < o, m ≤ y / BLOCK_SIZE → Has v d y ∧ byteAt v d y = 0 := by
  have hn := bmap_bound hrun
  obtain ⟨hu, hroomu, hblock, hnew⟩ := h.bmap hnear hroom hlast hrun
  have hstored := turn_stored buf h.located (private_of_tree h.tree) (private_of_tree hu.tree) hrun
    hnr hleft
  have hw := within_storeChunk nr (o % BLOCK_SIZE) (chunk o left) (o + chunk o left) buf hu.located.desc
  rw [← hv] at hstored hw
  have hout : ∀ b x, At (d.add 4) 4 b x ∨
      (b = nr ∧ o % BLOCK_SIZE ≤ x ∧ x < o % BLOCK_SIZE + chunk o left) →
      ¬ IsZmap sb b ∧ ¬ ZoneFree (vol u sb d.dev) b ∧ ¬ WayBytes u d b x := by
    rintro b x (hhead | ⟨rfl, -⟩)
    · exact hu.head (by decide) hhead
    · exact hu.data hn hblock.symm hnr x
  obtain ⟨hdense, htook⟩ := hu.within hw hout
  refine ⟨hdense, hroomu.after Nat.le.refl (by rwa [takes_self]), hstored, fun y hy hmy => ?_⟩
  -- the byte is in the block that was put in, in front of what is copied
  change o / 1024 ≤ m at hnear
  change m ≤ y / 1024 at hmy
  have hpart : y / BLOCK_SIZE = o / BLOCK_SIZE := show y / 1024 = o / 1024 by omega
  obtain ⟨hfree, hbefore, hbytes⟩ := hnew (show m ≤ o / 1024 by omega)
  have hway : blockOf v d (o / BLOCK_SIZE) = nr := by
    rw [blockOf_same (fun b x hb => hw.bytes b x fun hat => (hout b x hat).2.2 hb) hn, hblock]
  refine ⟨⟨by rwa [hpart], by rwa [hpart, hway]⟩, ?_⟩
  rw [byteAt, hpart, hway, hw.bytes, hbytes]
  · exact hfront y hy hmy nr hfree hbefore
  · rintro (⟨hb, -⟩ | ⟨-, hlo, -⟩)
    · exact dataZone_ne_desc hfree.1 h.located.place hb
    · change o % 1024 ≤ y % 1024 at hlo
      change y / 1024 = o / 1024 at hpart
      omega

/-- A turn begins with `bmap`. -/
theorem writeLoop_begins {offset : Int} {x : Int} (hleft : left ≠ 0)
    (hrun : writeLoop i (k + 1) offset left buf fuel s = .ok (x, t)) :
    ∃ nr u, NeonixFileSystem.bmap i (blockIn offset) true fuel s = .ok (nr, u) ∧ nr ≠ 0 := by
  rw [writeLoop, if_neg hleft] at hrun
  cases hmap : NeonixFileSystem.bmap i (blockIn offset) true fuel s with
  | error e =>
      change (NeonixFileSystem.bmap i (blockIn offset) true fuel s >>= _) = _ at hrun
      rw [hmap] at hrun
      cases hrun
  | ok r =>
      refine ⟨r.1, r.2, rfl, fun hzero => ?_⟩
      rw [bind_run hmap, assert, if_neg (not_not.mpr hzero)] at hrun
      cases hrun

/-- What a write of `left` bytes at `o` does that leaves no hole. -/
structure Written (sb : SuperDesc) (d : Place) (i m o left : Nat) (buf : Nat → Byte)
    (s t : Kernel) :
    Prop where
  dense : Dense t sb d i (max m (parts (o + left)))
  stored : Stored d i o (o + left) buf s t
  front : ∀ y < o, m ≤ y / BLOCK_SIZE → Has t d y ∧ byteAt t d y = 0

/-- The loop is over. -/
theorem writeLoop_done (turns : Nat) (offset : Int) (buf : Nat → Byte) :
    writeLoop i turns offset 0 buf fuel s = .ok (offset, s) := by
  cases turns with
  | zero => rfl
  | succ turns =>
      rw [writeLoop, if_pos rfl]
      rfl

/-- The loop leaves no hole. -/
theorem Dense.writeLoop {turns : Nat} {x : Int} (h : Dense s sb d i m) (hnear : o / BLOCK_SIZE ≤ m)
    (hroom : Room s sb d m (parts (o + left))) (hfront : FrontClear s sb d m o) (hleft : 0 < left)
    (ho : o < 2 ^ 31) (hturns : left ≤ turns)
    (hrun : NeonixFileData.writeLoop i turns o left buf fuel s = .ok (x, t)) :
    x = ((o + left : Nat) : Int) ∧ Written sb d i m o left buf s t := by
  induction turns generalizing s o left m buf with
  | zero => omega
  | succ turns ih =>
      obtain ⟨nr, u, hmap, hnr⟩ := writeLoop_begins (Nat.pos_iff_ne_zero.mp hleft) hrun
      rw [blockIn_nat ho] at hmap
      obtain ⟨hcpos, hchunk, hfit⟩ := chunk_pos (o := o) hleft
      have hlast : o / BLOCK_SIZE < parts (o + left) := lt_parts (by omega)
      have hend := chunk_bound (bmap_bound hmap) hleft
      have hu := (h.bmap hnear hroom hlast hmap).1.located
      obtain ⟨hv, hroomv, hstored, hgap⟩ := h.turn buf hnear hroom hlast hfront hmap hnr hleft rfl
      rw [writeLoop_turn turns buf hu.device hmap hnr hleft] at hrun
      generalize storeChunk u i d.dev nr (o % BLOCK_SIZE) (chunk o left) (o + chunk o left) buf = v at *
      have hB : BLOCK_SIZE = 1024 := rfl
      have hdef : chunk o left = min (1024 - o % 1024) left := rfl
      rw [hB] at hnear hlast
      by_cases hmore : left - chunk o left = 0
      · -- the last turn
        have hall : chunk o left = left := by omega
        rw [hmore, writeLoop_done, hall] at hrun
        obtain ⟨rfl, rfl⟩ := Prod.mk.inj (Except.ok.inj hrun)
        rw [hall] at hstored
        have hparts : parts (o + left) = o / BLOCK_SIZE + 1 := by
          change (o + left + 1023) / 1024 = o / 1024 + 1
          omega
        exact ⟨rfl, by rwa [hparts], hstored, hgap⟩
      · -- what is left begins with a part
        have hnext : (o + chunk o left) / 1024 = o / 1024 + 1 := by omega
        have hsum : o + chunk o left + (left - chunk o left) = o + left := by omega
        rw [← hsum] at hroomv
        obtain ⟨hx, hw⟩ := ih hv (by rw [hB]; omega) hroomv (fun y hy hmy => by
          change max m (o / 1024 + 1) ≤ y / 1024 at hmy
          omega) (by omega) hend (by omega) hrun
        rw [hsum] at hx
        refine ⟨hx, ?_, ?_, fun y hy hmy => ?_⟩
        · have hdense := hw.dense
          rw [hsum, hB, max_assoc, max_eq_right (show o / 1024 + 1 ≤ parts (o + left) from hlast)] at hdense
          exact hdense
        · refine hstored.trans ?_ (Nat.le_add_right ..) (by omega)
          have hrest := hw.stored
          rw [hsum] at hrest
          rwa [Nat.add_sub_cancel_left]
        · obtain ⟨hhas, hzero⟩ := hgap y hy hmy
          exact ⟨hw.stored.has_old hhas, (hw.stored.rest y hhas (by omega)).trans hzero⟩

/-- The time of the last change is stored. -/
theorem Written.setMtime (h : Written sb d i m o left buf s t) (x : BitVec 32) :
    Written sb d i m o left buf s (t.setMtime i x) := by
  have hloc := h.dense.located
  have hpriv := private_of_tree h.dense.tree
  obtain ⟨-, -, hway, hbytes⟩ := setMtime_same (x := x) hloc hpriv
  refine ⟨?_, h.stored.setMtime hloc hpriv, fun y hy hmy => ?_⟩
  · exact (h.dense.within (within_setMtime hloc.desc x) fun b o hb => h.dense.head (by decide) hb).1
  · obtain ⟨hhas, hzero⟩ := h.front y hy hmy
    exact ⟨⟨hhas.1, by rw [hway _ hhas.1]; exact hhas.2⟩, (hbytes y hhas).trans hzero⟩

theorem Dense.inodeWrite {r : Int} (h : Dense s sb d i m) (hnear : o / BLOCK_SIZE ≤ m)
    (hroom : Room s sb d m (parts (o + left))) (hfront : FrontClear s sb d m o) (hleft : 0 < left)
    (ho : o < 2 ^ 31) (hrun : NeonixFileData.inodeWrite i buf left o fuel s = .ok (r, t)) :
    r = left ∧ Written sb d i m o left buf s t := by
  rw [NeonixFileData.inodeWrite] at hrun
  change (assert (ISFILE (s.mode i)) >>= fun _ => NeonixFileData.writeLoop i left o left buf >>=
    fun last => do
      modify fun s => s.setMtime i s.time
      return int32 (last - (o : Int)) : Fs Int) fuel s = _ at hrun
  by_cases hfile : ISFILE (s.mode i)
  · rw [assert, if_pos hfile] at hrun
    change (NeonixFileData.writeLoop i left o left buf >>= fun last => do
      modify fun s => s.setMtime i s.time
      return int32 (last - (o : Int)) : Fs Int) fuel s = _ at hrun
    cases hloop : NeonixFileData.writeLoop i left o left buf fuel s with
    | error e =>
        change (NeonixFileData.writeLoop i left o left buf fuel s >>= _) = _ at hrun
        rw [hloop] at hrun
        cases hrun
    | ok x =>
        obtain ⟨last, u⟩ := x
        obtain ⟨rfl, hw⟩ := h.writeLoop hnear hroom hfront hleft ho Nat.le.refl hloop
        rw [bind_run hloop] at hrun
        obtain ⟨rfl, rfl⟩ := Prod.mk.inj (Except.ok.inj hrun)
        refine ⟨?_, hw.setMtime u.time⟩
        have hlt := (hw.stored.has (o + left - 1) (by omega) (by omega)).1
        change (o + left - 1) / 1024 < 262663 at hlt
        rw [show ((o + left : Nat) : Int) - (o : Int) = (left : Int) by omega, int32_nat (by omega)]
  · rw [assert, if_neg hfile] at hrun
    cases hrun

end NeonixDenseFiles
