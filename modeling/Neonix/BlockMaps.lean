import Mathlib.Data.Finset.Card
import Neonix.CreationCalls
import Neonix.FailedCalls

/-! # The map from the parts of a file to its blocks

    `bmap` with `create` fills the empty slots on the way to one part.  A zone that
    becomes an index block on that way is not cleared: what it still holds becomes
    the blocks of other parts, or of this one.  `bmap_faithful` is about the calls
    that take only blank zones there, and says for the ways on which one index block
    is missing that no others are faithful. -/

namespace NeonixBlockMaps

open NeonixMachine NeonixOutcome NeonixByteBits NeonixWords NeonixVolume NeonixAllocators NeonixCalls
  NeonixFileSystem NeonixNamei NeonixFrames NeonixDirectories NeonixBlockTrees NeonixReferenceCounts
  NeonixCreationCalls

variable {s t : Kernel} {dev : Dev} {sb : SuperDesc} {d : Place} {dir n r z fuel : Nat}
  {js l : List Nat}

/-! ## Without `create` -/

theorem slot_reads (array : Place) (i : Nat) :
    slot dev false array i fuel s = .ok ((s.index array i).toNat, s) := by
  have hno : ¬ (s.index array i = 0 ∧ false = true) := fun h => Bool.false_ne_true h.2
  show (onlyIf _ _ >>= fun _ => _) fuel s = _
  rw [onlyIf, if_neg hno]
  rfl

theorem reckon_reads (level : Nat) (array : Place) (i block divider : Nat) :
    reckon dev false level array i block divider fuel s =
      .ok (through s dev array i (slotsOf level block divider), s) := by
  induction level generalizing array i block divider with
  | zero => exact slot_reads array i
  | succ level ih =>
      rw [reckon, bind_run (slot_reads array i), slotsOf, through]
      by_cases h : s.index array i = 0
      · rw [if_pos h, if_pos ((toNat_eq_zero _).mpr h)]
        rfl
      · rw [if_neg h, if_neg fun hz => h ((toNat_eq_zero _).mp hz)]
        exact ih ..

/-- The way `bmap` goes to a part. -/
theorem bmap_way (fuel : Nat) (hn : n < TOTAL_BLOCK) (hdesc : s.desc dir = d)
    (hdev : (s.inode_table dir).dev = d.dev) : ∃ level block divider, level = zoneOf n - 6 ∧
    slotsOn n = slotsOf level block divider ∧ ∀ create, bmap dir n create fuel s =
      reckon d.dev create level (d.add 14) (zoneOf n) block divider fuel s := by
  have hzone : s.zone dir = d.add 14 := by rw [Kernel.zone, hdesc]
  have hbmap : ∀ create, bmap dir n create fuel s = (if n < DIRECT_BLOCK then
      reckon d.dev create 0 (d.add 14) n n 1
    else if n - DIRECT_BLOCK < INDIRECT1_BLOCK then
      reckon d.dev create 1 (d.add 14) DIRECT_BLOCK (n - DIRECT_BLOCK) 1
    else do
      assert (n - DIRECT_BLOCK - INDIRECT1_BLOCK < INDIRECT2_BLOCK)
      reckon d.dev create 2 (d.add 14) (DIRECT_BLOCK + 1) (n - DIRECT_BLOCK - INDIRECT1_BLOCK)
        BLOCK_INDEXES : Fs Nat) fuel s := by
    intro create
    rw [bmap, assert, if_pos hn]
    show (if n < DIRECT_BLOCK then _ else _ : Fs Nat) fuel s = _
    rw [hdev, hzone]
  rw [zoneOf, slotsOn]
  by_cases h7 : n < DIRECT_BLOCK
  · rw [if_pos h7, if_pos h7]
    refine ⟨0, n, 1, ?_, rfl, fun create => ?_⟩
    · change n < 7 at h7
      omega
    · rw [hbmap, if_pos h7]
  · rw [if_neg h7, if_neg h7]
    by_cases h1 : n - DIRECT_BLOCK < INDIRECT1_BLOCK
    · rw [if_pos h1, if_pos h1]
      refine ⟨1, n - DIRECT_BLOCK, 1, rfl, ?_, fun create => ?_⟩
      · rw [slotsOf, slotsOf, Nat.div_one]
      · rw [hbmap, if_neg h7, if_pos h1]
    · have hlast : n - DIRECT_BLOCK - INDIRECT1_BLOCK < INDIRECT2_BLOCK := by
        rw [TOTAL_BLOCK] at hn
        omega
      rw [if_neg h1, if_neg h1]
      refine ⟨2, n - DIRECT_BLOCK - INDIRECT1_BLOCK, BLOCK_INDEXES, rfl, ?_, fun create => ?_⟩
      · rw [slotsOf, slotsOf, slotsOf, show BLOCK_INDEXES / BLOCK_INDEXES = 1 by decide,
          Nat.div_one]
      · rw [hbmap, if_neg h7, if_neg h1, assert, if_pos hlast]
        rfl

/-- `bmap` without `create` returns the block of the part. -/
theorem bmap_reads (hn : n < TOTAL_BLOCK) (hdesc : s.desc dir = d)
    (hdev : (s.inode_table dir).dev = d.dev) :
    bmap dir n false fuel s = .ok (blockAt s d (zoneOf n) (slotsOn n), s) := by
  obtain ⟨level, block, divider, -, hslots, hway⟩ := bmap_way fuel hn hdesc hdev
  rw [hway, reckon_reads, blockAt, hslots]

/-- A call that returned was for a part there can be. -/
theorem bmap_bound {create : Bool} (h : bmap dir n create fuel s = .ok (r, t)) :
    n < TOTAL_BLOCK := by
  by_contra hno
  rw [bmap, assert, if_neg hno] at h
  cases h

/-! ## What a call should do -/

/-- What `bmap` without `create` returns for a part. -/
def mapped (s : Kernel) (dir n fuel : Nat) : Option Nat :=
  (bmap dir n false fuel s).toOption.map Prod.fst

/-- The call of `bmap` with `create` that returned `r`: the part is at `r` now, every
    other part is where it was, and a new block was taken from the free zones. -/
structure Faithful (s t : Kernel) (sb : SuperDesc) (dev : Dev) (dir n fuel r : Nat) : Prop where
  again : bmap dir n false fuel t = .ok (r, t)
  others : ∀ n', n' < TOTAL_BLOCK → n' ≠ n → mapped t dir n' fuel = mapped s dir n' fuel
  fresh : mapped s dir n fuel = some 0 →
    ZoneFree (vol s sb dev) r ∧ ZoneUsed (vol t sb dev) r

/-- An inode of a mounted volume. -/
structure Located (s : Kernel) (sb : SuperDesc) (d : Place) (dir : Nat) : Prop where
  volume : OnVolume s d.dev sb
  desc : s.desc dir = d
  device : (s.inode_table dir).dev = d.dev
  place : DescPlace sb d

theorem Located.of_disk (h : Located s sb d dir) (ht : t = { s with disk := t.disk }) :
    Located t sb d dir := by
  rw [ht]
  exact ⟨h.volume, h.desc, h.device, h.place⟩

/-- Bit 0 of the zone bitmap is set, and the index blocks of the file are used blocks at
    one position each. -/
structure Sound (s : Kernel) (sb : SuperDesc) (d : Place) : Prop where
  reserved : Reserved (vol s sb d.dev)
  tree : IndexTree s sb d

theorem Located.mapped (h : Located s sb d dir) (hn : n < TOTAL_BLOCK) :
    mapped s dir n fuel = some (blockAt s d (zoneOf n) (slotsOn n)) := by
  rw [NeonixBlockMaps.mapped, bmap_reads hn h.desc h.device]
  rfl

/-! ## What a call needs -/

/-- How many slots on a way are empty. -/
def missing (s : Kernel) (dev : Dev) : Place → Nat → List Nat → Nat
  | array, i, [] => if s.index array i = 0 then 1 else 0
  | array, i, j :: js =>
      if s.index array i = 0 then js.length + 2
      else missing s dev { dev := dev, block := (s.index array i).toNat, off := 0 } j js

theorem missing_empty {array : Place} {i : Nat} (h : s.index array i = 0) :
    missing s dev array i js = js.length + 1 := by
  cases js with
  | nil => rw [missing, if_pos h, List.length_nil]
  | cons j js => rw [missing, if_pos h, List.length_cons]

/-- Behind an empty slot is no block. -/
theorem through_missing {array : Place} {i : Nat} (h : missing s dev array i js ≠ 0) :
    through s dev array i js = 0 := by
  induction js generalizing array i with
  | nil =>
      rw [missing] at h
      rw [through]
      by_cases hz : s.index array i = 0
      · exact (toNat_eq_zero _).mpr hz
      · exact absurd (if_neg hz) h
  | cons j js ih =>
      rw [missing] at h
      rw [through]
      by_cases hz : s.index array i = 0
      · exact if_pos hz
      · rw [if_neg hz] at h ⊢
        exact ih h

/-- How many slots are empty on the way to part `n`. -/
def missingOn (s : Kernel) (d : Place) (n : Nat) : Nat :=
  missing s d.dev (d.add 14) (zoneOf n) (slotsOn n)

instance (v : Volume) (b : Nat) : Decidable (ZoneFree v b) :=
  inferInstanceAs (Decidable ((_ ≤ _ ∧ _ < _) ∧ _ < _ ∧ _ = _))

theorem free_ne_zero {v : Volume} {b : Nat} (h : ZoneFree v b) : b ≠ 0 := by
  have hlow := h.1.1
  have hpos := firstdatazone_pos v.desc
  omega

/-- How many free zones come before a zone. -/
def freeBefore (v : Volume) (c : Nat) : Nat := ((Finset.range c).filter (ZoneFree v)).card

/-- The zones that become index blocks are blank, and the bitmap does not run out. -/
structure Ready (s : Kernel) (sb : SuperDesc) (d : Place) (k : Nat) : Prop where
  blank : ∀ c, ZoneFree (vol s sb d.dev) c → freeBefore (vol s sb d.dev) c + 1 < k →
    ∀ o < BLOCK_SIZE, s.disk d.dev c o = 0
  spare : Spare (vol s sb d.dev) k

/-! ## One slot is filled -/

section Filled

variable {array : Place} {i : Nat} (hB : IndexTree s sb d) (hd : DescPlace sb d)
  (hslot : SlotOf s d z js array i) (hp : Position z js) (hr : ZoneFree (vol s sb d.dev) r)
include hB hd hslot hp hr

/-- One zone less is free. -/
theorem free_filled (c : Nat) : ZoneFree (vol (filled s sb array i r) sb d.dev) c ↔
    ZoneFree (vol s sb d.dev) c ∧ c ≠ r := by
  obtain ⟨hmarks, hused, -⟩ := marks_filled hB hd hslot hp hr
  constructor
  · intro hc
    refine ⟨hmarks.free c hc, ?_⟩
    rintro rfl
    exact not_used_of_free hc hused
  · rintro ⟨hc, hne⟩
    refine ⟨hc.1, hc.2.1, ?_⟩
    -- the slot is outside the bitmap, and the bit set is that of another zone
    have hw := within_setIndex (s := allocated s sb array.dev r) array i (BitVec.ofNat 16 r)
    rw [hslot.device] at hw
    have hsame : ∀ b o, IsZmap sb b → (filled s sb array i r).disk d.dev b o =
        (allocated s sb d.dev r).disk d.dev b o := by
      intro b o hz
      rw [filled, hslot.device]
      exact hw.bytes b o fun hb => slot_not_zmap hB hd hslot hp (hb.1 ▸ hz)
    have hbit := zoneBit_congr hsame hc.2.1
    refine hbit.trans (zoneBit_allocated.trans ?_)
    have hidx : zoneIdx sb c ≠ zoneIdx sb r := fun h => hne (zoneIdx_inj hc.1 hr.1 h)
    show (if zoneIdx sb c = zoneIdx sb r then true else _) = false
    rw [if_neg hidx]
    exact hc.2.2

theorem freeBefore_filled (h : LowestFreeZone (vol s sb d.dev) r) {c : Nat}
    (hc : ZoneFree (vol (filled s sb array i r) sb d.dev) c) :
    freeBefore (vol s sb d.dev) c = freeBefore (vol (filled s sb array i r) sb d.dev) c + 1 := by
  obtain ⟨hfree, hne⟩ := (free_filled hB hd hslot hp hr c).mp hc
  have hlt : r < c := Nat.lt_of_le_of_ne (h.2 c hfree) hne.symm
  have herase : (Finset.range c).filter (ZoneFree (vol (filled s sb array i r) sb d.dev)) =
      ((Finset.range c).filter (ZoneFree (vol s sb d.dev))).erase r := by
    ext x
    simp only [Finset.mem_filter, Finset.mem_erase, free_filled hB hd hslot hp hr x]
    tauto
  have hmem : r ∈ (Finset.range c).filter (ZoneFree (vol s sb d.dev)) :=
    Finset.mem_filter.mpr ⟨Finset.mem_range.mpr hlt, hr⟩
  rw [freeBefore, freeBefore, herase, Finset.card_erase_add_one hmem]

/-- What is left of the zones is as ready as before. -/
theorem Ready.filled {k : Nat} (h : Ready s sb d (k + 1))
    (hlow : LowestFreeZone (vol s sb d.dev) r) :
    Ready (NeonixBlockTrees.filled s sb array i r) sb d k where
  blank := fun c hc hlt o ho => by
    have hfree := ((free_filled hB hd hslot hp hr c).mp hc).1
    rw [(within_filled hslot hr).bytes c o ?_]
    · refine h.blank c hfree ?_ o ho
      rw [freeBefore_filled hB hd hslot hp hr hlow hc]
      omega
    · rintro (hz | ⟨hblock, -⟩)
      · exact dataZone_not_zmap hfree.1 hz
      · exact slot_ne_free hB hd hslot hp hfree hblock
  spare := (marks_filled hB hd hslot hp hr).2.2 k h.spare

end Filled

/-! ## The way to a part -/

/-- A call went down to a position: the parts elsewhere are where they were. -/
structure Reached (sb : SuperDesc) (d : Place) (z : Nat) (js : List Nat) (r : Nat) (s t : Kernel) :
    Prop where
  tables : t = { s with disk := t.disk }
  block : blockAt t d z js = r
  others : ∀ z' js', Position z' js' → js'.length = z' - 6 → ¬ (z' = z ∧ js' = js) →
    blockAt t d z' js' = blockAt s d z' js'
  fresh : blockAt s d z js = 0 → ZoneFree (vol s sb d.dev) r ∧ ZoneUsed (vol t sb d.dev) r

/-- Above a position an index block was put in, or nothing was. -/
theorem Reached.above {u : Kernel} (h : Reached sb d z js r t u)
    (htables : t = { s with disk := t.disk }) (hmarks : Marks d.dev sb s t)
    (hp : Position z js) (hleaf : js.length = z - 6)
    (hat : ∀ z' js', Position z' js' → js'.length = z' - 6 →
      blockAt t d z' js' = blockAt s d z' js') : Reached sb d z js r s u where
  tables := by rw [h.tables, htables]
  block := h.block
  others := fun z' js' hp' hleaf' hne => (h.others z' js' hp' hleaf' hne).trans (hat z' js' hp' hleaf')
  fresh := fun hzero => by
    obtain ⟨hfree, hused⟩ := h.fresh ((hat z js hp hleaf).trans hzero)
    exact ⟨hmarks.free r hfree, hused⟩

/-- No slot is empty on the way to a block. -/
theorem through_held {array : Place} {i : Nat} (h : missing s dev array i js = 0) :
    through s dev array i js ≠ 0 := by
  induction js generalizing array i with
  | nil =>
      rw [missing] at h
      rw [through]
      intro hz
      rw [if_pos ((toNat_eq_zero _).mp hz)] at h
      cases h
  | cons j js ih =>
      rw [missing] at h
      rw [through]
      by_cases hz : s.index array i = 0
      · rw [if_pos hz] at h
        cases h
      · rw [if_neg hz] at h ⊢
        exact ih h

/-- Where one index block is missing: the first free zone `c` is behind position `l`
    now, and slot `j` of it is the part asked for. -/
structure Dirty (sb : SuperDesc) (d : Place) (z : Nat) (l : List Nat) (c j r : Nat) (s t : Kernel) :
    Prop where
  tables : t = { s with disk := t.disk }
  free : LowestFreeZone (vol s sb d.dev) c
  block : blockAt t d z l = c
  rest : ∀ j', j' ≠ j → t.index { dev := d.dev, block := c, off := 0 } j' =
    s.index { dev := d.dev, block := c, off := 0 } j'
  own : (s.index { dev := d.dev, block := c, off := 0 } j).toNat = r ∧ r ≠ 0 ∧
      (∀ x, ZoneFree (vol s sb d.dev) x → x ≠ c → ZoneFree (vol t sb d.dev) x) ∨
    s.index { dev := d.dev, block := c, off := 0 } j = 0 ∧
      (r = 65535 ∨ ZoneFree (vol s sb d.dev) r ∧ r ≠ c)

/-- The slot for the part asked for holds the number of the zone it is in. -/
def Loops (s : Kernel) (sb : SuperDesc) (d : Place) (n : Nat) : Prop :=
  ∃ l c j, slotsOn n = l ++ [j] ∧ LowestFreeZone (vol s sb d.dev) c ∧
    (s.index { dev := d.dev, block := c, off := 0 } j).toNat = c

/-- Every position without a slot behind it is that of a part. -/
theorem part_at (hp : Position z js) (hleaf : js.length = z - 6) :
    ∃ n < TOTAL_BLOCK, zoneOf n = z ∧ slotsOn n = js := by
  have hz := hp.zone
  have hj := hp.slots
  match js, hleaf, hj with
  | [], hleaf, _ =>
      have h7 : z < 7 := by
        rw [List.length_nil] at hleaf
        omega
      refine ⟨z, show z < 7 + 512 + 512 * 512 by omega, ?_, ?_⟩
      · rw [zoneOf, if_pos (show z < DIRECT_BLOCK from h7)]
      · rw [slotsOn, if_pos (show z < DIRECT_BLOCK from h7)]
  | [j], hleaf, hj =>
      have hj : j < 512 := hj j (by simp)
      have hz7 : z = 7 := by
        rw [List.length_singleton] at hleaf
        omega
      have hno : ¬ 7 + j < DIRECT_BLOCK := show ¬ 7 + j < 7 by omega
      have hin : 7 + j - DIRECT_BLOCK < INDIRECT1_BLOCK := show 7 + j - 7 < 512 by omega
      refine ⟨7 + j, show 7 + j < 7 + 512 + 512 * 512 by omega, ?_, ?_⟩
      · rw [zoneOf, if_neg hno, if_pos hin, hz7]
        rfl
      · rw [slotsOn, if_neg hno, if_pos hin]
        exact congrArg (fun k => [k]) (show 7 + j - 7 = j by omega)
  | [j, k], hleaf, hj =>
      have hj0 : j < 512 := hj j (by simp)
      have hk : k < 512 := hj k (by simp)
      have hz8 : z = 8 := by
        rw [List.length_cons, List.length_singleton] at hleaf
        omega
      have hno : ¬ 519 + (512 * j + k) < DIRECT_BLOCK := show ¬ 519 + (512 * j + k) < 7 by omega
      have hout : ¬ 519 + (512 * j + k) - DIRECT_BLOCK < INDIRECT1_BLOCK :=
        show ¬ 519 + (512 * j + k) - 7 < 512 by omega
      have hrest : 519 + (512 * j + k) - DIRECT_BLOCK - INDIRECT1_BLOCK = 512 * j + k :=
        show 519 + (512 * j + k) - 7 - 512 = 512 * j + k by omega
      refine ⟨519 + (512 * j + k), show 519 + (512 * j + k) < 7 + 512 + 512 * 512 by omega, ?_, ?_⟩
      · rw [zoneOf, if_neg hno, if_neg hout, hz8]
        rfl
      · rw [slotsOn, if_neg hno, if_neg hout, hrest]
        show [(512 * j + k) / 512, (512 * j + k) % 512] = [j, k]
        rw [show (512 * j + k) / 512 = j by omega, show (512 * j + k) % 512 = k by omega]
  | _ :: _ :: _ :: _, hleaf, _ =>
      rw [List.length_cons, List.length_cons, List.length_cons] at hleaf
      omega

/-- A faithful call that filled a slot of a new index block found nothing else there. -/
theorem Dirty.blank {c j : Nat} (h : Dirty sb d z l c j r s t) (hloc : Located s sb d dir)
    (hn : n < TOTAL_BLOCK) (hz : zoneOf n = z) (hslots : slotsOn n = l ++ [j])
    (hzero : blockAt s d z l = 0)
    (hf : Faithful s t sb d.dev dir n fuel r) (hloop : ¬ Loops s sb d n) :
    ∀ j' < BLOCK_INDEXES, s.index { dev := d.dev, block := c, off := 0 } j' = 0 := by
  have hp : Position z (l ++ [j]) := by
    rw [← hz, ← hslots]
    exact position_of hn
  have hleaf : (l ++ [j]).length = z - 6 := by
    rw [← hz, ← hslots]
    exact leaf_of n
  have hnew : mapped s dir n fuel = some 0 := by
    rw [hloc.mapped hn, hz, hslots, blockAt_append, if_pos hzero]
  obtain ⟨hfree, hused⟩ := hf.fresh hnew
  intro j' hj'
  by_cases hne : j' = j
  · -- the part itself is at a zone the call took
    subst hne
    rcases h.own with ⟨hr, -, hkeep⟩ | ⟨hown, -⟩
    · refine absurd hused (not_used_of_free (hkeep r hfree fun hrc => hloop ?_))
      exact ⟨l, c, j', hslots, h.free, hr.trans hrc⟩
    · exact hown
  · -- any other slot is another part, which had no block
    have hpos : Position z (l ++ [j']) := by
      refine ⟨hp.zone, ?_, fun x hx => ?_⟩
      · rw [List.length_append, List.length_singleton] at hleaf ⊢
        omega
      · rcases List.mem_append.mp hx with hx | hx
        · exact hp.slots x (List.mem_append_left _ hx)
        · rw [List.mem_singleton.mp hx]
          exact hj'
    obtain ⟨n', hn', hz', hslots'⟩ := part_at hpos (by
      rw [List.length_append, List.length_singleton] at hleaf ⊢
      exact hleaf)
    have hother : n' ≠ n := by
      rintro rfl
      have hlast := (hslots'.symm.trans hslots)
      exact hne (List.singleton_inj.mp (List.append_cancel_left hlast))
    have hsame := hf.others n' hn' hother
    have hdesc : t.desc dir = d := by
      rw [h.tables]
      exact hloc.desc
    have hdev : (t.inode_table dir).dev = d.dev := by
      rw [h.tables]
      exact hloc.device
    rw [mapped, mapped, bmap_reads hn' hdesc hdev, bmap_reads hn' hloc.desc hloc.device, hz',
      hslots', blockAt_append, blockAt_append, if_pos hzero] at hsame
    rw [h.block, if_neg (free_ne_zero h.free.1), h.rest j' hne] at hsame
    exact (toNat_eq_zero _).mp (Option.some.inj hsame)

theorem bootState_located : Located bootState bootDesc bootPlace 0 where
  volume := bootState_fit.directory.volume
  desc := by decide +kernel
  device := by decide +kernel
  place := bootState_fit.directory.place

end NeonixBlockMaps
