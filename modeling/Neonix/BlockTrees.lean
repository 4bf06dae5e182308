import Mathlib.Data.List.Induction
import Neonix.Allocators
import Neonix.Directories
import Neonix.Frames

/-! # The blocks of a file

    The zone slots of an inode and the slots of the index blocks behind them are
    the positions of a tree.  In a `BlockTree` every block stands at one position
    and is marked used.  `bmap` with `create` fills the empty slots on the way to
    one position with zones that were free (`bmap_create`), as long as what it
    takes for an index block is blank. -/

namespace NeonixBlockTrees

open NeonixMachine NeonixOutcome NeonixByteBits NeonixWords NeonixVolume NeonixAllocators NeonixCalls
  NeonixFileSystem NeonixNamei NeonixFrames NeonixDirectories

variable {s t u : Kernel} {dev : Dev} {W W' : Nat → Nat → Prop} {sb : SuperDesc} {d : Place}
  {z : Nat} {js : List Nat}

/-! ## Stores to some bytes of a device -/

/-- The disks differ on one device at most, and there only in bytes of `W`. -/
structure Differs (dev : Dev) (W : Nat → Nat → Prop) (s t : Kernel) : Prop where
  other : ∀ e, e ≠ dev → t.disk e = s.disk e
  bytes : ∀ b o, ¬ W b o → t.disk dev b o = s.disk dev b o

theorem Differs.of_disk (h : t.disk = s.disk) : Differs dev W s t :=
  ⟨fun _ _ => by rw [h], fun _ _ _ => by rw [h]⟩

theorem Differs.mono (h : Differs dev W s t) (hW : ∀ b o, W b o → W' b o) : Differs dev W' s t :=
  ⟨h.other, fun b o hn => h.bytes b o fun hb => hn (hW b o hb)⟩

theorem Differs.trans (h : Differs dev W s t) (h' : Differs dev W t u) : Differs dev W s u :=
  ⟨fun e he => (h'.other e he).trans (h.other e he),
    fun b o hn => (h'.bytes b o hn).trans (h.bytes b o hn)⟩

/-- Besides, nothing but the disks differs. -/
structure Within (dev : Dev) (W : Nat → Nat → Prop) (s t : Kernel) : Prop extends
    Differs dev W s t where
  tables : t = { s with disk := t.disk }

theorem Within.refl : Within dev W s s := ⟨.of_disk rfl, rfl⟩

theorem Within.mono (h : Within dev W s t) (hW : ∀ b o, W b o → W' b o) : Within dev W' s t :=
  ⟨h.toDiffers.mono hW, h.tables⟩

theorem Within.trans (h : Within dev W s t) (h' : Within dev W t u) : Within dev W s u := by
  refine ⟨h.toDiffers.trans h'.toDiffers, ?_⟩
  rw [h'.tables, h.tables]

/-- The `n` bytes from a pointer on. -/
def At (p : Place) (n b o : Nat) : Prop := b = p.block ∧ p.off ≤ o ∧ o < p.off + n

theorem within_setBlock {b : Nat} {data : Bytes} (h : ∀ o, ¬ W b o → data o = s.disk dev b o) :
    Within dev W s (s.setBlock dev b data) := by
  refine ⟨⟨fun e he => Function.update_of_ne he .., fun b' o hn => ?_⟩, rfl⟩
  show Function.update s.disk dev (Function.update (s.disk dev) b data) dev b' o = _
  rw [Function.update_self]
  by_cases hb : b' = b
  · subst hb
    rw [Function.update_self]
    exact h o hn
  · rw [Function.update_of_ne hb]

theorem putU16_other {b : Bytes} {k o : Nat} {x : BitVec 16} (h : o ≠ k) (h' : o ≠ k + 1) :
    putU16 b k x o = b o := by
  rw [putU16, NeonixWords.putU8, NeonixWords.putU8, if_neg h', if_neg h]

theorem u16At_putU16 (b : Bytes) (k : Nat) (x : BitVec 16) : u16At (putU16 b k x) k = x := by
  have h0 : putU16 b k x k = x.setWidth 8 :=
    (if_neg (Nat.ne_of_lt k.lt_succ_self)).trans (if_pos rfl)
  have h1 : putU16 b k x (k + 1) = (x >>> 8).setWidth 8 := if_pos rfl
  rw [u16At, h0, h1]
  refine BitVec.eq_of_getLsbD_eq fun i hi => ?_
  rw [BitVec.getLsbD_append]
  by_cases h8 : i < 8
  · simp [h8]
  · have h : 8 + (i - 8) = i := by omega
    simp [h8, h]
    omega

theorem within_putU8 (p : Place) (x : Byte) : Within p.dev (At p 1) s (s.putU8 p x) :=
  within_setBlock fun o hn => if_neg fun ho => hn ⟨rfl, by omega, by omega⟩

theorem within_putU16 (p : Place) (x : BitVec 16) : Within p.dev (At p 2) s (s.putU16 p x) :=
  within_setBlock fun o hn => putU16_other (fun ho => hn ⟨rfl, by omega, by omega⟩)
    fun ho => hn ⟨rfl, by omega, by omega⟩

theorem within_putU32 (p : Place) (x : BitVec 32) : Within p.dev (At p 4) s (s.putU32 p x) := by
  refine within_setBlock fun o hn => ?_
  have hout : ∀ k < 4, o ≠ p.off + k := fun k hk ho => hn ⟨rfl, by omega, by omega⟩
  exact (putU16_other (hout 2 (by omega)) (hout 3 (by omega))).trans
    (putU16_other (hout 0 (by omega)) (hout 1 (by omega)))

theorem within_setIndex (array : Place) (i : Nat) (x : BitVec 16) :
    Within array.dev (At (array.add (2 * i)) 2) s (s.setIndex array i x) :=
  within_putU16 (array.add (2 * i)) x

theorem within_setBytes (p : Place) {f : Bytes → Bytes} {n : Nat}
    (hf : ∀ b k, n ≤ k → f b k = b k) : Within p.dev (At p n) s (s.setBytes p f) := by
  refine within_setBlock fun o hn => ?_
  by_cases ho : o < p.off
  · rw [if_pos ho]
  · rw [if_neg ho]
    by_cases hin : o - p.off < n
    · exact absurd ⟨rfl, by omega, by omega⟩ hn
    · rw [hf _ _ (by omega), Kernel.bytes, show p.off + (o - p.off) = o by omega]

theorem index_congr {array : Place} {i : Nat}
    (h : ∀ k, k < 2 → t.disk array.dev array.block (array.off + (2 * i + k)) =
      s.disk array.dev array.block (array.off + (2 * i + k))) : t.index array i =
      s.index array i := by
  rw [Kernel.index, Kernel.index, u16At, u16At, Kernel.bytes, Kernel.bytes]
  have h0 := h 0 (by omega)
  have h1 := h 1 (by omega)
  rw [Nat.add_zero] at h0
  exact congrArg₂ (· ++ ·) h1 h0

theorem index_setIndex (array : Place) (i : Nat) (x : BitVec 16) :
    (s.setIndex array i x).index array i = x := by
  have hbytes : ∀ k, (s.setIndex array i x).bytes array (2 * i + k) =
      putU16 (s.disk array.dev array.block) (array.off + 2 * i) x (array.off + 2 * i + k) := by
    intro k
    show Function.update s.disk array.dev (Function.update (s.disk array.dev) array.block _)
      array.dev array.block (array.off + (2 * i + k)) = _
    rw [Function.update_self, Function.update_self, Nat.add_assoc]
    rfl
  have h0 := hbytes 0
  rw [Nat.add_zero, Nat.add_zero] at h0
  rw [Kernel.index, u16At, hbytes 1, h0]
  exact u16At_putU16 ..

/-! ## Regions of a volume -/

/-- The device is mounted, with that super block. -/
def OnVolume (s : Kernel) (dev : Dev) (sb : SuperDesc) : Prop :=
  ∃ k, getSuper s dev = some k ∧ (s.super_table k).desc = sb

/-- The volume on a device. -/
def vol (s : Kernel) (sb : SuperDesc) (dev : Dev) : Volume := { desc := sb, disk := s.disk dev }

/-- A block of the zone bitmap. -/
def IsZmap (sb : SuperDesc) (b : Nat) : Prop :=
  2 + sb.imap_blocks ≤ b ∧ b < 2 + sb.imap_blocks + sb.zmap_blocks

/-- The place of a descriptor: a slot of 32 bytes of an inode block. -/
structure DescPlace (sb : SuperDesc) (d : Place) : Prop where
  low : 2 + sb.imap_blocks + sb.zmap_blocks ≤ d.block
  high : d.block < sb.firstdatazone
  slot : ∃ r, d.off = 32 * r

theorem DescPlace.not_zmap (h : DescPlace sb d) : ¬ IsZmap sb d.block :=
  fun hz => absurd hz.2 (Nat.not_lt.mpr h.low)

theorem dataZone_not_zmap {b : Nat} (h : IsDataZone sb b) : ¬ IsZmap sb b := by
  have hl := Nat.le_of_add_right_le sb.layout
  have h1 := h.1
  intro hz
  have h2 := hz.2
  omega

theorem dataZone_ne_desc {b : Nat} (h : IsDataZone sb b) (hd : DescPlace sb d) : b ≠ d.block := by
  have h1 := h.1
  have h2 := hd.high
  omega

theorem OnVolume.within (h : OnVolume s dev sb) {e : Dev} (hw : Within e W s t) :
    OnVolume t dev sb := by
  rw [hw.tables]
  exact h

/-- Bits of the zone bitmap whose blocks are the same. -/
theorem zoneBit_congr (h : ∀ b o, IsZmap sb b → t.disk dev b o = s.disk dev b o) {j : Nat}
    (hj : InZoneMap sb j) : zoneBit (vol t sb dev) j = zoneBit (vol s sb dev) j := by
  have hB : BLOCK_BITS = 8192 := rfl
  have hblock : IsZmap sb ((zmaps sb).block (j / BLOCK_BITS)) := by
    have hin : j < BLOCK_BITS * sb.zmap_blocks := hj
    refine ⟨Nat.le_add_right .., ?_⟩
    show 2 + sb.imap_blocks + j / BLOCK_BITS < _
    rw [hB] at hin ⊢
    omega
  show bitAt (t.disk dev _) _ = bitAt (s.disk dev _) _
  exact congrArg (bitAt · _) (funext fun o => h _ o hblock)

/-- Bit 0 of the zone bitmap, which stands for no zone, is set. -/
def Reserved (v : Volume) : Prop := InZoneMap v.desc 0 → zoneBit v 0 = true

/-- What is marked used stays so, and nothing else becomes free. -/
structure Marks (dev : Dev) (sb : SuperDesc) (s t : Kernel) : Prop where
  used : ∀ b, ZoneUsed (vol s sb dev) b → ZoneUsed (vol t sb dev) b
  free : ∀ b, ZoneFree (vol t sb dev) b → ZoneFree (vol s sb dev) b
  reserved : Reserved (vol s sb dev) → Reserved (vol t sb dev)

theorem Marks.refl : Marks dev sb s s := ⟨fun _ h => h, fun _ h => h, fun h => h⟩

theorem Marks.trans (h : Marks dev sb s t) (h' : Marks dev sb t u) : Marks dev sb s u :=
  ⟨fun b hb => h'.used b (h.used b hb), fun b hb => h.free b (h'.free b hb),
    fun hr => h'.reserved (h.reserved hr)⟩

/-- So many bits of the zone bitmap are clear, or a full bitmap stops `balloc`. -/
def Spare (v : Volume) (n : Nat) : Prop :=
  v.desc.zmap_blocks < ZMAP_NR ∨
    ∃ l : List Nat, l.Nodup ∧ n ≤ l.length ∧ ∀ j ∈ l, InZoneMap v.desc j ∧ zoneBit v j = false

theorem Spare.mono {v : Volume} {m n : Nat} (h : Spare v n) (hm : m ≤ n) : Spare v m :=
  h.imp id fun ⟨l, hl, hn, hj⟩ => ⟨l, hl, hm.trans hn, hj⟩

/-- Stores outside the zone bitmap leave the marks as they are. -/
theorem Differs.marks (h : Differs dev W s t) (hW : ∀ b o, W b o → ¬ IsZmap sb b) :
    Marks dev sb s t ∧ ∀ n, Spare (vol s sb dev) n → Spare (vol t sb dev) n := by
  have hbit : ∀ {j}, InZoneMap sb j → zoneBit (vol t sb dev) j = zoneBit (vol s sb dev) j :=
    fun hj => zoneBit_congr (fun b o hz => h.bytes b o fun hb => hW b o hb hz) hj
  refine ⟨⟨fun b hb => ⟨hb.1, hb.2.1, (hbit hb.2.1).trans hb.2.2⟩,
    fun b hb => ⟨hb.1, hb.2.1, (hbit hb.2.1).symm.trans hb.2.2⟩, fun h0 => ?_⟩, fun n hn => ?_⟩
  · exact fun hin => (hbit hin).trans (h0 hin)
  · refine hn.imp id ?_
    rintro ⟨l, hl, hlen, hj⟩
    exact ⟨l, hl, hlen, fun j hmem => ⟨(hj j hmem).1, (hbit (hj j hmem).1).trans (hj j hmem).2⟩⟩

/-- A block that is free is not used. -/
theorem not_used_of_free {v : Volume} {b : Nat} (h : ZoneFree v b) : ¬ ZoneUsed v b :=
  fun hu => absurd (h.2.2.symm.trans hu.2.2) Bool.false_ne_true

/-! ## `balloc` -/

theorem zoneBit_put {v : Volume} {i j : Nat} {x : Bool} :
    zoneBit (mapPut v (zmaps v.desc) i x) j = if j = i then x else zoneBit v j := by
  have hB : BLOCK_BITS = 8192 := rfl
  have hblocks : ∀ {m n : Nat}, (zmaps v.desc).block m = (zmaps v.desc).block n → m = n := by
    intro m n heq
    change 2 + v.desc.imap_blocks + m = 2 + v.desc.imap_blocks + n at heq
    omega
  show bitAt (Function.update v.disk _ _ ((zmaps v.desc).block (j / BLOCK_BITS))) (j % BLOCK_BITS) = _
  by_cases hblock : j / BLOCK_BITS = i / BLOCK_BITS
  · rw [hblock, Function.update_self, bitAt_putBit]
    by_cases hij : j = i
    · rw [if_pos hij, if_pos (by rw [hij])]
    · rw [if_neg hij, if_neg fun hmod => hij (by rw [hB] at *; omega)]
      show _ = bitAt (v.disk ((zmaps v.desc).block (j / BLOCK_BITS))) _
      rw [hblock]
  · rw [Function.update_of_ne fun heq => hblock (hblocks heq),
      if_neg fun hij => hblock (by rw [hij])]
    rfl

/-- What `balloc` returned: the first free zone, marked now, or `EOF` off a full bitmap. -/
theorem balloc_returns {v v' : Volume} {r : Option Nat} (h0 : Reserved v)
    (hx : NeonixVolume.balloc v = .ok (r, v')) :
    (∃ b, r = some b ∧ LowestFreeZone v b ∧ v' = putZone v b true) ∨
      (¬ v.desc.zmap_blocks < ZMAP_NR ∧ ∀ j, InZoneMap v.desc j → zoneBit v j = true) := by
  classical
  have hpos := firstdatazone_pos v.desc
  by_cases hclear : ∃ j, InZoneMap v.desc j ∧ zoneBit v j = false
  · -- the first clear bit is not bit 0
    obtain ⟨hin, hfree⟩ := Nat.find_spec hclear
    have hset : ∀ i, i < Nat.find hclear → zoneBit v i = true := by
      intro i hi
      by_contra hn
      exact Nat.find_min hclear hi ⟨Nat.lt_trans hi hin, by simpa using hn⟩
    rw [balloc_first_clear hin hfree hset] at hx
    generalize Nat.find hclear = j at *
    have hj : j ≠ 0 := by
      rintro rfl
      exact absurd (hfree.symm.trans (h0 hin)) Bool.false_ne_true
    obtain ⟨_, hlimit, hx⟩ := bind_eq_ok hx
    obtain ⟨rfl, rfl⟩ := Prod.mk.inj (Except.ok.inj hx)
    have hidx : zoneIdx v.desc (j + v.desc.firstdatazone - 1) = j := by
      rw [zoneIdx]
      omega
    refine Or.inl ⟨_, rfl, ⟨⟨⟨by omega, of_check hlimit⟩, ?_, ?_⟩, fun c hc => ?_⟩, ?_⟩
    · rw [hidx]
      exact hin
    · rw [hidx]
      exact hfree
    · -- the bit of a free zone is clear, so it is not before the first clear one
      have hle : j ≤ zoneIdx v.desc c := by
        by_contra hlt
        exact absurd (hc.2.2.symm.trans (hset _ (Nat.lt_of_not_le hlt))) Bool.false_ne_true
      have hadd := zoneIdx_add hc.1.1
      omega
    · rw [putZone, hidx]
  · have hset : ∀ j, InZoneMap v.desc j → zoneBit v j = true := by
      intro j hj
      by_contra hn
      exact hclear ⟨j, hj, by simpa using hn⟩
    refine Or.inr ⟨fun hlt => ?_, hset⟩
    rw [balloc_full hset, if_pos hlt] at hx
    cases hx

/-- The state with a zone of the volume marked used. -/
def allocated (s : Kernel) (sb : SuperDesc) (dev : Dev) (b : Nat) : Kernel :=
  { s with disk := Function.update s.disk dev (putZone (vol s sb dev) b true).disk }

theorem vol_allocated (s : Kernel) (sb : SuperDesc) (dev : Dev) (b : Nat) :
    vol (allocated s sb dev b) sb dev = putZone (vol s sb dev) b true := by
  show Volume.mk sb (Function.update s.disk dev _ dev) = _
  rw [Function.update_self]
  rfl

theorem zoneBit_allocated {b j : Nat} : zoneBit (vol (allocated s sb dev b) sb dev) j =
    if j = zoneIdx sb b then true else zoneBit (vol s sb dev) j := by
  rw [vol_allocated]
  exact zoneBit_put

/-- A bit of the zone bitmap is stored. -/
theorem within_putZone {b : Nat} (x : Bool) (h : InZoneMap sb (zoneIdx sb b)) :
    Within dev (fun b _ => IsZmap sb b) s
      { s with disk := Function.update s.disk dev (putZone (vol s sb dev) b x).disk } := by
  have hB : BLOCK_BITS = 8192 := rfl
  have hin : zoneIdx sb b < BLOCK_BITS * sb.zmap_blocks := h
  refine ⟨⟨fun e he => Function.update_of_ne he .., fun b' o hn => ?_⟩, rfl⟩
  show Function.update s.disk dev (putZone (vol s sb dev) b x).disk dev b' o = _
  rw [Function.update_self]
  show Function.update (s.disk dev) (2 + sb.imap_blocks + zoneIdx sb b / BLOCK_BITS) _ b' o = _
  rw [Function.update_of_ne]
  rintro rfl
  refine hn ⟨Nat.le_add_right .., ?_⟩
  rw [hB] at hin ⊢
  omega

theorem within_allocated {b : Nat} (h : ZoneFree (vol s sb dev) b) :
    Within dev (fun b _ => IsZmap sb b) s (allocated s sb dev b) :=
  within_putZone true h.2.1

/-- Zones of different numbers have different bits. -/
theorem zoneIdx_inj {b c : Nat} (hb : IsDataZone sb b) (hc : IsDataZone sb c)
    (h : zoneIdx sb b = zoneIdx sb c) : b = c := by
  have h1 := hb.1
  have h2 := hc.1
  rw [zoneIdx, zoneIdx] at h
  omega

theorem marks_allocated {b : Nat} : Marks dev sb s (allocated s sb dev b) := by
  refine ⟨fun c hc => ⟨hc.1, hc.2.1, ?_⟩, fun c hc => ⟨hc.1, hc.2.1, ?_⟩, fun h0 => ?_⟩
  · have hbit := hc.2.2
    show zoneBit _ (zoneIdx sb c) = true
    rw [zoneBit_allocated]
    split_ifs
    · rfl
    · exact hbit
  · have hbit : zoneBit (vol (allocated s sb dev b) sb dev) (zoneIdx sb c) = false := hc.2.2
    rw [zoneBit_allocated] at hbit
    by_cases hidx : zoneIdx sb c = zoneIdx sb b
    · rw [if_pos hidx] at hbit
      cases hbit
    · rw [if_neg hidx] at hbit
      exact hbit
  · intro hin
    rw [zoneBit_allocated, h0 hin, ite_self]

theorem used_allocated {b : Nat} (h : ZoneFree (vol s sb dev) b) :
    ZoneUsed (vol (allocated s sb dev b) sb dev) b := by
  refine ⟨h.1, h.2.1, ?_⟩
  show zoneBit _ (zoneIdx sb b) = true
  rw [zoneBit_allocated, if_pos rfl]

theorem Spare.allocated {b n : Nat} (h : Spare (vol s sb dev) (n + 1)) :
    Spare (vol (NeonixBlockTrees.allocated s sb dev b) sb dev) n := by
  refine h.imp id ?_
  rintro ⟨l, hl, hn, hj⟩
  have hlen := List.le_length_erase (a := zoneIdx sb b) (l := l)
  refine ⟨l.erase (zoneIdx sb b), hl.erase _, by omega, fun j hmem => ?_⟩
  obtain ⟨hne, hmem⟩ := hl.mem_erase_iff.mp hmem
  refine ⟨(hj j hmem).1, ?_⟩
  rw [zoneBit_allocated, if_neg hne]
  exact (hj j hmem).2

theorem onVolume_from {α : Type} {f : Volume → Res (α × Volume)} (hm : OnVolume s dev sb) :
    From never s (onVolume dev f) fun a t => ∃ v, f (vol s sb dev) = .ok (a, v) ∧
      t = { s with disk := Function.update s.disk dev v.disk } := by
  obtain ⟨k, hk, hsb⟩ := hm
  refine From.get ?_
  rw [hk]
  dsimp only
  rw [hsb]
  cases hf : f { desc := sb, disk := s.disk dev } with
  | error e => exact From.stop not_false
  | ok r => exact From.set (From.pure ⟨r.2, hf, rfl⟩)

theorem balloc_from {n : Nat} (hm : OnVolume s dev sb) (h0 : Reserved (vol s sb dev))
    (hs : Spare (vol s sb dev) (n + 1)) :
    From never s (balloc dev) fun b t =>
      LowestFreeZone (vol s sb dev) b ∧ t = allocated s sb dev b := by
  refine From.bind (onVolume_from hm) ?_
  rintro r t ⟨v, hv, rfl⟩
  rcases balloc_returns h0 hv with ⟨b, rfl, hfree, rfl⟩ | ⟨hblocks, hset⟩
  · exact From.pure ⟨hfree, rfl⟩
  · -- there was a bit to spare
    rcases hs with hlt | ⟨l, -, hn, hj⟩
    · exact absurd hlt hblocks
    · obtain ⟨j, hmem⟩ := List.exists_mem_of_length_pos (l := l) (by omega)
      exact absurd ((hj j hmem).2.symm.trans (hset j (hj j hmem).1)) Bool.false_ne_true

/-! ## Positions -/

/-- A zone slot of an inode, or a slot of an index block behind one: one level
    behind zone 7, two behind zone 8. -/
structure Position (z : Nat) (js : List Nat) : Prop where
  zone : z < 9
  depth : js.length ≤ z - 6
  slots : ∀ j ∈ js, j < BLOCK_INDEXES

/-- The block at a position of the file with a descriptor, 0 for none. -/
def blockAt (s : Kernel) (d : Place) (z : Nat) (js : List Nat) : Nat :=
  through s d.dev (d.add 14) z js

theorem Position.init {j : Nat} (h : Position z (js ++ [j])) : Position z js := by
  have hlen := h.depth
  rw [List.length_append] at hlen
  exact ⟨h.zone, Nat.le_of_add_right_le hlen, fun i hi => h.slots i (List.mem_append_left _ hi)⟩

/-- What has a slot behind it is no part of the file itself. -/
theorem Position.inner {j : Nat} (h : Position z (js ++ [j])) : js.length < z - 6 := by
  have hlen := h.depth
  rw [List.length_append, List.length_singleton] at hlen
  omega

theorem through_append {array : Place} {i j : Nat} : through s dev array i (js ++ [j]) =
    if through s dev array i js = 0 then 0
    else (s.index { dev := dev, block := through s dev array i js, off := 0 } j).toNat := by
  induction js generalizing array i with
  | nil =>
      rw [List.nil_append, through, through, through]
      by_cases h : s.index array i = 0
      · rw [if_pos h, if_pos ((toNat_eq_zero _).mpr h)]
      · rw [if_neg h, if_neg fun hz => h ((toNat_eq_zero _).mp hz)]
  | cons j' js ih =>
      rw [List.cons_append, through, through]
      by_cases h : s.index array i = 0
      · rw [if_pos h, if_pos h, if_pos rfl]
      · rw [if_neg h, if_neg h]
        exact ih

theorem blockAt_append {j : Nat} : blockAt s d z (js ++ [j]) =
    if blockAt s d z js = 0 then 0
    else (s.index { dev := d.dev, block := blockAt s d z js, off := 0 } j).toNat :=
  through_append

/-- Every block of the file stands at one position and is marked used. -/
structure BlockTree (s : Kernel) (sb : SuperDesc) (d : Place) : Prop where
  used : ∀ z js, Position z js → blockAt s d z js ≠ 0 → ZoneUsed (vol s sb d.dev) (blockAt s d z js)
  once : ∀ z js z' js', Position z js → Position z' js' → blockAt s d z js ≠ 0 →
    blockAt s d z js = blockAt s d z' js' → z = z' ∧ js = js'

/-- Every index block of the file stands at one position and is marked used. -/
structure IndexTree (s : Kernel) (sb : SuperDesc) (d : Place) : Prop where
  used : ∀ z js, Position z js → js.length < z - 6 → blockAt s d z js ≠ 0 →
    ZoneUsed (vol s sb d.dev) (blockAt s d z js)
  once : ∀ z js z' js', Position z js → Position z' js' → js.length < z - 6 →
    js'.length < z' - 6 → blockAt s d z js ≠ 0 → blockAt s d z js = blockAt s d z' js' →
    z = z' ∧ js = js'

theorem BlockTree.index (h : BlockTree s sb d) : IndexTree s sb d where
  used := fun z js hp _ hne => h.used z js hp hne
  once := fun z js z' js' hp hp' _ _ hne heq => h.once z js z' js' hp hp' hne heq

theorem BlockTree.congr (hB : BlockTree t sb d) (hm : Marks d.dev sb t u)
    (h : ∀ z js, Position z js → blockAt u d z js = blockAt t d z js) : BlockTree u sb d where
  used := fun z js hp hne => by
    rw [h z js hp] at hne ⊢
    exact hm.used _ (hB.used z js hp hne)
  once := fun z js z' js' hp hp' hne heq => by
    rw [h z js hp] at hne heq
    rw [h z' js' hp'] at heq
    exact hB.once z js z' js' hp hp' hne heq

/-- An index block of the file. -/
def IsIndex (s : Kernel) (d : Place) (b : Nat) : Prop :=
  ∃ z js, Position z js ∧ js.length < z - 6 ∧ b ≠ 0 ∧ blockAt s d z js = b

/-- The slot that is a position. -/
def SlotOf (s : Kernel) (d : Place) (z : Nat) (js : List Nat) (array : Place) (i : Nat) : Prop :=
  (js = [] ∧ array = d.add 14 ∧ i = z) ∨
    ∃ l, js = l ++ [i] ∧ blockAt s d z l ≠ 0 ∧
      array = { dev := d.dev, block := blockAt s d z l, off := 0 }

theorem SlotOf.device {array : Place} {i : Nat} (h : SlotOf s d z js array i) :
    array.dev = d.dev := by
  rcases h with ⟨-, rfl, -⟩ | ⟨l, -, -, rfl⟩
  · rfl
  · rfl

theorem SlotOf.block {array : Place} {i : Nat} (h : SlotOf s d z js array i) :
    blockAt s d z js = (s.index array i).toNat := by
  rcases h with ⟨rfl, rfl, rfl⟩ | ⟨l, rfl, hl, rfl⟩
  · rfl
  · rw [blockAt_append, if_neg hl]

/-- What the growth of a file writes: the zone bitmap, the zones of its inode, its
    index blocks and free zones. -/
def GrowBytes (s : Kernel) (sb : SuperDesc) (d : Place) (b o : Nat) : Prop :=
  IsZmap sb b ∨ At (d.add 14) 18 b o ∨ IsIndex s d b ∨ ZoneFree (vol s sb d.dev) b

/-- A file has grown: block `r` is at a position now, the blocks that were there
    are where they were, and what is new was free. -/
structure Grown (sb : SuperDesc) (d : Place) (z : Nat) (js : List Nat) (r : Nat) (s t : Kernel) :
    Prop where
  within : Within d.dev (GrowBytes s sb d) s t
  marks : Marks d.dev sb s t
  tree : BlockTree t sb d
  block : blockAt t d z js = r
  pos : r ≠ 0
  keeps : ∀ z' js', Position z' js' → blockAt s d z' js' ≠ 0 →
    blockAt t d z' js' = blockAt s d z' js'
  fresh : ∀ z' js', Position z' js' → blockAt s d z' js' = 0 → blockAt t d z' js' ≠ 0 →
    ZoneFree (vol s sb d.dev) (blockAt t d z' js')

theorem Grown.refl (hB : BlockTree s sb d) (h : blockAt s d z js ≠ 0) :
    Grown sb d z js (blockAt s d z js) s s where
  within := .refl
  marks := .refl
  tree := hB
  block := rfl
  pos := h
  keeps := fun _ _ _ _ => rfl
  fresh := fun _ _ _ h0 hne => absurd h0 hne

theorem Grown.index {r b : Nat} (h : Grown sb d z js r s t) (hb : IsIndex t d b) :
    IsIndex s d b ∨ ZoneFree (vol s sb d.dev) b := by
  obtain ⟨z', js', hp, hlen, hne, rfl⟩ := hb
  by_cases h0 : blockAt s d z' js' = 0
  · exact Or.inr (h.fresh z' js' hp h0 hne)
  · rw [h.keeps z' js' hp h0]
    exact Or.inl ⟨z', js', hp, hlen, h0, rfl⟩

theorem Grown.trans {z' : Nat} {js' : List Nat} {r r' : Nat} (h : Grown sb d z js r s t)
    (h' : Grown sb d z' js' r' t u) : Grown sb d z' js' r' s u where
  within := by
    refine h.within.trans (h'.within.mono fun b o hb => ?_)
    rcases hb with hz | hd | hi | hf
    · exact Or.inl hz
    · exact Or.inr (Or.inl hd)
    · exact Or.inr (Or.inr (h.index hi))
    · exact Or.inr (Or.inr (Or.inr (h.marks.free b hf)))
  marks := h.marks.trans h'.marks
  tree := h'.tree
  block := h'.block
  pos := h'.pos
  keeps := fun z'' js'' hp h0 => by
    have ht := h.keeps z'' js'' hp h0
    rw [h'.keeps z'' js'' hp (by rw [ht]; exact h0), ht]
  fresh := fun z'' js'' hp h0 hne => by
    by_cases ht : blockAt t d z'' js'' = 0
    · exact h.marks.free _ (h'.fresh z'' js'' hp ht hne)
    · rw [h'.keeps z'' js'' hp ht]
      exact h.fresh z'' js'' hp h0 ht

/-- The last block on a way is no index block, so its bytes stay. -/
theorem Grown.data {r : Nat} (h : Grown sb d z js r s t) (hB : BlockTree s sb d)
    (hd : DescPlace sb d) {z' : Nat} {js' : List Nat} (hp : Position z' js')
    (hleaf : js'.length = z' - 6) (hne : blockAt s d z' js' ≠ 0) (o : Nat) :
    t.disk d.dev (blockAt s d z' js') o = s.disk d.dev (blockAt s d z' js') o := by
  have hused := hB.used z' js' hp hne
  refine h.within.bytes _ _ ?_
  rintro (hz | ⟨hblock, -⟩ | ⟨z'', js'', hp', hlen, -, heq⟩ | hfree)
  · exact dataZone_not_zmap hused.1 hz
  · exact dataZone_ne_desc hused.1 hd hblock
  · obtain ⟨rfl, rfl⟩ := hB.once z' js' z'' js'' hp hp' hne heq.symm
    omega
  · exact not_used_of_free hfree hused

/-! ## One slot is filled -/

/-- The state after a zone was put into a slot. -/
def filled (s : Kernel) (sb : SuperDesc) (array : Place) (i r : Nat) : Kernel :=
  (allocated s sb array.dev r).setIndex array i (BitVec.ofNat 16 r)

/-- Only the bitmap and the slot are written. -/
theorem within_fill {array : Place} {i r : Nat} (hr : ZoneFree (vol s sb array.dev) r) :
    Within array.dev (fun b o => IsZmap sb b ∨ At (array.add (2 * i)) 2 b o) s
      (filled s sb array i r) := by
  refine ((within_allocated hr).mono fun b o hb => Or.inl hb).trans ?_
  exact (within_setIndex array i (BitVec.ofNat 16 r)).mono fun b o hb => Or.inr hb

theorem within_filled {array : Place} {i r : Nat} (hslot : SlotOf s d z js array i)
    (hr : ZoneFree (vol s sb d.dev) r) : Within d.dev (fun b o => IsZmap sb b ∨ At (array.add (2 * i)) 2 b o) s
    (filled s sb array i r) :=
  hslot.device ▸ within_fill (hslot.device ▸ hr)

/-- The block of the slot is the inode's, or an index block in use. -/
theorem slot_block {array : Place} {i : Nat} (hslot : SlotOf s d z js array i)
    (hp : Position z js) : array.block = d.block ∧ js = [] ∨ ∃ l, js = l ++ [i] ∧ Position z l ∧
    blockAt s d z l ≠ 0 ∧ array.block = blockAt s d z l ∧ array.off = 0 := by
  rcases hslot with ⟨rfl, rfl, -⟩ | ⟨l, rfl, hl, rfl⟩
  · exact Or.inl ⟨rfl, rfl⟩
  · exact Or.inr ⟨l, rfl, hp.init, hl, rfl, rfl⟩

section Filled

variable {array : Place} {i r : Nat} (hB : IndexTree s sb d) (hd : DescPlace sb d)
  (hslot : SlotOf s d z js array i) (hp : Position z js) (hr : ZoneFree (vol s sb d.dev) r)
include hB hd hslot hp

theorem slot_not_zmap : ¬ IsZmap sb array.block := by
  rcases slot_block hslot hp with ⟨h, -⟩ | ⟨l, rfl, hpl, hl, h, -⟩
  · rw [h]
    exact hd.not_zmap
  · rw [h]
    exact dataZone_not_zmap (hB.used z l hpl hp.inner hl).1

include hr

theorem slot_ne_free : r ≠ array.block := by
  rcases slot_block hslot hp with ⟨h, -⟩ | ⟨l, rfl, hpl, hl, h, -⟩
  · rw [h]
    exact dataZone_ne_desc hr.1 hd
  · rintro rfl
    rw [h] at hr
    exact not_used_of_free hr (hB.used z l hpl hp.inner hl)

theorem marks_filled : Marks d.dev sb s (filled s sb array i r) ∧
    ZoneUsed (vol (filled s sb array i r) sb d.dev) r ∧
    ∀ n, Spare (vol s sb d.dev) (n + 1) → Spare (vol (filled s sb array i r) sb d.dev) n := by
  have hw := within_setIndex (s := allocated s sb array.dev r) array i (BitVec.ofNat 16 r)
  rw [filled, hslot.device] at *
  obtain ⟨hmarks, hspare⟩ := hw.marks fun b o hb hz =>
    slot_not_zmap hB hd hslot hp (hb.1 ▸ hz)
  exact ⟨marks_allocated.trans hmarks, hmarks.used r (used_allocated hr),
    fun n hn => hspare n hn.allocated⟩

/-- Every other position keeps its block, if what was put in is blank for those
    behind it. -/
theorem blockAt_filled_of (h0 : blockAt s d z js = 0) {z' : Nat} {js' : List Nat}
    (hblank : z' = z → js <+: js' → js' ≠ js → ∀ o < BLOCK_SIZE, s.disk d.dev r o = 0)
    (hp' : Position z' js') :
    blockAt (filled s sb array i r) d z' js' =
      if z' = z ∧ js' = js then r else blockAt s d z' js' := by
  have hw := within_filled hslot hr
  have hz := slot_not_zmap hB hd hslot hp
  have hrpos : r ≠ 0 := by
    have h2 := firstdatazone_pos sb
    have h1 := hr.1.1
    change sb.firstdatazone ≤ r at h1
    omega
  have hr16 : (BitVec.ofNat 16 r).toNat = r := by
    have hlt := hr.1.2
    have hz := sb.zones_le
    change r < sb.zones at hlt
    exact BitVec.toNat_ofNat .. |>.trans (Nat.mod_eq_of_lt (by omega))
  have hself : (filled s sb array i r).index array i = BitVec.ofNat 16 r := index_setIndex ..
  -- a slot of another block, or another slot
  have hindex : ∀ {a : Place} {k : Nat}, a.dev = d.dev → ¬ IsZmap sb a.block →
      (a.block = array.block → a.off = array.off ∧ k ≠ i) →
      (filled s sb array i r).index a k = s.index a k := by
    intro a k hdev hza hne
    refine index_congr fun x hx => ?_
    rw [hdev]
    refine hw.bytes _ _ ?_
    rintro (hz' | ⟨hblock, hlo, hhi⟩)
    · exact hza hz'
    · obtain ⟨hoff, hki⟩ := hne hblock
      change array.off + 2 * i ≤ a.off + (2 * k + x) at hlo
      change a.off + (2 * k + x) < array.off + 2 * i + 2 at hhi
      omega
  induction js' using List.reverseRecOn with
  | nil =>
      by_cases heq : z' = z ∧ ([] : List Nat) = js
      · obtain ⟨rfl, rfl⟩ := heq
        rw [if_pos ⟨rfl, rfl⟩]
        rcases hslot with ⟨-, rfl, rfl⟩ | ⟨l, hl, -⟩
        · exact (congrArg BitVec.toNat hself).trans hr16
        · simp at hl
      · rw [if_neg heq]
        refine congrArg BitVec.toNat (hindex rfl hd.not_zmap fun hblock => ?_)
        rcases hslot with ⟨rfl, rfl, rfl⟩ | ⟨l, rfl, hl, rfl⟩
        · exact ⟨rfl, fun hz' => heq ⟨hz', rfl⟩⟩
        · have hne : blockAt s d z l ≠ d.block :=
            dataZone_ne_desc (hB.used z l hp.init hp.inner hl).1 hd
          exact absurd hblock.symm hne
  | append_singleton l j ih =>
      have hpl := hp'.init
      have hprev := ih (fun hz hpre _ => hblank hz (hpre.trans (List.prefix_append l [j])) fun heq => by
        have hlen := hpre.length_le
        rw [← heq, List.length_append, List.length_singleton] at hlen
        omega) hpl
      rw [blockAt_append]
      by_cases heq : z' = z ∧ l = js
      · -- behind the slot: the index block put in is blank
        rw [if_pos heq] at hprev
        obtain ⟨rfl, rfl⟩ := heq
        have hne : ¬ (z' = z' ∧ l ++ [j] = l) := fun h => by simpa using h.2
        have hzero := hblank rfl (List.prefix_append l [j]) (by simp)
        have hj : j < 512 := hp'.slots j (by simp)
        have hB' : BLOCK_SIZE = 1024 := rfl
        have hbytes : ∀ x, x < 2 → s.disk d.dev r (2 * j + x) = 0 := fun x hx =>
          hzero _ (by omega)
        rw [hprev, if_neg hrpos, if_neg hne, blockAt_append, if_pos h0,
          hindex (a := { dev := d.dev, block := r, off := 0 }) rfl (dataZone_not_zmap hr.1)
            fun hblock => absurd hblock (slot_ne_free hB hd hslot hp hr)]
        refine (toNat_eq_zero _).mpr ?_
        have h0' := hbytes 0 (by omega)
        have h1' := hbytes 1 (by omega)
        rw [Kernel.index, u16At, Kernel.bytes, Kernel.bytes]
        dsimp only
        rw [Nat.zero_add, Nat.zero_add]
        rw [Nat.add_zero] at h0'
        rw [h0', h1']
        rfl
      · rw [if_neg heq] at hprev
        rw [hprev, blockAt_append]
        by_cases hc : blockAt s d z' l = 0
        · rw [if_pos hc, if_pos hc, if_neg]
          rintro ⟨rfl, hjs⟩
          rcases hslot with ⟨rfl, -⟩ | ⟨l', hl', hne, -⟩
          · simp at hjs
          · obtain ⟨rfl, -⟩ := List.append_inj' (hjs.trans hl') rfl
            exact hne hc
        · rw [if_neg hc, if_neg hc]
          have hused := hB.used z' l hpl hp'.inner hc
          by_cases hsame : z' = z ∧ l ++ [j] = js
          · rw [if_pos hsame]
            obtain ⟨rfl, rfl⟩ := hsame
            rcases hslot with ⟨hnil, -⟩ | ⟨l', hl', -, rfl⟩
            · simp at hnil
            · obtain ⟨rfl, hij⟩ := List.append_inj' hl' rfl
              obtain rfl := List.singleton_inj.mp hij
              exact (congrArg BitVec.toNat hself).trans hr16
          · rw [if_neg hsame]
            refine congrArg BitVec.toNat (hindex rfl (dataZone_not_zmap hused.1) fun hblock => ?_)
            rcases slot_block hslot hp with ⟨h, -⟩ | ⟨l', rfl, hpl', hl', h, hoff⟩
            · exact absurd (hblock.trans h) (dataZone_ne_desc hused.1 hd)
            · obtain ⟨rfl, rfl⟩ := hB.once z' l z l' hpl hpl' hp'.inner hp.inner hc (hblock.trans h)
              exact ⟨hoff.symm, fun hji => hsame ⟨rfl, by rw [hji]⟩⟩

theorem blockAt_filled (h0 : blockAt s d z js = 0)
    (hblank : js.length = z - 6 ∨ ∀ o < BLOCK_SIZE, s.disk d.dev r o = 0)
    {z' : Nat} {js' : List Nat} (hp' : Position z' js') :
    blockAt (filled s sb array i r) d z' js' =
      if z' = z ∧ js' = js then r else blockAt s d z' js' := by
  refine blockAt_filled_of hB hd hslot hp hr h0 (fun hz hpre hne => hblank.resolve_left ?_) hp'
  -- behind a part of the file is nothing
  intro hleaf
  subst hz
  obtain ⟨l, rfl⟩ := hpre
  have hdepth := hp'.depth
  rw [List.length_append] at hdepth
  exact hne (by rw [List.length_eq_zero_iff.mp (by omega : l.length = 0), List.append_nil])

end Filled

/-- One slot is filled with a free zone. -/
theorem grown_filled {array : Place} {i r : Nat} (hB : BlockTree s sb d) (hd : DescPlace sb d)
    (hslot : SlotOf s d z js array i) (hp : Position z js) (hr : ZoneFree (vol s sb d.dev) r)
    (h0 : blockAt s d z js = 0)
    (hblank : js.length = z - 6 ∨ ∀ o < BLOCK_SIZE, s.disk d.dev r o = 0) :
    Grown sb d z js r s (filled s sb array i r) := by
  have hat : ∀ {z' js'}, Position z' js' → blockAt (filled s sb array i r) d z' js' =
      if z' = z ∧ js' = js then r else blockAt s d z' js' :=
    fun hp' => blockAt_filled hB.index hd hslot hp hr h0 hblank hp'
  obtain ⟨hmarks, hused, -⟩ := marks_filled hB.index hd hslot hp hr
  have hold : ∀ {z' js'}, Position z' js' → blockAt s d z' js' ≠ 0 → blockAt s d z' js' ≠ r := by
    intro z' js' hp' hne heq
    have hu := hB.used z' js' hp' hne
    rw [heq] at hu
    exact not_used_of_free hr hu
  constructor
  · refine (within_filled hslot hr).mono ?_
    rintro b o (hz | ⟨hblock, hlo, hhi⟩)
    · exact Or.inl hz
    · rcases hslot with ⟨rfl, rfl, rfl⟩ | ⟨l, rfl, hl, rfl⟩
      · refine Or.inr (Or.inl ⟨hblock, ?_, ?_⟩)
        · change d.off + 14 + 2 * i ≤ o at hlo
          change d.off + 14 ≤ o
          omega
        · have hz := hp.zone
          change o < d.off + 14 + 2 * i + 2 at hhi
          change o < d.off + 14 + 18
          omega
      · have hdepth := hp.depth
        rw [List.length_append, List.length_singleton] at hdepth
        refine Or.inr (Or.inr (Or.inl ⟨z, l, hp.init, by omega, ?_, hblock.symm⟩))
        rw [hblock]
        exact hl
  · exact hmarks
  · constructor
    · intro z' js' hp' hne
      rw [hat hp'] at hne ⊢
      split_ifs at hne ⊢ with h
      · exact hused
      · exact hmarks.used _ (hB.used z' js' hp' hne)
    · intro z₁ js₁ z₂ js₂ hp₁ hp₂ hne heq
      rw [hat hp₁] at hne heq
      rw [hat hp₂] at heq
      split_ifs at hne heq with h₁ h₂ h₂
      · obtain ⟨rfl, rfl⟩ := h₁
        obtain ⟨rfl, rfl⟩ := h₂
        exact ⟨rfl, rfl⟩
      · exact absurd heq.symm (hold hp₂ fun hz => hne (heq.trans hz))
      · exact absurd heq (hold hp₁ hne)
      · exact hB.once z₁ js₁ z₂ js₂ hp₁ hp₂ hne heq
  · rw [hat hp, if_pos ⟨rfl, rfl⟩]
  · rintro rfl
    have h1 := hr.1.1
    have h2 := firstdatazone_pos sb
    change sb.firstdatazone ≤ 0 at h1
    omega
  · intro z' js' hp' hne
    rw [hat hp', if_neg]
    rintro ⟨rfl, rfl⟩
    exact hne h0
  · intro z' js' hp' hz hne
    rw [hat hp'] at hne ⊢
    split_ifs at hne ⊢ with h
    · exact hr
    · exact absurd hz hne


/-! ## `bmap` with `create` -/

theorem slot_create {array : Place} {i n : Nat} (hm : OnVolume s array.dev sb)
    (h0 : Reserved (vol s sb array.dev)) (hs : Spare (vol s sb array.dev) (n + 1)) :
    From never s (slot array.dev true array i) fun r t =>
      (s.index array i ≠ 0 ∧ t = s ∧ r = (s.index array i).toNat) ∨
      (s.index array i = 0 ∧ LowestFreeZone (vol s sb array.dev) r ∧ t = filled s sb array i r) := by
  have hfill : From never s (do
      let nr ← balloc array.dev
      modify fun s => s.setIndex array i (BitVec.ofNat 16 nr)) fun _ t =>
      ∃ b, LowestFreeZone (vol s sb array.dev) b ∧ t = filled s sb array i b := by
    refine From.bind (balloc_from hm h0 hs) ?_
    rintro b t ⟨hb, rfl⟩
    exact From.store ⟨b, hb, rfl⟩
  refine From.get (From.onlyIf (fun h => ?_) fun h => ?_)
  · refine From.bind hfill ?_
    rintro _ t ⟨b, hb, rfl⟩
    refine From.get (From.pure (Or.inr ⟨h.1, ?_⟩))
    have hlt := hb.1.1.2
    have hz := sb.zones_le
    change b < sb.zones at hlt
    have hback : ((filled s sb array i b).index array i).toNat = b := by
      rw [filled, index_setIndex, BitVec.toNat_ofNat, Nat.mod_eq_of_lt (by omega)]
    rw [hback]
    exact ⟨hb, rfl⟩
  · have hne : s.index array i ≠ 0 := fun hz => h ⟨hz, rfl⟩
    exact From.get (From.pure (Or.inl ⟨hne, rfl, rfl⟩))

/-- The free zones of a volume are blank. -/
def Blank (s : Kernel) (sb : SuperDesc) (dev : Dev) : Prop :=
  ∀ b, ZoneFree (vol s sb dev) b → ∀ o < BLOCK_SIZE, s.disk dev b o = 0

/-- What is left of the free zones after one was taken is blank too. -/
theorem Blank.filled {array : Place} {i r : Nat} (h : Blank s sb d.dev) (hB : BlockTree s sb d)
    (hd : DescPlace sb d) (hslot : SlotOf s d z js array i) (hp : Position z js)
    (hr : ZoneFree (vol s sb d.dev) r) :
    Blank (NeonixBlockTrees.filled s sb array i r) sb d.dev := by
  obtain ⟨hmarks, -, -⟩ := marks_filled hB.index hd hslot hp hr
  intro b hb o ho
  have hfree := hmarks.free b hb
  rw [(within_filled hslot hr).bytes b o ?_]
  · exact h b hfree o ho
  · rintro (hz | ⟨hblock, -⟩)
    · exact dataZone_not_zmap hb.1 hz
    · exact slot_ne_free hB.index hd hslot hp hfree hblock

/-- The way from a slot down fills what is missing. -/
theorem reckon_create {level n : Nat} {l : List Nat} {array : Place} {i block divider : Nat}
    (hm : OnVolume s d.dev sb) (h0 : Reserved (vol s sb d.dev)) (hB : BlockTree s sb d)
    (hd : DescPlace sb d) (hslot : SlotOf s d z l array i)
    (hp : Position z (l ++ slotsOf level block divider))
    (hlen : l.length + level = z - 6)
    (hgrow : Blank s sb d.dev ∨ ∀ m < level,
      blockAt s d z (l ++ (slotsOf level block divider).take m) ≠ 0)
    (hs : Spare (vol s sb d.dev) (n + level + 1)) :
    From never s (reckon d.dev true level array i block divider) fun r t =>
      Grown sb d z (l ++ slotsOf level block divider) r s t ∧ Spare (vol t sb d.dev) n := by
  induction level generalizing s l array i block divider with
  | zero =>
      rw [slotsOf, List.append_nil] at hp ⊢
      have hcreate := slot_create (i := i) (hslot.device ▸ hm) (hslot.device ▸ h0) (hslot.device ▸ hs)
      rw [hslot.device] at hcreate
      refine hcreate.post ?_
      rintro r t (⟨hne, rfl, rfl⟩ | ⟨hz, ⟨hr, -⟩, rfl⟩)
      · rw [← hslot.block]
        refine ⟨.refl hB ?_, hs.mono (by omega)⟩
        rw [hslot.block]
        exact fun hz => hne ((toNat_eq_zero _).mp hz)
      · have hzero : blockAt s d z l = 0 := hslot.block.trans ((toNat_eq_zero _).mpr hz)
        exact ⟨grown_filled hB hd hslot hp hr hzero (Or.inl hlen),
          (marks_filled hB.index hd hslot hp hr).2.2 n hs⟩
  | succ level ih =>
      rw [slotsOf] at hp hgrow ⊢
      have happ : l ++ block / divider :: slotsOf level (block % divider) (divider / BLOCK_INDEXES) =
          (l ++ [block / divider]) ++ slotsOf level (block % divider) (divider / BLOCK_INDEXES) := by
        rw [List.append_assoc, List.singleton_append]
      have hpl : Position z l := by
        refine ⟨hp.zone, by omega, fun j hj => hp.slots j (List.mem_append_left _ hj)⟩
      have hlen' : (l ++ [block / divider]).length + level = z - 6 := by
        rw [List.length_append, List.length_singleton]
        omega
      rw [happ] at hp ⊢
      have hcreate := slot_create (i := i) (hslot.device ▸ hm) (hslot.device ▸ h0) (hslot.device ▸ hs)
      rw [hslot.device] at hcreate
      refine From.bind hcreate ?_
      rintro r t (⟨hne, rfl, rfl⟩ | ⟨hz, ⟨hr, -⟩, rfl⟩)
      · -- the index block is there
        have hpos : (t.index array i).toNat ≠ 0 := fun hz => hne ((toNat_eq_zero _).mp hz)
        rw [← hslot.block] at hpos ⊢
        refine From.ite (fun hz => absurd hz hpos) fun _ => ?_
        refine ih hm h0 hB (Or.inr ⟨l, rfl, hpos, rfl⟩) hp hlen' (hgrow.imp id fun hall m hm => ?_)
          (hs.mono (by omega))
        rw [List.append_assoc, List.singleton_append, ← List.take_succ_cons]
        exact hall (m + 1) (by omega)
      · -- a free zone becomes the index block
        have hzero : blockAt s d z l = 0 := hslot.block.trans ((toNat_eq_zero _).mpr hz)
        have hblank : Blank s sb d.dev := by
          refine hgrow.resolve_right fun hall => hall 0 (Nat.succ_pos _) ?_
          rw [List.take_zero, List.append_nil]
          exact hzero
        obtain ⟨hmarks, -, hspare⟩ := marks_filled hB.index hd hslot hpl hr
        have hgrown := grown_filled hB hd hslot hpl hr hzero (Or.inr (hblank r hr))
        refine From.ite (fun hz => absurd hz hgrown.pos) fun _ => ?_
        have hslot' : SlotOf (filled s sb array i r) d z (l ++ [block / divider])
            { dev := d.dev, block := r, off := 0 } (block / divider) :=
          Or.inr ⟨l, rfl, fun hz => hgrown.pos (hgrown.block.symm.trans hz), by rw [hgrown.block]⟩
        refine (ih (hm.within hgrown.within) (hmarks.reserved h0) hgrown.tree hslot' hp hlen'
          (Or.inl (hblank.filled hB hd hslot hpl hr)) (hspare _ (hs.mono (by omega)))).post ?_
        rintro r' t ⟨hg, hsp⟩
        exact ⟨hgrown.trans hg, hsp⟩

/-! ## The parts of a file -/

/-- The zone slot on the way to part `n`. -/
def zoneOf (n : Nat) : Nat :=
  if n < DIRECT_BLOCK then n
  else if n - DIRECT_BLOCK < INDIRECT1_BLOCK then DIRECT_BLOCK else DIRECT_BLOCK + 1

/-- The slots of the index blocks on the way to part `n`. -/
def slotsOn (n : Nat) : List Nat :=
  if n < DIRECT_BLOCK then []
  else if n - DIRECT_BLOCK < INDIRECT1_BLOCK then [n - DIRECT_BLOCK]
  else [(n - DIRECT_BLOCK - INDIRECT1_BLOCK) / BLOCK_INDEXES,
    (n - DIRECT_BLOCK - INDIRECT1_BLOCK) % BLOCK_INDEXES]

theorem blockOf_eq (n : Nat) : blockOf s d n = blockAt s d (zoneOf n) (slotsOn n) := by
  rw [blockOf, zoneOf, slotsOn]
  split_ifs
  · rfl
  · rfl
  · rfl

theorem leaf_of (n : Nat) : (slotsOn n).length = zoneOf n - 6 := by
  rw [slotsOn, zoneOf]
  have h7 : DIRECT_BLOCK = 7 := rfl
  split_ifs
  · rw [List.length_nil]
    omega
  · rfl
  · rfl

theorem position_of {n : Nat} (hn : n < TOTAL_BLOCK) : Position (zoneOf n) (slotsOn n) := by
  refine ⟨?_, (leaf_of n).le, ?_⟩
  · rw [zoneOf]
    have h7 : DIRECT_BLOCK = 7 := rfl
    split_ifs
    · omega
    · omega
    · omega
  · change n < 7 + 512 + 512 * 512 at hn
    intro j hj
    rw [slotsOn] at hj
    show j < 512
    split_ifs at hj with h7 h1
    · simp at hj
    · rw [List.mem_singleton.mp hj]
      exact h1
    · change j ∈ [(n - 7 - 512) / 512, (n - 7 - 512) % 512] at hj
      rcases List.mem_cons.mp hj with rfl | hj
      · omega
      · rw [List.mem_singleton.mp hj]
        omega

theorem position_inj {m n : Nat} (hz : zoneOf m = zoneOf n) (hs : slotsOn m = slotsOn n) :
    m = n := by
  have h7 : DIRECT_BLOCK = 7 := rfl
  have h512 : INDIRECT1_BLOCK = 512 := rfl
  have h512' : BLOCK_INDEXES = 512 := rfl
  rw [zoneOf, zoneOf] at hz
  rw [slotsOn, slotsOn] at hs
  split_ifs at hz hs with hm hn hm1 hn1 hn1 hm1 hn1 hn1
  all_goals simp only [List.cons.injEq, and_true, reduceCtorEq] at hs
  all_goals rw [h7, h512, h512'] at *
  all_goals omega

/-- What part `n` needs where index blocks are missing on the way to it: blank
    zones. -/
def Grows (s : Kernel) (sb : SuperDesc) (d : Place) (n : Nat) : Prop :=
  Blank s sb d.dev ∨
    ∀ m < (slotsOn n).length, blockAt s d (zoneOf n) ((slotsOn n).take m) ≠ 0

/-- `bmap` with `create`. -/
theorem bmap_create {dir n k : Nat} (hd : DescPlace sb d) (hB : BlockTree s sb d)
    (hm : OnVolume s d.dev sb) (h0 : Reserved (vol s sb d.dev)) (hdesc : s.desc dir = d)
    (hdev : (s.inode_table dir).dev = d.dev) (hgrow : Grows s sb d n)
    (hs : Spare (vol s sb d.dev) (k + 3)) :
    From never s (bmap dir n true) fun r t => n < TOTAL_BLOCK ∧
      Grown sb d (zoneOf n) (slotsOn n) r s t ∧ Spare (vol t sb d.dev) k := by
  rw [bmap]
  refine from_assert fun hn => From.get ?_
  have hp := position_of hn
  have hleaf := leaf_of n
  rw [hdev, show s.zone dir = d.add 14 by rw [Kernel.zone, hdesc]]
  have hway : ∀ z level block divider, zoneOf n = z → slotsOn n = slotsOf level block divider →
      level = z - 6 → From never s (reckon d.dev true level (d.add 14) z block divider) fun r t =>
      n < TOTAL_BLOCK ∧
        Grown sb d (zoneOf n) (slotsOn n) r s t ∧ Spare (vol t sb d.dev) k := by
    intro z level block divider hz hsl hlevel
    rw [Grows, hleaf] at hgrow
    rw [hz] at hp hgrow ⊢
    rw [hsl] at hp hgrow ⊢
    rw [← hlevel] at hgrow
    have hzone := hp.zone
    refine From.post (reckon_create (n := k) (l := []) hm h0 hB hd (Or.inl ⟨rfl, rfl, rfl⟩) hp
      (by rw [List.length_nil]; omega) hgrow (hs.mono (by omega))) ?_
    exact fun _ _ hr => ⟨hn, hr⟩
  refine From.ite (fun h7 => ?_) fun h7 => From.ite (fun h1 => ?_) fun h1 => ?_
  · have h7' : n < 7 := h7
    refine hway n 0 n 1 ?_ ?_ (by omega)
    · rw [zoneOf, if_pos h7]
    · rw [slotsOn, if_pos h7, slotsOf]
  · refine hway DIRECT_BLOCK 1 (n - DIRECT_BLOCK) 1 ?_ ?_ rfl
    · rw [zoneOf, if_neg h7, if_pos h1]
    · rw [slotsOn, if_neg h7, if_pos h1, slotsOf, slotsOf, Nat.div_one]
  · dsimp only
    have hlast : n - DIRECT_BLOCK - INDIRECT1_BLOCK < INDIRECT2_BLOCK := by
      rw [TOTAL_BLOCK] at hn
      omega
    rw [assert, if_pos hlast]
    refine hway (DIRECT_BLOCK + 1) 2 (n - DIRECT_BLOCK - INDIRECT1_BLOCK) BLOCK_INDEXES ?_ ?_ rfl
    · rw [zoneOf, if_neg h7, if_neg h1]
    · rw [slotsOn, if_neg h7, if_neg h1, slotsOf, slotsOf, slotsOf,
        show BLOCK_INDEXES / BLOCK_INDEXES = 1 by decide, Nat.div_one]

end NeonixBlockTrees
