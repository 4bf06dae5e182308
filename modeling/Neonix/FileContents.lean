import Neonix.BlockMaps
import Neonix.FileOffsets

/-! # What `bmap` does to the bytes of a file

    `bmap` with `create` stores to empty slots on the way to a part and to the zone
    bitmap, and to nothing else.  So the parts that have a block keep it on any disk
    whose index blocks are data zones, whatever the blocks taken hold. -/

namespace NeonixFileContents

open NeonixMachine NeonixOutcome NeonixByteBits NeonixWords NeonixVolume NeonixAllocators NeonixCalls
  NeonixFileSystem NeonixNamei NeonixFrames NeonixDirectories NeonixBlockTrees NeonixBlockMaps
  NeonixFileData NeonixFileOffsets NeonixNewEntries NeonixNewInodes

variable {s t u v : Kernel} {dev : Dev} {sb : SuperDesc} {d array : Place} {dir n r i z fuel : Nat}
  {js l : List Nat} {w : BitVec 16}

/-! ## One slot -/

/-- Two bytes of a block as a number. -/
def word (s : Kernel) (dev : Dev) (b o : Nat) : BitVec 16 := u16At (s.disk dev b) o

theorem index_word (s : Kernel) (array : Place) (i : Nat) :
    s.index array i = word s array.dev array.block (array.off + 2 * i) := rfl

/-- `balloc` stores to the zone bitmap only. -/
theorem balloc_bitmap {v v' : Volume} {x : Option Nat} (h : NeonixVolume.balloc v = .ok (x, v')) :
    ∀ b o, ¬ IsZmap v.desc b → v'.disk b o = v.disk b o := by
  classical
  by_cases hclear : ∃ j, InZoneMap v.desc j ∧ zoneBit v j = false
  · obtain ⟨hin, hfree⟩ := Nat.find_spec hclear
    have hset : ∀ i, i < Nat.find hclear → zoneBit v i = true := by
      intro i hi
      by_contra hn
      exact Nat.find_min hclear hi ⟨Nat.lt_trans hi hin, by simpa using hn⟩
    rw [balloc_first_clear hin hfree hset] at h
    generalize Nat.find hclear = j at *
    obtain ⟨_, -, h⟩ := bind_eq_ok h
    obtain ⟨-, rfl⟩ := Prod.mk.inj (Except.ok.inj h)
    intro b o hb
    have hB : BLOCK_BITS = 8192 := rfl
    refine congrFun (Function.update_of_ne ?_ ..) o
    rintro rfl
    refine hb ⟨Nat.le_add_right .., ?_⟩
    have hin : j < BLOCK_BITS * v.desc.zmap_blocks := hin
    show 2 + v.desc.imap_blocks + j / BLOCK_BITS < _
    rw [hB] at hin ⊢
    omega
  · have hset : ∀ j, InZoneMap v.desc j → zoneBit v j = true := by
      intro j hj
      by_contra hn
      exact hclear ⟨j, hj, by simpa using hn⟩
    rw [balloc_full hset] at h
    split_ifs at h
    obtain ⟨-, rfl⟩ := Prod.mk.inj (Except.ok.inj h)
    exact fun _ _ _ => rfl

/-- The slot holds `w` now: it held it before, or it was empty. -/
def Slotted (s : Kernel) (sb : SuperDesc) (array : Place) (i : Nat) (w : BitVec 16) (u : Kernel) :
    Prop :=
  (s.index array i = w ∧ w ≠ 0 ∧ u = s) ∨
    (s.index array i = 0 ∧
      ∃ v, Within array.dev (fun b _ => IsZmap sb b) s v ∧ u = v.setIndex array i w)

theorem slot_slotted (hm : OnVolume s dev sb) (hdev : array.dev = dev) :
    From never s (slot dev true array i) fun r u => ∃ w, r = w.toNat ∧
    Slotted s sb array i w u := by
  subst hdev
  by_cases hz : s.index array i = 0
  · have hfill : From never s (do
        let nr ← balloc array.dev
        modify fun s => s.setIndex array i (BitVec.ofNat 16 nr)) fun _ u =>
        ∃ w v, Within array.dev (fun b _ => IsZmap sb b) s v ∧ u = v.setIndex array i w := by
      refine From.bind (Q := fun _ v => Within array.dev (fun b _ => IsZmap sb b) s v) ?_ ?_
      · refine From.bind (onVolume_from hm) ?_
        rintro x t ⟨v, hv, rfl⟩
        refine From.pure ⟨⟨fun e he => Function.update_of_ne he .., fun b o hb => ?_⟩, rfl⟩
        exact (congrFun (congrFun (Function.update_self ..) b) o).trans (balloc_bitmap hv b o hb)
      · intro nr v hv
        exact From.store ⟨_, v, hv, rfl⟩
    refine From.get (From.onlyIf (fun _ => From.bind hfill ?_) fun hno => absurd ⟨hz, rfl⟩ hno)
    rintro _ _ ⟨w, v, hv, rfl⟩
    refine From.get (From.pure ⟨w, ?_, Or.inr ⟨hz, v, hv, rfl⟩⟩)
    rw [index_setIndex]
  · refine (slot_mapped hz).post ?_
    rintro _ _ ⟨rfl, rfl⟩
    exact ⟨_, rfl, Or.inl ⟨rfl, hz, rfl⟩⟩

theorem Slotted.index (h : Slotted s sb array i w u) : u.index array i = w := by
  rcases h with ⟨hw, -, rfl⟩ | ⟨-, v, -, rfl⟩
  · exact hw
  · exact index_setIndex ..

/-- Only the bitmap and the slot are written. -/
theorem Slotted.within (h : Slotted s sb array i w u) (hdev : array.dev = dev) :
    Within dev (fun b o => IsZmap sb b ∨ At (array.add (2 * i)) 2 b o) s u := by
  subst hdev
  rcases h with ⟨-, -, rfl⟩ | ⟨-, v, hv, rfl⟩
  · exact .refl
  · exact (hv.mono fun b o hb => Or.inl hb).trans
      ((within_setIndex array i w).mono fun b o hb => Or.inr hb)

/-- A number at an even place outside the bitmap stays. -/
theorem Slotted.word (h : Slotted s sb array i w u) (hdev : array.dev = dev)
    (heven : array.off % 2 = 0) {b o : Nat} (hb : ¬ IsZmap sb b) (ho : o % 2 = 0)
    (hne : word s dev b o ≠ 0) : word u dev b o = word s dev b o := by
  subst hdev
  rcases h with ⟨-, -, rfl⟩ | ⟨hz, v, hv, rfl⟩
  · rfl
  · have hsame : ∀ k < 2, (v.setIndex array i w).disk array.dev b (o + k) =
        s.disk array.dev b (o + k) := by
      intro k hk
      refine ((within_setIndex (s := v) array i w).bytes _ _ ?_).trans (hv.bytes _ _ hb)
      rintro ⟨rfl, hlo, hhi⟩
      -- the slot itself was empty
      change array.off + 2 * i ≤ o + k at hlo
      change o + k < array.off + 2 * i + 2 at hhi
      refine hne ?_
      rw [show o = array.off + 2 * i by omega]
      exact hz
    exact NeonixNewEntries.u16At_congr hsame

/-! ## The way to a part -/

/-- `bmap` went over the slots of a way. -/
def Walk (sb : SuperDesc) (dev : Dev) : List Nat → Place → Nat → Kernel → Nat → Kernel → Prop
  | [], array, i, s, r, u => ∃ w, r = w.toNat ∧ Slotted s sb array i w u
  | j :: js, array, i, s, r, u => ∃ w v, Slotted s sb array i w v ∧
      ((w = 0 ∧ r = 0 ∧ u = v) ∨
        (w ≠ 0 ∧ Walk sb dev js { dev := dev, block := w.toNat, off := 0 } j v r u))

theorem reckon_walk {level block divider : Nat} (hm : OnVolume s dev sb) (hdev : array.dev = dev) :
    From never s (reckon dev true level array i block divider) fun r u =>
      Walk sb dev (slotsOf level block divider) array i s r u := by
  induction level generalizing s array i block divider with
  | zero => exact slot_slotted hm hdev
  | succ level ih =>
      rw [slotsOf, reckon]
      refine From.bind (slot_slotted hm hdev) ?_
      rintro _ v ⟨w, rfl, hw⟩
      refine From.ite (fun hz => From.pure ⟨w, v, hw, Or.inl ⟨(toNat_eq_zero w).mp hz, rfl, rfl⟩⟩)
        fun hz => ?_
      refine From.post (ih (hm.within (hw.within hdev)) rfl) fun r u h => ?_
      exact ⟨w, v, hw, Or.inr ⟨fun h => hz ((toNat_eq_zero w).mpr h), h⟩⟩

theorem Walk.within (h : Walk sb dev js array i s r u) (hdev : array.dev = dev) :
    Within dev (fun _ _ => True) s u := by
  induction js generalizing array i s with
  | nil =>
      obtain ⟨w, -, hw⟩ := h
      exact (hw.within hdev).mono fun _ _ _ => trivial
  | cons j js ih =>
      obtain ⟨w, v, hw, ⟨-, -, rfl⟩ | ⟨-, h⟩⟩ := h
      · exact (hw.within hdev).mono fun _ _ _ => trivial
      · exact ((hw.within hdev).mono fun _ _ _ => trivial).trans (ih h rfl)

/-- Only empty slots are stored to. -/
theorem Walk.word (h : Walk sb dev js array i s r u) (hdev : array.dev = dev)
    (heven : array.off % 2 = 0) {b o : Nat} (hb : ¬ IsZmap sb b) (ho : o % 2 = 0)
    (hne : word s dev b o ≠ 0) : word u dev b o = word s dev b o := by
  induction js generalizing array i s with
  | nil =>
      obtain ⟨w, -, hw⟩ := h
      exact hw.word hdev heven hb ho hne
  | cons j js ih =>
      obtain ⟨w, v, hw, h⟩ := h
      have hv := hw.word hdev heven hb ho hne
      rcases h with ⟨-, -, rfl⟩ | ⟨-, h⟩
      · exact hv
      · refine (ih h rfl rfl ?_).trans hv
        exact fun hzero => hne (hv.symm.trans hzero)

/-- The slot at the start of a way holds what leads on. -/
theorem Walk.first {j : Nat} (h : Walk sb dev js { dev := dev, block := w.toNat, off := 0 } j v r u)
    (hw : Slotted s sb array i w v) (hne : w ≠ 0) (hdev : array.dev = dev)
    (heven : array.off % 2 = 0) (hz : ¬ IsZmap sb array.block) : u.index array i = w := by
  subst hdev
  rw [index_word, h.word rfl rfl hz (by omega)]
  · exact hw.index
  · exact fun hzero => hne (hw.index.symm.trans hzero)

/-- What holds of the index blocks on a way. -/
def Inner (u : Kernel) (dev : Dev) (array : Place) (i : Nat) (js : List Nat)
    (P : Nat → Prop) : Prop :=
  ∀ l, l <+: js → l ≠ js → through u dev array i l ≠ 0 → P (through u dev array i l)

theorem Inner.behind {P : Nat → Prop} {j : Nat} (h : Inner u dev array i (j :: js) P)
    (hw : u.index array i = w) (hne : w ≠ 0) : P w.toNat ∧
      Inner u dev { dev := dev, block := w.toNat, off := 0 } j js P := by
  have hstep : ∀ l, through u dev array i (j :: l) =
      through u dev { dev := dev, block := w.toNat, off := 0 } j l := by
    intro l
    rw [through, hw, if_neg hne]
  have hpos : through u dev array i [] = w.toNat := congrArg BitVec.toNat hw
  constructor
  · rw [← hpos]
    refine h [] List.nil_prefix (List.cons_ne_nil _ _).symm ?_
    rw [hpos]
    exact fun hzero => hne ((toNat_eq_zero w).mp hzero)
  · intro l hl hne'
    rw [← hstep]
    refine h (j :: l) ?_ fun heq => hne' (List.cons.inj heq).2
    exact (List.prefix_append_right_inj [j]).mpr hl

/-- The way leads to the block returned, if no index block on it is one of the bitmap. -/
theorem Walk.leads (h : Walk sb dev js array i s r u) (hdev : array.dev = dev)
    (heven : array.off % 2 = 0) (hz : ¬ IsZmap sb array.block)
    (hidx : Inner u dev array i js fun b => ¬ IsZmap sb b) (hr : r ≠ 0) :
    through u dev array i js = r := by
  induction js generalizing array i s with
  | nil =>
      obtain ⟨w, rfl, hw⟩ := h
      exact congrArg BitVec.toNat hw.index
  | cons j js ih =>
      obtain ⟨w, v, hw, ⟨-, hr0, -⟩ | ⟨hne, h⟩⟩ := h
      · exact absurd hr0 hr
      have hfirst := h.first hw hne hdev heven hz
      obtain ⟨hzw, hidx⟩ := hidx.behind hfirst hne
      rw [through, hfirst, if_neg hne]
      exact ih h rfl rfl hzw hidx

/-- Only the bitmap, the first slot and the index blocks on the way are written. -/
theorem Walk.bytes (h : Walk sb dev js array i s r u) (hdev : array.dev = dev)
    (heven : array.off % 2 = 0) (hz : ¬ IsZmap sb array.block) {b o : Nat} (hb : ¬ IsZmap sb b)
    (ho : ¬ At (array.add (2 * i)) 2 b o)
    (hidx : Inner u dev array i js fun c => ¬ IsZmap sb c ∧ b ≠ c) :
    u.disk dev b o = s.disk dev b o := by
  induction js generalizing array i s with
  | nil =>
      obtain ⟨w, -, hw⟩ := h
      exact (hw.within hdev).bytes b o fun hat => hat.elim hb ho
  | cons j js ih =>
      obtain ⟨w, v, hw, h⟩ := h
      have hv : v.disk dev b o = s.disk dev b o :=
        (hw.within hdev).bytes b o fun hat => hat.elim hb ho
      rcases h with ⟨-, -, rfl⟩ | ⟨hne, h⟩
      · exact hv
      have hfirst := h.first hw hne hdev heven hz
      obtain ⟨⟨hzw, hbw⟩, hidx⟩ := hidx.behind hfirst hne
      refine (ih h rfl rfl hzw ?_ hidx).trans hv
      exact fun hat => hbw hat.1

/-- A way whose slots outside the bitmap stay as they are if they hold something. -/
theorem through_kept {P : Nat → Prop} (hP : ∀ b, P b → ¬ IsZmap sb b)
    (hw : ∀ b o, ¬ IsZmap sb b → o % 2 = 0 → word s dev b o ≠ 0 → word u dev b o = word s dev b o)
    (hdev : array.dev = dev) (heven : array.off % 2 = 0) (hz : ¬ IsZmap sb array.block)
    (hidx : Inner s dev array i js P) (hne : through s dev array i js ≠ 0) :
    through u dev array i js = through s dev array i js := by
  have hread : ∀ (s : Kernel) (array : Place) (i : Nat), array.dev = dev →
      s.index array i = word s dev array.block (array.off + 2 * i) := by
    rintro s array i rfl
    rfl
  induction js generalizing array i with
  | nil =>
      have hslot : s.index array i ≠ 0 := fun hzero => hne ((toNat_eq_zero _).mpr hzero)
      rw [hread s array i hdev] at hslot
      refine congrArg BitVec.toNat ?_
      rw [hread u array i hdev, hread s array i hdev]
      exact hw _ _ hz (by omega) hslot
  | cons j js ih =>
      rw [through] at hne
      rw [through, through]
      by_cases h0 : s.index array i = 0
      · rw [if_pos h0] at hne
        exact absurd rfl hne
      · rw [if_neg h0] at hne
        have hsame : u.index array i = s.index array i := by
          rw [hread u array i hdev, hread s array i hdev]
          exact hw _ _ hz (by omega) (hread s array i hdev ▸ h0)
        obtain ⟨hPw, hidx⟩ := hidx.behind rfl h0
        rw [hsame, if_neg h0, if_neg h0]
        exact ih rfl rfl (hP _ hPw) hidx hne

/-! ## The blocks of a file -/

/-- The parts of a file are in data zones of their own, and no index block is among
    these. -/
structure Spread (s : Kernel) (sb : SuperDesc) (d : Place) : Prop where
  zones : ∀ n < TOTAL_BLOCK, blockOf s d n ≠ 0 → IsDataZone sb (blockOf s d n)
  once : ∀ m < TOTAL_BLOCK, ∀ n < TOTAL_BLOCK, blockOf s d m ≠ 0 →
  blockOf s d m = blockOf s d n → m = n
  apart : ∀ n < TOTAL_BLOCK, blockOf s d n ≠ 0 → ¬ IsIndex s d (blockOf s d n)

/-- Besides, the index blocks are data zones. -/
structure Private (s : Kernel) (sb : SuperDesc) (d : Place) : Prop extends Spread s sb d where
  index : ∀ b, IsIndex s d b → IsDataZone sb b

/-- The index blocks on the way to a part. -/
theorem inner_index (hn : n < TOTAL_BLOCK) :
    Inner s d.dev (d.add 14) (zoneOf n) (slotsOn n) (IsIndex s d) := by
  intro l hl hne h0
  have hp := position_of hn
  have hleaf := leaf_of n
  have hlt : l.length < (slotsOn n).length := by
    refine Nat.lt_of_le_of_ne hl.length_le fun heq => hne ?_
    exact hl.eq_of_length heq
  refine ⟨zoneOf n, l, ⟨hp.zone, by omega, fun j hj => hp.slots j (hl.subset hj)⟩, by omega, h0, rfl⟩

theorem Inner.mono {P Q : Nat → Prop} (h : Inner u dev array i js P) (hPQ : ∀ b, P b → Q b) :
    Inner u dev array i js Q := fun l hl hne h0 => hPQ _ (h l hl hne h0)

/-- What `bmap` with `create` did: a part is at block `r` now. -/
structure Placed (sb : SuperDesc) (d : Place) (n r : Nat) (s u : Kernel) : Prop where
  within : Within d.dev (fun b o => IsZmap sb b ∨ At (d.add 14) 18 b o ∨ IsIndex u d b) s u
  block : blockOf u d n = r
  kept : ∀ m < TOTAL_BLOCK, blockOf s d m ≠ 0 → blockOf u d m = blockOf s d m

theorem bmap_walk (h : Located s sb d dir) (hrun : bmap dir n true fuel s = .ok (r, u)) :
    Walk sb d.dev (slotsOn n) (d.add 14) (zoneOf n) s r u := by
  have hn := bmap_bound hrun
  obtain ⟨level, block, divider, -, hslots, hway⟩ := bmap_way fuel hn h.desc h.device
  have hfrom : From never s (reckon d.dev true level (d.add 14) (zoneOf n) block divider) fun r u =>
      Walk sb d.dev (slotsOf level block divider) (d.add 14) (zoneOf n) s r u :=
    reckon_walk h.volume rfl
  rw [hslots]
  exact hfrom.of_ok rfl ((hway true).symm.trans hrun)

theorem bmap_placed (h : Located s sb d dir) (hs : ∀ b, IsIndex s d b → IsDataZone sb b)
    (hu : ∀ b, IsIndex u d b → IsDataZone sb b) (hrun : bmap dir n true fuel s = .ok (r, u))
    (hr : r ≠ 0) : Placed sb d n r s u := by
  have hn := bmap_bound hrun
  have hz := (position_of hn).zone
  have hwalk := bmap_walk h hrun
  have heven : (d.add 14).off % 2 = 0 := by
    obtain ⟨k, hk⟩ := h.place.slot
    show (d.off + 14) % 2 = 0
    omega
  have hzmap : ¬ IsZmap sb (d.add 14).block := h.place.not_zmap
  have hinner := inner_index (s := u) (d := d) hn
  refine ⟨⟨⟨(hwalk.within rfl).other, fun b o hout => ?_⟩, (hwalk.within rfl).tables⟩, ?_, ?_⟩
  · refine hwalk.bytes rfl heven hzmap (fun hb => hout (Or.inl hb)) ?_ (hinner.mono fun c hc => ?_)
    · rintro ⟨hb, hlo, hhi⟩
      change d.off + 14 + 2 * zoneOf n ≤ o at hlo
      change o < d.off + 14 + 2 * zoneOf n + 2 at hhi
      refine hout (Or.inr (Or.inl ⟨hb, ?_, ?_⟩))
      · show d.off + 14 ≤ o
        omega
      · show o < d.off + 14 + 18
        omega
    · refine ⟨dataZone_not_zmap (hu c hc), ?_⟩
      rintro rfl
      exact hout (Or.inr (Or.inr hc))
  · rw [blockOf_eq]
    exact hwalk.leads rfl heven hzmap (hinner.mono fun c hc => dataZone_not_zmap (hu c hc)) hr
  · intro m hm hne
    rw [blockOf_eq] at hne
    rw [blockOf_eq, blockOf_eq]
    exact through_kept (fun b hb => dataZone_not_zmap (hs b hb))
      (fun b o hb ho h0 => hwalk.word rfl heven hb ho h0) rfl heven hzmap (inner_index hm) hne

/-! ## Bytes -/

/-- Byte `x` of a file. -/
def byteAt (s : Kernel) (d : Place) (x : Nat) : Byte :=
  s.disk d.dev (blockOf s d (x / BLOCK_SIZE)) (x % BLOCK_SIZE)

/-- Byte `x` is in a block. -/
def Has (s : Kernel) (d : Place) (x : Nat) : Prop :=
  x / BLOCK_SIZE < TOTAL_BLOCK ∧ blockOf s d (x / BLOCK_SIZE) ≠ 0

/-- The bytes from `lo` on are `data` now and in blocks, the others that are in blocks
    are what they were, and the file ends behind both. -/
structure Stored (d : Place) (i lo hi : Nat) (data : Nat → Byte) (s t : Kernel) : Prop where
  tables : t = { s with disk := t.disk }
  mode : t.mode i = s.mode i
  size : t.size i = if lo < hi then max (s.size i) hi else s.size i
  kept : ∀ m < TOTAL_BLOCK, blockOf s d m ≠ 0 → blockOf t d m = blockOf s d m
  has : ∀ x, lo ≤ x → x < hi → Has t d x
  written : ∀ x, lo ≤ x → x < hi → byteAt t d x = data (x - lo)
  rest : ∀ x, Has s d x → ¬ (lo ≤ x ∧ x < hi) → byteAt t d x = byteAt s d x

theorem Stored.has_old {lo hi x : Nat} {data : Nat → Byte} (h : Stored d i lo hi data s t)
    (hx : Has s d x) : Has t d x := by
  refine ⟨hx.1, ?_⟩
  rw [h.kept _ hx.1 hx.2]
  exact hx.2

/-- One piece after the other. -/
theorem Stored.trans {lo mid hi : Nat} {data : Nat → Byte} (h : Stored d i lo mid data s t)
    (h' : Stored d i mid hi (fun k => data (k + (mid - lo))) t u) (hlo : lo ≤ mid)
    (hhi : mid ≤ hi) :
    Stored d i lo hi data s u where
  tables := by rw [h'.tables, h.tables]
  mode := h'.mode.trans h.mode
  size := by
    rw [h'.size, h.size]
    split_ifs
    all_goals omega
  kept := fun m hm hne => by
    have ht := h.kept m hm hne
    rw [h'.kept m hm (by rw [ht]; exact hne), ht]
  has := fun x hx hx' => by
    by_cases hmid : x < mid
    · exact h'.has_old (h.has x hx hmid)
    · exact h'.has x (by omega) hx'
  written := fun x hx hx' => by
    by_cases hmid : x < mid
    · rw [h'.rest x (h.has x hx hmid) (by omega)]
      exact h.written x hx hmid
    · rw [h'.written x (by omega) hx']
      exact congrArg data (by omega)
  rest := fun x hx hout => by
    rw [h'.rest x (h.has_old hx) (by omega)]
    exact h.rest x hx (by omega)

/-! ## One turn of the loop of `inode_write` -/

/-- The size is raised. -/
def raised (s : Kernel) (i next : Nat) : Kernel := if next > s.size i then s.setSize i next else s

/-- The size is raised and the bytes are copied. -/
def storeChunk (s : Kernel) (i : Nat) (dev : Dev) (nr start chars next : Nat) (buf : Nat → Byte) :
    Kernel :=
  (raised s i next).setBlock dev nr (patch ((raised s i next).disk dev nr) start chars buf)

/-- The characters of one turn from byte `o` on. -/
def chunk (o left : Nat) : Nat := min (BLOCK_SIZE - o % BLOCK_SIZE) left

theorem chunk_pos {o left : Nat} (h : 0 < left) : 0 < chunk o left ∧ chunk o left ≤ left ∧
    o % 1024 + chunk o left ≤ 1024 := by
  have hB : BLOCK_SIZE = 1024 := rfl
  rw [chunk, hB]
  omega

/-- The end of a piece of a part is below the end of the longest file. -/
theorem chunk_bound {o left : Nat} (hn : o / BLOCK_SIZE < TOTAL_BLOCK) (h : 0 < left) :
    o + chunk o left < 2 ^ 31 := by
  obtain ⟨-, -, hfit⟩ := chunk_pos (o := o) h
  change o / 1024 < 262663 at hn
  omega

theorem within_raised (hdesc : s.desc i = d) (next : Nat) :
    Within d.dev (At (d.add 4) 4) s (raised s i next) := by
  rw [raised]
  split_ifs
  · exact within_setSize hdesc next
  · exact .refl

theorem within_storeChunk (nr start chars next : Nat) (buf : Nat → Byte) (hdesc : s.desc i = d) :
    Within d.dev (fun b x => At (d.add 4) 4 b x ∨ (b = nr ∧ start ≤ x ∧ x < start + chars)) s
      (storeChunk s i d.dev nr start chars next buf) := by
  refine ((within_raised hdesc next).mono fun b x hb => Or.inl hb).trans ?_
  refine (within_setBlock (W := fun b x => b = nr ∧ start ≤ x ∧ x < start + chars) ?_).mono
    fun b x hb => Or.inr hb
  intro x hx
  exact if_neg fun hin => hx ⟨rfl, hin⟩

/-- What is copied into a block is there. -/
theorem storeChunk_byte (s : Kernel) (d : Place) (i nr start chars next : Nat) (buf : Nat → Byte)
    {x : Nat} (hx : start ≤ x)
    (hx' : x < start + chars) :
    (storeChunk s i d.dev nr start chars next buf).disk d.dev nr x = buf (x - start) := by
  have hblock : (storeChunk s i d.dev nr start chars next buf).disk d.dev nr =
      patch ((raised s i next).disk d.dev nr) start chars buf :=
    (congrFun (Function.update_self ..) nr).trans (Function.update_self ..)
  rw [hblock]
  exact if_pos ⟨hx, hx'⟩

/-- A store to another block leaves the size as it was raised. -/
theorem size_storeChunk {nr next : Nat} (start chars : Nat) (buf : Nat → Byte)
    (hdesc : s.desc i = d)
    (hnr : nr ≠ d.block) (hnext : next < 2 ^ 32) :
    (storeChunk s i d.dev nr start chars next buf).size i = max (s.size i) next := by
  have hother : (storeChunk s i d.dev nr start chars next buf).disk d.dev d.block =
      (raised s i next).disk d.dev d.block :=
    (congrFun (Function.update_self ..) d.block).trans (Function.update_of_ne hnr.symm ..)
  have hdesc' : (storeChunk s i d.dev nr start chars next buf).desc i = d := by
    rw [(within_storeChunk nr start chars next buf hdesc).tables]
    exact hdesc
  have hsame : (storeChunk s i d.dev nr start chars next buf).size i =
      (u32At ((raised s i next).bytes d) 4).toNat := by
    rw [Kernel.size, hdesc']
    exact congrArg BitVec.toNat (u32At_congr fun k _ => congrFun hother _)
  rw [hsame, raised]
  split_ifs with h
  · rw [size_setSize hdesc hnext]
    omega
  · rw [← hdesc]
    show s.size i = _
    omega

theorem turn_stored {nr o left : Nat} (buf : Nat → Byte) (hloc : Located s sb d i)
    (hs : Private s sb d) (hu : Private u sb d)
    (hrun : bmap i (o / BLOCK_SIZE) true fuel s = .ok (nr, u)) (hnr : nr ≠ 0) (hleft : 0 < left) :
    Stored d i o (o + chunk o left) buf s
      (storeChunk u i d.dev nr (o % BLOCK_SIZE) (chunk o left) (o + chunk o left) buf) := by
  have hB : BLOCK_SIZE = 1024 := rfl
  obtain ⟨hpos, hchunk, hfit⟩ := chunk_pos (o := o) hleft
  have hn := bmap_bound hrun
  have hplaced := bmap_placed hloc hs.index hu.index hrun hnr
  have hdesc : u.desc i = d := by
    rw [hplaced.within.tables]
    exact hloc.desc
  have hdata : IsDataZone sb nr := by
    rw [← hplaced.block]
    exact hu.zones _ hn (by rw [hplaced.block]; exact hnr)
  have hnrd : nr ≠ d.block := dataZone_ne_desc hdata hloc.place
  have hstore := within_storeChunk nr (o % BLOCK_SIZE) (chunk o left) (o + chunk o left) buf hdesc
  have hwritten := fun {x : Nat} => storeChunk_byte u d i nr (o % BLOCK_SIZE) (chunk o left)
    (o + chunk o left) buf (x := x)
  have hraise := size_storeChunk (o % BLOCK_SIZE) (chunk o left) buf hdesc hnrd
    ((chunk_bound hn hleft).trans (by decide))
  generalize storeChunk u i d.dev nr (o % BLOCK_SIZE) (chunk o left) (o + chunk o left) buf = v at *
  -- the bytes of the descriptor in front of its zones, before the stores
  have hhead : ∀ x, x < d.off + 14 → u.disk d.dev d.block x = s.disk d.dev d.block x := by
    intro x hx
    refine hplaced.within.bytes _ _ ?_
    rintro (hz | ⟨-, hlo, -⟩ | hidx)
    · exact hloc.place.not_zmap hz
    · change d.off + 14 ≤ x at hlo
      omega
    · exact dataZone_ne_desc (hu.index _ hidx) hloc.place rfl
  -- the stores do not touch the way to any part
  have hway : ∀ m < TOTAL_BLOCK, blockOf v d m = blockOf u d m := by
    intro m hm
    refine blockOf_same (fun b x hb => hstore.bytes b x ?_) hm
    rintro (⟨hb', hlo, hhi⟩ | ⟨rfl, -⟩)
    · change d.off + 4 ≤ x at hlo
      change x < d.off + 4 + 4 at hhi
      rcases hb with ⟨-, hlo', -⟩ | hidx
      · change d.off + 14 ≤ x at hlo'
        omega
      · exact dataZone_ne_desc (hu.index _ hidx) hloc.place hb'
    · rcases hb with ⟨hblock, -⟩ | hidx
      · exact hnrd hblock
      · rw [← hplaced.block] at hidx
        exact hu.apart _ hn (by rw [hplaced.block]; exact hnr) hidx
  have hin : ∀ x, o ≤ x → x < o + chunk o left → x / BLOCK_SIZE = o / BLOCK_SIZE := by
    intro x hx hx'
    rw [hB]
    omega
  have htables : v = { s with disk := v.disk } := by rw [hstore.tables, hplaced.within.tables]
  have hvdesc : v.desc i = d := by
    rw [htables]
    exact hloc.desc
  refine ⟨htables, ?_, ?_, fun m hm hne => ?_, fun x hx hx' => ?_, fun x hx hx' => ?_,
    fun x hx hout => ?_⟩
  · rw [Kernel.mode, Kernel.mode, hvdesc, hloc.desc]
    refine u16At_congr fun k hk => (hstore.bytes _ _ ?_).trans (hhead _ (by omega))
    rintro (⟨-, hlo, -⟩ | ⟨hb, -⟩)
    · change d.off + 4 ≤ d.off + (0 + k) at hlo
      omega
    · exact hnrd hb.symm
  · rw [hraise, if_pos (by omega), Kernel.size, Kernel.size, hdesc, hloc.desc]
    refine congrArg (fun x => max (BitVec.toNat x) _) (u32At_congr fun k hk => hhead _ (by omega))
  · rw [hway m hm, hplaced.kept m hm hne]
  · refine ⟨?_, ?_⟩
    · rw [hin x hx hx']
      exact hn
    · rw [hin x hx hx', hway _ hn, hplaced.block]
      exact hnr
  · rw [byteAt, hin x hx hx', hway _ hn, hplaced.block, hwritten]
    · exact congrArg buf (by rw [hB]; omega)
    · rw [hB]
      omega
    · rw [hB]
      omega
  · have hblock := (hway _ hx.1).trans (hplaced.kept _ hx.1 hx.2)
    have hold := hs.zones _ hx.1 hx.2
    rw [byteAt, byteAt, hblock]
    refine (hstore.bytes _ _ ?_).trans (hplaced.within.bytes _ _ ?_)
    · rintro (⟨hb, -⟩ | ⟨hb, hlo, hhi⟩)
      · exact dataZone_ne_desc hold hloc.place hb
      · -- the block that is written holds another piece of the same part
        rw [← hplaced.block, ← hplaced.kept _ hx.1 hx.2] at hb
        have hpart := hu.once _ hx.1 _ hn (by rw [hplaced.kept _ hx.1 hx.2]; exact hx.2) hb
        rw [hB] at hpart hlo hhi
        omega
    · rintro (hz | ⟨hb, -⟩ | hidx)
      · exact dataZone_not_zmap hold hz
      · exact dataZone_ne_desc hold hloc.place hb
      · rw [← hplaced.kept _ hx.1 hx.2] at hidx
        exact hu.apart _ hx.1 (by rw [hplaced.kept _ hx.1 hx.2]; exact hx.2) hidx

/-! ## The loop of `inode_write` -/

theorem sound_nat {o : Nat} (h : o < 2 ^ 31) : Sound (o : Int) := ⟨by omega, by omega⟩

theorem blockIn_nat {o : Nat} (h : o < 2 ^ 31) : blockIn (o : Int) = o / BLOCK_SIZE := by
  rw [blockIn_eq (sound_nat h), show BLOCK_SIZE = 1024 from rfl]
  omega

theorem startOf_nat (o : Nat) : startOf (o : Int) = o % BLOCK_SIZE := by
  rw [startOf_eq (by omega), show BLOCK_SIZE = 1024 from rfl]
  omega

theorem charsOf_nat (o left : Nat) : charsOf (o : Int) left = chunk o left := by
  rw [charsOf_eq (by omega), chunk, show BLOCK_SIZE = 1024 from rfl]
  omega

theorem int32_nat {x : Nat} (h : x < 2 ^ 31) : int32 (x : Int) = x := by
  rw [int32]
  omega

theorem u32_nat {x : Nat} (h : x < 2 ^ 32) : u32 (x : Int) = x := by
  rw [u32]
  omega

/-- A turn of the loop. -/
theorem writeLoop_step {nr left k : Nat} {offset : Int} {buf : Nat → Byte} (hleft : left ≠ 0)
    (hrun : bmap i (blockIn offset) true fuel s = .ok (nr, u)) (hnr : nr ≠ 0)
    (hcopy : startOf offset + charsOf offset left ≤ BLOCK_SIZE) :
    writeLoop i (k + 1) offset left buf fuel s =
      writeLoop i k (int32 (offset + charsOf offset left)) (left - charsOf offset left)
        (fun j => buf (j + charsOf offset left)) fuel
        (storeChunk u i (u.inode_table i).dev nr (startOf offset) (charsOf offset left)
          (u32 (int32 (offset + charsOf offset left))) buf) := by
  rw [writeLoop, if_neg hleft, bind_run hrun, assert, if_pos hnr]
  generalize charsOf offset left = chars at *
  generalize startOf offset = start at *
  show (onlyIf (u32 (int32 (offset + chars)) > u.size i)
      (modify fun s => s.setSize i (u32 (int32 (offset + chars)))) >>= fun _ =>
    copyIn (u.inode_table i).dev nr start chars buf >>= fun _ =>
    writeLoop i k (int32 (offset + chars)) (left - chars) fun j => buf (j + chars)) fuel u = _
  generalize int32 (offset + chars) = next
  rw [copyIn, if_pos hcopy, storeChunk, raised, onlyIf]
  split_ifs
  · rfl
  · rfl

theorem writeLoop_turn {nr o left : Nat} (k : Nat) (buf : Nat → Byte)
    (hdev : (u.inode_table i).dev = dev)
    (hrun : bmap i (o / BLOCK_SIZE) true fuel s = .ok (nr, u)) (hnr : nr ≠ 0) (hleft : 0 < left) :
    writeLoop i (k + 1) o left buf fuel s =
      writeLoop i k ((o + chunk o left : Nat) : Int) (left - chunk o left)
        (fun j => buf (j + chunk o left)) fuel
        (storeChunk u i dev nr (o % BLOCK_SIZE) (chunk o left) (o + chunk o left) buf) := by
  have hend := chunk_bound (bmap_bound hrun) hleft
  have hcast : (o : Int) + (chunk o left : Nat) = ((o + chunk o left : Nat) : Int) := by omega
  rw [← blockIn_nat (by omega)] at hrun
  rw [writeLoop_step (Nat.pos_iff_ne_zero.mp hleft) hrun hnr (copy_inside (by omega) left),
    charsOf_nat, startOf_nat, hcast, int32_nat (by omega), u32_nat (by omega), hdev]

/-- The predicate holds before every call of `bmap` of the loop, and each of them returns
    a block and keeps it. -/
def Throughout (P : Kernel → Prop) (i o left : Nat) (buf : Nat → Byte) (fuel : Nat) (s : Kernel) :
    Prop :=
  ∀ k x u, writeLoop i k o left buf fuel s = .ok (x, u) → P u ∧ (x < o + left →
    ∃ nr v, bmap i (blockIn x) true fuel u = .ok (nr, v) ∧ nr ≠ 0 ∧ P v)

/-- The loop stores all that is left. -/
theorem writeLoop_stores {turns o left : Nat} {buf : Nat → Byte} (hloc : Located s sb d i)
    (hall : Throughout (Private · sb d) i o left buf fuel s) (hturns : left ≤ turns)
    (hmax : o + left < 2 ^ 31) : ∃ t, writeLoop i turns o left buf fuel s =
      .ok (((o + left : Nat) : Int), t) ∧ Stored d i o (o + left) buf s t := by
  induction turns generalizing s o left buf with
  | zero =>
      obtain rfl : left = 0 := by omega
      refine ⟨s, rfl, rfl, rfl, (if_neg (by omega)).symm, fun _ _ _ => rfl,
        fun x hx hx' => by omega,
        fun x hx hx' => by omega, fun _ _ _ => rfl⟩
  | succ turns ih =>
      by_cases hleft : left = 0
      · subst hleft
        refine ⟨s, ?_, rfl, rfl, (if_neg (by omega)).symm, fun _ _ _ => rfl,
          fun x hx hx' => by omega, fun x hx hx' => by omega, fun _ _ _ => rfl⟩
        rw [writeLoop, if_pos rfl]
        rfl
      · have hpos : 0 < left := by omega
        obtain ⟨hcpos, hchunk, hfit⟩ := chunk_pos (o := o) hpos
        obtain ⟨hs, hmore⟩ := hall 0 o s rfl
        obtain ⟨nr, u, hrun, hnr, hu⟩ := hmore (by omega)
        rw [blockIn_nat (by omega)] at hrun
        have hplaced := bmap_placed hloc hs.index hu.index hrun hnr
        have hlocu := hloc.of_disk hplaced.within.tables
        have hturn := fun k => writeLoop_turn k buf hlocu.device hrun hnr hpos
        have hstored := turn_stored buf hloc hs hu hrun hnr hpos
        generalize storeChunk u i d.dev nr (o % BLOCK_SIZE) (chunk o left) (o + chunk o left) buf = v at *
        have hsum : o + chunk o left + (left - chunk o left) = o + left := by omega
        -- what is left of the run
        have hrest : Throughout (Private · sb d) i (o + chunk o left) (left - chunk o left)
            (fun j => buf (j + chunk o left)) fuel v := by
          intro k x w hk
          obtain ⟨hw, hnext⟩ := hall (k + 1) x w ((hturn k).trans hk)
          exact ⟨hw, fun hx => hnext (by omega)⟩
        obtain ⟨t, hloop, ht⟩ := ih (hloc.of_disk hstored.tables) hrest (by omega) (by omega)
        rw [hsum] at hloop ht
        refine ⟨t, (hturn turns).trans hloop, hstored.trans ?_ (by omega) (by omega)⟩
        rwa [Nat.add_sub_cancel_left]

/-! ## The loop of `inode_read` -/

/-- The bytes of a file from `o` on. -/
def bytesAt (s : Kernel) (d : Place) (o len : Nat) : List Byte :=
  (List.range len).map fun k => byteAt s d (o + k)

theorem bytesAt_append (s : Kernel) (d : Place) (o a b : Nat) :
    bytesAt s d o a ++ bytesAt s d (o + a) b = bytesAt s d o (a + b) := by
  rw [bytesAt, bytesAt, bytesAt, List.range_add, List.map_append, List.map_map]
  refine congrArg _ (List.map_congr_left fun k _ => ?_)
  exact congrArg (byteAt s d) (Nat.add_assoc o a k)

/-- A turn of the loop. -/
theorem readLoop_step {nr left k : Nat} {offset : Int} {bytes : List Byte} (hleft : left ≠ 0)
    (hrun : bmap i (blockIn offset) false fuel s = .ok (nr, s)) (hnr : nr ≠ 0)
    (hcopy : startOf offset + charsOf offset left ≤ BLOCK_SIZE) :
    readLoop i (k + 1) offset left bytes fuel s =
      readLoop i k (int32 (offset + charsOf offset left)) (left - charsOf offset left)
        (bytes ++ (List.range (charsOf offset left)).map fun k =>
          s.disk (s.inode_table i).dev nr (startOf offset + k)) fuel s := by
  rw [readLoop, if_neg hleft, bind_run hrun, assert, if_pos hnr]
  show (copyOut (s.inode_table i).dev nr (startOf offset) (charsOf offset left) >>= fun chunk =>
    readLoop i k _ _ (bytes ++ chunk)) fuel s = _
  rw [copyOut, if_pos hcopy]
  rfl

theorem readLoop_reads {turns o left : Nat} {bytes : List Byte} (hloc : Located s sb d i)
    (hhas : ∀ x, o ≤ x → x < o + left → Has s d x) (hturns : left ≤ turns)
    (hmax : o + left < 2 ^ 31) :
    readLoop i turns o left bytes fuel s =
      .ok ((((o + left : Nat) : Int), bytes ++ bytesAt s d o left), s) := by
  induction turns generalizing o left bytes with
  | zero =>
      obtain rfl : left = 0 := by omega
      rw [readLoop, bytesAt, List.range_zero, List.map_nil, List.append_nil]
      rfl
  | succ turns ih =>
      by_cases hleft : left = 0
      · subst hleft
        rw [readLoop, if_pos rfl, bytesAt, List.range_zero, List.map_nil, List.append_nil]
        rfl
      · have hpos : 0 < left := by omega
        have hB : BLOCK_SIZE = 1024 := rfl
        obtain ⟨hcpos, hchunk, hfit⟩ := chunk_pos (o := o) hpos
        have hcast : (o : Int) + (chunk o left : Nat) = ((o + chunk o left : Nat) : Int) := by omega
        have hsum : o + chunk o left + (left - chunk o left) = o + left := by omega
        obtain ⟨hn, hne⟩ := hhas o Nat.le.refl (by omega)
        have hrun : bmap i (blockIn o) false fuel s = .ok (blockOf s d (o / BLOCK_SIZE), s) := by
          rw [blockIn_nat (by omega), bmap_reads hn hloc.desc hloc.device, blockOf_eq]
        -- the bytes of one block are bytes of the file
        have hbytes : (List.range (chunk o left)).map (fun k =>
            s.disk d.dev (blockOf s d (o / BLOCK_SIZE)) (o % BLOCK_SIZE + k)) =
              bytesAt s d o (chunk o left) := by
          refine List.map_congr_left fun k hk => ?_
          have hk := List.mem_range.mp hk
          rw [byteAt, hB, show (o + k) / 1024 = o / 1024 by omega,
            show (o + k) % 1024 = o % 1024 + k by omega]
        rw [readLoop_step hleft hrun hne (copy_inside (by omega) left), charsOf_nat, startOf_nat,
          hcast, int32_nat (by omega), hloc.device, hbytes,
          ih (fun x hx hx' => hhas x (by omega) (by omega)) (by omega) (by omega), hsum,
          List.append_assoc, bytesAt_append, show chunk o left + (left - chunk o left) = left by omega]

/-- `inode_read` returns what is left of the file, and no more than asked for. -/
theorem inodeRead_reads {o len : Nat} (hloc : Located s sb d i)
    (hmode : ISFILE (s.mode i) ∨ ISDIR (s.mode i)) (ho : o < 2 ^ 31) (hsize : o < s.size i)
    (hhas : ∀ x, o ≤ x → x < o + min len (s.size i - o) → Has s d x) :
    inodeRead i len o fuel s =
      .ok ((((min len (s.size i - o) : Nat) : Int), bytesAt s d o (min len (s.size i - o))), s) := by
  have hlt : s.size i < 2 ^ 32 := BitVec.isLt _
  have hleft : u32 ((s.size i : Int) - (o : Int)) = s.size i - o := by
    rw [show (s.size i : Int) - (o : Int) = ((s.size i - o : Nat) : Int) by omega]
    exact u32_nat (by omega)
  -- a byte in a block is below the end of the longest file
  have hmax : o + min len (s.size i - o) < 2 ^ 31 := by
    by_cases h0 : min len (s.size i - o) = 0
    · rw [h0]
      exact ho
    · have hlast := (hhas (o + min len (s.size i - o) - 1) (by omega) (by omega)).1
      change (o + min len (s.size i - o) - 1) / 1024 < 7 + 512 + 512 * 512 at hlast
      omega
  rw [inodeRead]
  show (assert (ISFILE (s.mode i) ∨ ISDIR (s.mode i)) >>= fun _ => _) fuel s = _
  rw [assert, if_pos hmode]
  show (if u32 o ≥ s.size i then _ else _ : Fs (Int × List Byte)) fuel s = _
  rw [u32_nat (by omega), if_neg (by omega), hleft]
  dsimp only
  rw [bind_run (readLoop_reads hloc hhas Nat.le.refl hmax), List.nil_append]
  show Except.ok ((int32 (((o + min len (s.size i - o) : Nat) : Int) - (o : Int)), _), s) = _
  rw [show ((o + min len (s.size i - o) : Nat) : Int) - (o : Int) =
    ((min len (s.size i - o) : Nat) : Int) by omega, int32_nat (by omega)]

theorem inodeRead_eof {o len : Nat} (hmode : ISFILE (s.mode i) ∨ ISDIR (s.mode i)) (ho : o < 2 ^ 31)
    (hsize : s.size i ≤ o) : inodeRead i len o fuel s = .ok ((EOF, []), s) := by
  rw [inodeRead]
  show (assert (ISFILE (s.mode i) ∨ ISDIR (s.mode i)) >>= fun _ => _) fuel s = _
  rw [assert, if_pos hmode]
  show (if u32 o ≥ s.size i then _ else _ : Fs (Int × List Byte)) fuel s = _
  rw [u32_nat (by omega), if_pos (by omega)]
  rfl

/-- The time of the last change is neither a byte of a file nor on the way to one. -/
theorem setMtime_same {x : BitVec 32} (hloc : Located s sb d i) (hp : Private s sb d) :
    (s.setMtime i x).mode i = s.mode i ∧ (s.setMtime i x).size i = s.size i ∧
      (∀ m < TOTAL_BLOCK, blockOf (s.setMtime i x) d m = blockOf s d m) ∧
      ∀ y, Has s d y → byteAt (s.setMtime i x) d y = byteAt s d y := by
  have hw := within_setMtime hloc.desc x
  have hdesc : (s.setMtime i x).desc i = d := by
    rw [hw.tables]
    exact hloc.desc
  have hway : ∀ m < TOTAL_BLOCK, blockOf (s.setMtime i x) d m = blockOf s d m := by
    intro m hm
    refine blockOf_same (fun b o hb => hw.bytes b o ?_) hm
    rintro ⟨rfl, hlo, hhi⟩
    rcases hb with ⟨-, hlo', -⟩ | hidx
    · change d.off + 14 ≤ o at hlo'
      change o < d.off + 8 + 4 at hhi
      omega
    · exact dataZone_ne_desc (hp.index _ hidx) hloc.place rfl
  refine ⟨?_, ?_, hway, fun y hy => ?_⟩
  · rw [Kernel.mode, Kernel.mode, hdesc, hloc.desc]
    refine u16At_congr fun k hk => hw.bytes _ _ ?_
    rintro ⟨-, hlo, -⟩
    change d.off + 8 ≤ d.off + (0 + k) at hlo
    omega
  · rw [Kernel.size, Kernel.size, hdesc, hloc.desc]
    refine congrArg BitVec.toNat (u32At_congr fun k hk => hw.bytes _ _ ?_)
    rintro ⟨-, hlo, -⟩
    change d.off + 8 ≤ d.off + (4 + k) at hlo
    omega
  · rw [byteAt, byteAt, hway _ hy.1]
    refine hw.bytes _ _ fun hat => ?_
    exact dataZone_ne_desc (hp.zones _ hy.1 hy.2) hloc.place hat.1

theorem Stored.setMtime {lo hi : Nat} {data : Nat → Byte} {x : BitVec 32}
    (h : Stored d i lo hi data s t) (hloc : Located t sb d i) (hp : Private t sb d) :
    Stored d i lo hi data s (t.setMtime i x) := by
  obtain ⟨hmode, hsize, hway, hbytes⟩ := setMtime_same (x := x) hloc hp
  refine ⟨?_, hmode.trans h.mode, hsize.trans h.size, fun m hm hne => ?_,
    fun x hx hx' => ?_, fun x hx hx' => ?_, fun x hx hout => ?_⟩
  · rw [(within_setMtime hloc.desc x).tables, h.tables]
  · rw [hway m hm, h.kept m hm hne]
  · obtain ⟨hn, hne⟩ := h.has x hx hx'
    exact ⟨hn, by rw [hway _ hn]; exact hne⟩
  · rw [hbytes x (h.has x hx hx'), h.written x hx hx']
  · rw [hbytes x (h.has_old hx), h.rest x hx hout]

/-- `inode_write` stores all of it. -/
theorem inodeWrite_stores {o len : Nat} {buf : Nat → Byte} (hloc : Located s sb d i)
    (hmode : ISFILE (s.mode i)) (hall : Throughout (Private · sb d) i o len buf fuel s)
    (hmax : o + len < 2 ^ 31) : ∃ t, inodeWrite i buf len o fuel s = .ok ((len : Int), t) ∧
      Stored d i o (o + len) buf s t := by
  obtain ⟨t, hloop, ht⟩ := writeLoop_stores hloc hall Nat.le.refl hmax
  have hrun : inodeWrite i buf len o fuel s = .ok ((len : Int), t.setMtime i t.time) := by
    rw [inodeWrite]
    show (assert (ISFILE (s.mode i)) >>= fun _ => _) fuel s = _
    rw [assert, if_pos hmode]
    show (writeLoop i len o len buf >>= fun last => do
      modify fun s => s.setMtime i s.time
      return int32 (last - (o : Int)) : Fs Int) fuel s = _
    rw [bind_run hloop]
    show Except.ok (int32 (((o + len : Nat) : Int) - (o : Int)), _) = _
    rw [show ((o + len : Nat) : Int) - (o : Int) = (len : Int) by omega, int32_nat (by omega)]
  exact ⟨_, hrun, ht.setMtime (hloc.of_disk ht.tables) (hall len _ t hloop).1⟩

end NeonixFileContents
