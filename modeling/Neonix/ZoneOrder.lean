import Neonix.FileContents

/-! # The zones that a file takes, in their order

    `balloc` takes the free zones from the first on.  So it depends on the state before
    a call of `bmap` with `create` which zones the call takes, and what they hold
    (`bmap_taken`). -/

namespace NeonixZoneOrder

open NeonixMachine NeonixOutcome NeonixByteBits NeonixWords NeonixVolume NeonixAllocators NeonixCalls
  NeonixFileSystem NeonixNamei NeonixFrames NeonixDirectories NeonixBlockTrees NeonixBlockMaps
  NeonixFileContents

variable {s t u : Kernel} {dev : Dev} {sb : SuperDesc} {d : Place} {dir n r z k fuel : Nat}
  {js l : List Nat}

/-! ## The first free zones are taken -/

/-- The first `k` free zones are free no more, and the others hold what they held. -/
structure Took (sb : SuperDesc) (dev : Dev) (k : Nat) (s t : Kernel) : Prop where
  free : ∀ c, ZoneFree (vol t sb dev) c → ZoneFree (vol s sb dev) c ∧
    freeBefore (vol s sb dev) c = freeBefore (vol t sb dev) c + k
  bytes : ∀ c, ZoneFree (vol t sb dev) c → ∀ o, t.disk dev c o = s.disk dev c o
  spare : ∀ n, Spare (vol s sb dev) (n + k) → Spare (vol t sb dev) n

theorem Took.refl : Took sb dev 0 s s :=
  ⟨fun _ hc => ⟨hc, rfl⟩, fun _ _ _ => rfl, fun _ hn => hn⟩

theorem Took.trans {k' : Nat} (h : Took sb dev k s t) (h' : Took sb dev k' t u) :
    Took sb dev (k' + k) s u where
  free := fun c hc => by
    obtain ⟨ht, hut⟩ := h'.free c hc
    obtain ⟨hs, hts⟩ := h.free c ht
    exact ⟨hs, by omega⟩
  bytes := fun c hc o => (h'.bytes c hc o).trans (h.bytes c (h'.free c hc).1 o)
  spare := fun n hn => h'.spare n (h.spare (n + k') (by rwa [Nat.add_assoc]))

/-- Stores outside the bitmap and the free zones take nothing. -/
theorem took_nothing {W : Nat → Nat → Prop} (h : Within dev W s t)
    (hW : ∀ b o, W b o → ¬ IsZmap sb b ∧ ¬ ZoneFree (vol s sb dev) b) : Took sb dev 0 s t := by
  have hbit : ∀ {j}, InZoneMap sb j → zoneBit (vol t sb dev) j = zoneBit (vol s sb dev) j :=
    fun hj => zoneBit_congr (fun b o hz => h.bytes b o fun hb => (hW b o hb).1 hz) hj
  have hiff : ∀ c, ZoneFree (vol t sb dev) c ↔ ZoneFree (vol s sb dev) c := by
    intro c
    constructor
    · exact fun hc => ⟨hc.1, hc.2.1, (hbit hc.2.1).symm.trans hc.2.2⟩
    · exact fun hc => ⟨hc.1, hc.2.1, (hbit hc.2.1).trans hc.2.2⟩
  refine ⟨fun c hc => ⟨(hiff c).mp hc, ?_⟩, fun c hc o => ?_, fun n hn => ?_⟩
  · rw [freeBefore, freeBefore, Nat.add_zero]
    simp only [hiff]
  · exact h.bytes c o fun hb => (hW c o hb).2 ((hiff c).mp hc)
  · exact (h.toDiffers.marks fun b o hb => (hW b o hb).1).2 n hn

/-- The first free zone has no free zone before it. -/
theorem freeBefore_lowest {v : Volume} (h : LowestFreeZone v r) : freeBefore v r = 0 := by
  refine Finset.card_eq_zero.mpr (Finset.filter_eq_empty_iff.mpr fun x hx hfree => ?_)
  exact absurd (h.2 x hfree) (Nat.not_le.mpr (Finset.mem_range.mp hx))

/-- One slot is filled. -/
theorem took_filled {array : Place} {i : Nat} (hB : IndexTree s sb d) (hd : DescPlace sb d)
    (hslot : SlotOf s d z js array i) (hp : Position z js)
    (hr : LowestFreeZone (vol s sb d.dev) r) :
    Took sb d.dev 1 s (filled s sb array i r) where
  free := fun c hc =>
    ⟨((free_filled hB hd hslot hp hr.1 c).mp hc).1, freeBefore_filled hB hd hslot hp hr.1 hr hc⟩
  bytes := fun c hc o => by
    have hfree := ((free_filled hB hd hslot hp hr.1 c).mp hc).1
    refine (within_filled hslot hr.1).bytes c o ?_
    rintro (hz | ⟨hblock, -⟩)
    · exact dataZone_not_zmap hfree.1 hz
    · exact slot_ne_free hB hd hslot hp hfree hblock
  spare := (marks_filled hB hd hslot hp hr.1).2.2

/-! ## What `bmap` with `create` takes -/

/-- A call filled the `k` empty slots on the way to a position: with the first free
    zones, and the last of them is the block returned. -/
structure Taken (sb : SuperDesc) (d : Place) (z : Nat) (js : List Nat) (k r : Nat) (s t : Kernel) :
    Prop where
  grown : Grown sb d z js r s t
  others : ∀ z' js', Position z' js' → ¬ (z' = z ∧ js' <+: js) →
  blockAt t d z' js' = blockAt s d z' js'
  took : Took sb d.dev k s t
  last : k ≠ 0 → ZoneFree (vol s sb d.dev) r ∧ freeBefore (vol s sb d.dev) r + 1 = k ∧
    ∀ o, t.disk d.dev r o = s.disk d.dev r o

theorem Taken.refl (hB : BlockTree s sb d) (h : blockAt s d z js ≠ 0) :
    Taken sb d z js 0 (blockAt s d z js) s s :=
  ⟨.refl hB h, fun _ _ _ _ => rfl, .refl, fun h => absurd rfl h⟩

/-- A slot of the file itself was filled. -/
theorem taken_filled {array : Place} {i : Nat} (hB : BlockTree s sb d) (hd : DescPlace sb d)
    (hslot : SlotOf s d z js array i) (hp : Position z js) (hr : LowestFreeZone (vol s sb d.dev) r)
    (h0 : blockAt s d z js = 0)
    (hblank : js.length = z - 6 ∨ ∀ o < BLOCK_SIZE, s.disk d.dev r o = 0) :
    Taken sb d z js 1 r s (filled s sb array i r) where
  grown := grown_filled hB hd hslot hp hr.1 h0 hblank
  others := fun z' js' hp' hne => by
    rw [blockAt_filled hB.index hd hslot hp hr.1 h0 hblank hp', if_neg]
    rintro ⟨rfl, rfl⟩
    exact hne ⟨rfl, List.prefix_refl _⟩
  took := took_filled hB.index hd hslot hp hr
  last := fun _ => by
    refine ⟨hr.1, by rw [freeBefore_lowest hr], fun o => (within_filled hslot hr.1).bytes r o ?_⟩
    rintro (hz | ⟨hblock, -⟩)
    · exact dataZone_not_zmap hr.1.1 hz
    · exact slot_ne_free hB.index hd hslot hp hr.1 hblock

/-- An index block was put in, and what is behind it after that. -/
theorem Taken.trans {r' : Nat} (h : Taken sb d z js 1 r s t) (h' : Taken sb d z (js ++ l) k r' t u)
    (hk : k ≠ 0) : Taken sb d z (js ++ l) (k + 1) r' s u where
  grown := h.grown.trans h'.grown
  others := fun z' js' hp hne => by
    rw [h'.others z' js' hp hne, h.others z' js' hp]
    rintro ⟨rfl, hpre⟩
    exact hne ⟨rfl, hpre.trans (List.prefix_append js l)⟩
  took := h.took.trans h'.took
  last := fun _ => by
    obtain ⟨hfree, hbefore, hbytes⟩ := h'.last hk
    obtain ⟨hs, hst⟩ := h.took.free r' hfree
    exact ⟨hs, by omega, fun o => (hbytes o).trans (h.took.bytes r' hfree o)⟩

theorem reckon_taken {level : Nat} {array : Place} {i block divider : Nat}
    (hm : OnVolume s d.dev sb) (h0 : Reserved (vol s sb d.dev)) (hB : BlockTree s sb d)
    (hd : DescPlace sb d) (hslot : SlotOf s d z l array i)
    (hp : Position z (l ++ slotsOf level block divider)) (hlen : l.length + level = z - 6)
    (hready : Ready s sb d (missing s d.dev array i (slotsOf level block divider))) :
    From never s (reckon d.dev true level array i block divider) fun r t =>
      Taken sb d z (l ++ slotsOf level block divider)
        (missing s d.dev array i (slotsOf level block divider)) r s t := by
  induction level generalizing s l array i block divider with
  | zero =>
      rw [slotsOf, List.append_nil] at hp ⊢
      rw [slotsOf, missing] at hready
      rw [missing]
      by_cases hz : s.index array i = 0
      · -- the slot of the part itself is filled
        rw [if_pos hz] at hready ⊢
        have hcreate := slot_create (i := i) (n := 0) (hslot.device ▸ hm) (hslot.device ▸ h0)
          (hslot.device ▸ hready.spare)
        rw [hslot.device] at hcreate
        refine hcreate.post ?_
        rintro r t (⟨hne, -, -⟩ | ⟨-, hr, rfl⟩)
        · exact absurd hz hne
        · have hzero : blockAt s d z l = 0 := hslot.block.trans ((toNat_eq_zero _).mpr hz)
          exact taken_filled hB hd hslot hp hr hzero (Or.inl hlen)
      · rw [if_neg hz]
        refine (slot_mapped hz).post ?_
        rintro r _ ⟨rfl, rfl⟩
        rw [← hslot.block]
        refine .refl hB fun hzero => hz ?_
        exact (toNat_eq_zero _).mp (hslot.block.symm.trans hzero)
  | succ level ih =>
      rw [slotsOf] at hp hready ⊢
      have happ : l ++ block / divider :: slotsOf level (block % divider) (divider / BLOCK_INDEXES) =
          (l ++ [block / divider]) ++ slotsOf level (block % divider) (divider / BLOCK_INDEXES) := by
        rw [List.append_assoc, List.singleton_append]
      have hpl : Position z l := ⟨hp.zone, by omega, fun j hj => hp.slots j (List.mem_append_left _ hj)⟩
      have hlen' : (l ++ [block / divider]).length + level = z - 6 := by
        rw [List.length_append, List.length_singleton]
        omega
      rw [happ] at hp
      rw [missing] at hready ⊢
      by_cases hz : s.index array i = 0
      · -- a blank zone becomes the index block
        rw [if_pos hz] at hready ⊢
        have hlow := slot_create (i := i) (n := 0) (hslot.device ▸ hm) (hslot.device ▸ h0)
          (hslot.device ▸ hready.spare.mono (by omega))
        rw [hslot.device] at hlow
        refine From.bind hlow ?_
        rintro r t (⟨hne, -, -⟩ | ⟨-, hr, rfl⟩)
        · exact absurd hz hne
        have hzero : blockAt s d z l = 0 := hslot.block.trans ((toNat_eq_zero _).mpr hz)
        have hbefore := freeBefore_lowest hr
        have hfirst := taken_filled hB hd hslot hpl hr hzero
          (Or.inr (hready.blank r hr.1 (by omega)))
        have hslot' : SlotOf (filled s sb array i r) d z (l ++ [block / divider])
            { dev := d.dev, block := r, off := 0 } (block / divider) :=
          Or.inr ⟨l, rfl, fun h => hfirst.grown.pos (hfirst.grown.block.symm.trans h),
            by rw [hfirst.grown.block]⟩
        have hpl' : Position z (l ++ [block / divider]) :=
          ⟨hp.zone, by omega, fun j hj => hp.slots j (List.mem_append_left _ hj)⟩
        -- its slots are empty
        have hempty : (filled s sb array i r).index { dev := d.dev, block := r, off := 0 }
            (block / divider) = 0 := by
          refine (toNat_eq_zero _).mp (hslot'.block.symm.trans ?_)
          rw [hfirst.others _ _ hpl', blockAt_append, if_pos hzero]
          intro h
          have hle := h.2.length_le
          rw [List.length_append, List.length_singleton] at hle
          omega
        have hready' := Ready.filled hB.index hd hslot hpl hr.1 hready hr
        have hmissing : missing (filled s sb array i r) d.dev { dev := d.dev, block := r, off := 0 }
            (block / divider) (slotsOf level (block % divider) (divider / BLOCK_INDEXES)) =
              (slotsOf level (block % divider) (divider / BLOCK_INDEXES)).length + 1 :=
          missing_empty hempty
        refine From.ite (fun h => absurd h hfirst.grown.pos) fun _ => ?_
        rw [← hmissing] at hready'
        refine (ih (hm.within hfirst.grown.within) (hfirst.grown.marks.reserved h0) hfirst.grown.tree
          hslot' hp hlen' hready').post fun r' t hrest => ?_
        rw [hmissing, ← happ] at hrest
        exact hfirst.trans hrest (Nat.succ_ne_zero _)
      · -- the index block is there
        have hne : (s.index array i).toNat ≠ 0 := fun h => hz ((toNat_eq_zero _).mp h)
        rw [if_neg hz] at hready ⊢
        refine From.bind (slot_mapped hz) ?_
        rintro _ _ ⟨rfl, rfl⟩
        refine From.ite (fun h => absurd h hne) fun _ => ?_
        rw [← hslot.block] at hne hready ⊢
        rw [happ]
        exact ih hm h0 hB (Or.inr ⟨l, rfl, hne, rfl⟩) hp hlen' hready

/-- A call of `bmap` with `create` that returned. -/
theorem bmap_taken (h : Located s sb d dir) (h0 : Reserved (vol s sb d.dev)) (hB : BlockTree s sb d)
    (hready : Ready s sb d (missingOn s d n)) (hrun : bmap dir n true fuel s = .ok (r, t)) :
    Taken sb d (zoneOf n) (slotsOn n) (missingOn s d n) r s t := by
  have hn := bmap_bound hrun
  obtain ⟨level, block, divider, hlevel, hslots, hway⟩ := bmap_way fuel hn h.desc h.device
  rw [missingOn, hslots] at hready ⊢
  have hp := position_of hn
  rw [hslots] at hp
  have htaken := reckon_taken (l := []) h.volume h0 hB h.place (Or.inl ⟨rfl, rfl, rfl⟩) hp
    ((Nat.zero_add _).trans hlevel) hready
  exact htaken.of_ok rfl ((hway true).symm.trans hrun)

/-- The blocks of a file that stand at one position each are in data zones of their own. -/
theorem private_of_tree (hB : BlockTree s sb d) : Private s sb d where
  zones := fun n hn hne => by
    rw [blockOf_eq] at hne ⊢
    exact (hB.used _ _ (position_of hn) hne).1
  once := fun m hm n hn hne heq => by
    rw [blockOf_eq] at hne
    rw [blockOf_eq, blockOf_eq] at heq
    obtain ⟨hz, hjs⟩ := hB.once _ _ _ _ (position_of hm) (position_of hn) hne heq
    exact position_inj hz hjs
  apart := fun n hn hne hidx => by
    obtain ⟨z, js, hp, hin, -, heq⟩ := hidx
    rw [blockOf_eq] at hne heq
    obtain ⟨rfl, rfl⟩ := hB.once _ _ _ _ (position_of hn) hp hne heq.symm
    have hleaf := leaf_of n
    omega
  index := fun b hb => by
    obtain ⟨z, js, hp, -, hne, rfl⟩ := hb
    exact (hB.used z js hp hne).1

end NeonixZoneOrder
