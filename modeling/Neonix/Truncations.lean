import Mathlib.Data.List.Nodup
import Neonix.BlockMaps

/-! # Truncation frees the blocks of a file

    `inode_truncate` over any `bfree`: the function itself is the instance with the
    `bfree` of this kernel (`inodeTruncate_eq`), and `inodeTruncateTraced` the one whose
    `bfree` clears the bit of its argument and writes the argument down.
    `truncate_frees` says what it writes down and what it leaves. -/

namespace NeonixTruncations

open NeonixMachine NeonixOutcome NeonixByteBits NeonixVolume NeonixAllocators NeonixCalls
  NeonixFileSystem NeonixFrames NeonixDirectories NeonixBlockTrees NeonixBlockMaps NeonixNewInodes
  NeonixReferenceCounts NeonixCreationCalls

/-! ## `fs/inode.c`, over any `bfree` -/

section With

-- the kernel in a state, a store to it, and `bfree`
variable {σ : Type} (look : σ → Kernel) (store : (Kernel → Kernel) → σ → σ)
  (free : Dev → Nat → Call σ Halt Unit)

/-- `inode_bfree`. -/
def inodeBfreeWith (dev : Dev) : (level : Nat) → (array : Place) → (index : Nat) → Call σ Halt Unit
  | 0, array, index => do
      let nr := (look (← get)).index array index
      if nr = 0 then return () else free dev nr.toNat
  | level + 1, array, index => do
      let nr := (look (← get)).index array index
      if nr = 0 then return ()
      else
        loop (inodeBfreeWith dev level { dev := dev, block := nr.toNat, off := 0 }) 0 BLOCK_INDEXES
        free dev ((look (← get)).index array index).toNat

/-- A zone slot of `inode_truncate`. -/
def releaseZoneWith (dev : Dev) (zone : Place) (level i : Nat) : Call σ Halt Unit := do
  inodeBfreeWith look free dev level zone i
  modify (store fun s => s.setIndex zone i 0)

/-- `inode_truncate`. -/
def inodeTruncateWith (inode : Nat) : Call σ Halt Unit := do
  let s := look (← get)
  if ¬ ISFILE (s.mode inode) ∧ ¬ ISDIR (s.mode inode) then return ()
  else
    let dev := (s.inode_table inode).dev
    loop (releaseZoneWith look store free dev (s.zone inode) 0) 0 DIRECT_BLOCK
    releaseZoneWith look store free dev (s.zone inode) 1 DIRECT_BLOCK
    releaseZoneWith look store free dev (s.zone inode) 2 (DIRECT_BLOCK + 1)
    modify (store fun s => s.setSize inode 0)
    modify (store fun s => s.setMtime inode s.time)

end With

theorem inodeBfree_eq (dev : Dev) (level : Nat) (array : Place) (index : Nat) :
    inodeBfreeWith id bfree dev level array index = inodeBfree dev level array index := by
  induction level generalizing array index with
  | zero => rfl
  | succ level ih =>
      rw [inodeBfreeWith, inodeBfree]
      have hbody : ∀ nr : BitVec 16,
          inodeBfreeWith id bfree dev level { dev := dev, block := nr.toNat, off := 0 } =
            inodeBfree dev level { dev := dev, block := nr.toNat, off := 0 } :=
        fun nr => funext fun j => ih _ j
      simp only [hbody, id_eq]

/-- With the `bfree` of this kernel it is `inode_truncate`. -/
theorem inodeTruncate_eq (inode : Nat) :
    inodeTruncateWith id id bfree inode = inodeTruncate inode := by
  have hbody : ∀ (dev : Dev) (zone : Place) (level : Nat),
      releaseZoneWith id id bfree dev zone level = releaseZone dev zone level := by
    intro dev zone level
    funext i
    rw [releaseZoneWith, releaseZone, inodeBfree_eq]
    rfl
  rw [inodeTruncateWith, inodeTruncate]
  simp only [hbody]
  rfl

/-- A kernel, and the arguments of `bfree` so far. -/
abbrev Traced : Type := Kernel × List Nat

/-- The state with the bit of a zone clear. -/
def released (s : Kernel) (sb : SuperDesc) (dev : Dev) (b : Nat) : Kernel :=
  { s with disk := Function.update s.disk dev (putZone (vol s sb dev) b false).disk }

/-- `bfree`, taken as clearing the bit of its argument, that writes the argument down. -/
def clearBit (dev : Dev) (idx : Nat) : Call Traced Halt Unit := do
  let s ← get
  match getSuper s.1 dev with
  | none => stop (.stopped .assertion)
  | some k =>
      let sb := (s.1.super_table k).desc
      if idx < sb.zones ∧ zoneBit (vol s.1 sb dev) (zoneIdx sb idx) = true then
        set (released s.1 sb dev idx, s.2 ++ [idx])
      else stop (.stopped .assertion)

/-- `inode_truncate` with that `bfree`. -/
def inodeTruncateTraced (inode : Nat) : Call Traced Halt Unit :=
  inodeTruncateWith Prod.fst (fun f s => (f s.1, s.2)) clearBit inode

variable {s t u : Kernel} {sb : SuperDesc} {dev : Dev} {d array : Place} {D : Nat → Bytes}
  {z i b level : Nat} {js L : List Nat}

/-! ## The blocks behind a slot -/

/-- The blocks behind a slot, in the order they are freed. -/
def treeBlocks (s : Kernel) (dev : Dev) : (level : Nat) → (array : Place) → (index : Nat) → List Nat
  | 0, array, index => if s.index array index = 0 then [] else [(s.index array index).toNat]
  | level + 1, array, index =>
      if s.index array index = 0 then []
      else
        (List.range BLOCK_INDEXES).flatMap
          (treeBlocks s dev level { dev := dev, block := (s.index array index).toNat, off := 0 }) ++
          [(s.index array index).toNat]

theorem blockAt_empty (l : List Nat) (h : blockAt s d z js = 0) : blockAt s d z (js ++ l) = 0 := by
  induction l using List.reverseRecOn with
  | nil => rwa [List.append_nil]
  | append_singleton l j ih => rw [← List.append_assoc, blockAt_append, if_pos ih]

theorem treeBlocks_empty (h : s.index array i = 0) : treeBlocks s dev level array i = [] := by
  cases level with
  | zero => rw [treeBlocks, if_pos h]
  | succ level => rw [treeBlocks, if_pos h]

/-- A slot of an index block is the next position. -/
theorem slot_behind {j : Nat} (hp : Position z js) (hlen : js.length + (level + 1) = z - 6)
    (hne : blockAt s d z js ≠ 0) (hj : j < BLOCK_INDEXES) :
    SlotOf s d z (js ++ [j]) { dev := d.dev, block := blockAt s d z js, off := 0 } j ∧
      Position z (js ++ [j]) ∧ (js ++ [j]).length + level = z - 6 := by
  have hlen' : (js ++ [j]).length + level = z - 6 := by
    rw [List.length_append, List.length_singleton]
    omega
  refine ⟨Or.inr ⟨js, rfl, hne, rfl⟩, ⟨hp.zone, by omega, fun x hx => ?_⟩, hlen'⟩
  rcases List.mem_append.mp hx with hx | hx
  · exact hp.slots x hx
  · rw [List.mem_singleton.mp hx]
    exact hj

/-- They are the blocks at the positions from there on. -/
theorem mem_treeBlocks (hslot : SlotOf s d z js array i) (hp : Position z js)
    (hlen : js.length + level = z - 6) : b ∈ treeBlocks s d.dev level array i ↔
      b ≠ 0 ∧ ∃ l, Position z (js ++ l) ∧ blockAt s d z (js ++ l) = b := by
  induction level generalizing js array i with
  | zero =>
      have hblock := hslot.block
      -- nothing is behind a part of the file
      have hend : ∀ l, Position z (js ++ l) → l = [] := by
        intro l hpl
        have hdepth := hpl.depth
        rw [List.length_append] at hdepth
        exact List.length_eq_zero_iff.mp (by omega)
      by_cases hz : s.index array i = 0
      · rw [treeBlocks_empty hz]
        refine ⟨fun h => absurd h List.not_mem_nil, ?_⟩
        rintro ⟨hb, l, -, hl⟩
        rw [blockAt_empty l (hblock.trans ((toNat_eq_zero _).mpr hz))] at hl
        exact absurd hl.symm hb
      · rw [treeBlocks, if_neg hz, List.mem_singleton, ← hblock]
        constructor
        · rintro rfl
          refine ⟨fun h => hz ((toNat_eq_zero _).mp (hblock.symm.trans h)), [], ?_, ?_⟩
          · rwa [List.append_nil]
          · rw [List.append_nil]
        · rintro ⟨-, l, hpl, hl⟩
          rw [hend l hpl, List.append_nil] at hl
          exact hl.symm
  | succ level ih =>
      have hblock := hslot.block
      by_cases hz : s.index array i = 0
      · rw [treeBlocks_empty hz]
        refine ⟨fun h => absurd h List.not_mem_nil, ?_⟩
        rintro ⟨hb, l, -, hl⟩
        rw [blockAt_empty l (hblock.trans ((toNat_eq_zero _).mpr hz))] at hl
        exact absurd hl.symm hb
      · have hne : blockAt s d z js ≠ 0 := fun h => hz ((toNat_eq_zero _).mp (hblock.symm.trans h))
        rw [treeBlocks, if_neg hz, List.mem_append, List.mem_singleton, List.mem_flatMap, ← hblock]
        constructor
        · rintro (⟨j, hj, hb⟩ | rfl)
          · obtain ⟨hslot', hp', hlen'⟩ := slot_behind hp hlen hne (List.mem_range.mp hj)
            obtain ⟨hb0, l, hpl, hl⟩ := (ih hslot' hp' hlen').mp hb
            rw [List.append_assoc] at hpl hl
            exact ⟨hb0, [j] ++ l, hpl, hl⟩
          · exact ⟨hne, [], by rwa [List.append_nil], by rw [List.append_nil]⟩
        · rintro ⟨hb, l, hpl, hl⟩
          cases l with
          | nil =>
              rw [List.append_nil] at hl
              exact Or.inr hl.symm
          | cons j l =>
              have hj : j < BLOCK_INDEXES := hpl.slots j (by simp)
              obtain ⟨hslot', hp', hlen'⟩ := slot_behind hp hlen hne hj
              refine Or.inl ⟨j, List.mem_range.mpr hj, (ih hslot' hp' hlen').mpr ⟨hb, l, ?_, ?_⟩⟩
              · rwa [List.append_assoc]
              · rwa [List.append_assoc]

/-- In a tree none of them comes twice. -/
theorem nodup_treeBlocks (hB : BlockTree s sb d) (hslot : SlotOf s d z js array i)
    (hp : Position z js) (hlen : js.length + level = z - 6) :
    (treeBlocks s d.dev level array i).Nodup := by
  induction level generalizing js array i with
  | zero =>
      rw [treeBlocks]
      split_ifs
      · exact List.nodup_nil
      · exact List.nodup_singleton _
  | succ level ih =>
      have hblock := hslot.block
      by_cases hz : s.index array i = 0
      · rw [treeBlocks_empty hz]
        exact List.nodup_nil
      have hne : blockAt s d z js ≠ 0 := fun h => hz ((toNat_eq_zero _).mp (hblock.symm.trans h))
      rw [treeBlocks, if_neg hz, ← hblock, List.nodup_append']
      refine ⟨List.nodup_flatMap.mpr ⟨fun j hj => ?_, ?_⟩, List.nodup_singleton _, ?_⟩
      · obtain ⟨hslot', hp', hlen'⟩ := slot_behind hp hlen hne (List.mem_range.mp hj)
        exact ih hslot' hp' hlen'
      · -- a block behind two slots would be at two positions
        refine List.Nodup.pairwise_of_forall_ne List.nodup_range fun j hj k hk hjk b hb hb' => ?_
        obtain ⟨hslot₁, hp₁, hlen₁⟩ := slot_behind hp hlen hne (List.mem_range.mp hj)
        obtain ⟨hslot₂, hp₂, hlen₂⟩ := slot_behind hp hlen hne (List.mem_range.mp hk)
        obtain ⟨hb0, l₁, hpl₁, hl₁⟩ := (mem_treeBlocks hslot₁ hp₁ hlen₁).mp hb
        obtain ⟨-, l₂, hpl₂, hl₂⟩ := (mem_treeBlocks hslot₂ hp₂ hlen₂).mp hb'
        obtain ⟨-, heq⟩ := hB.once _ _ _ _ hpl₁ hpl₂ (by rw [hl₁]; exact hb0) (hl₁.trans hl₂.symm)
        rw [List.append_assoc, List.append_assoc] at heq
        exact hjk (List.cons.inj (List.append_cancel_left heq)).1
      · rintro b hb hb'
        rw [List.mem_singleton.mp hb'] at hb
        obtain ⟨j, hj, hb⟩ := List.mem_flatMap.mp hb
        obtain ⟨hslot', hp', hlen'⟩ := slot_behind hp hlen hne (List.mem_range.mp hj)
        obtain ⟨hb0, l, hpl, hl⟩ := (mem_treeBlocks hslot' hp' hlen').mp hb
        obtain ⟨-, heq⟩ := hB.once _ _ _ _ hp hpl hne hl.symm
        have hcount := congrArg List.length heq
        rw [List.length_append, List.length_append, List.length_singleton] at hcount
        omega

/-! ## Bits are cleared -/

/-- The bits of some zones are clear, and the rest of the device is a given one. -/
structure Cleared (s : Kernel) (sb : SuperDesc) (dev : Dev) (D : Nat → Bytes) (L : List Nat)
    (t : Kernel) : Prop where
  tables : t = { s with disk := t.disk }
  other : ∀ e, e ≠ dev → t.disk e = s.disk e
  bytes : ∀ b o, ¬ IsZmap sb b → t.disk dev b o = D b o
  bits : ∀ j, InZoneMap sb j → zoneBit (vol t sb dev) j =
    if j ∈ L.map (zoneIdx sb) then false else zoneBit (vol s sb dev) j

theorem Cleared.refl : Cleared s sb dev (s.disk dev) [] s :=
  ⟨rfl, fun _ _ => rfl, fun _ _ _ => rfl, fun _ _ => (if_neg List.not_mem_nil).symm⟩

theorem Cleared.desc (h : Cleared s sb dev D L t) (i : Nat) : t.desc i = s.desc i := by
  rw [h.tables]
  rfl

theorem Cleared.volume (h : Cleared s sb dev D L t) (hm : OnVolume s dev sb) :
    OnVolume t dev sb := by
  rw [h.tables]
  exact hm

/-- A store outside the bitmap. -/
theorem Cleared.store {D' : Nat → Bytes} (h : Cleared s sb dev D L t)
    (hw : Within dev (fun b _ => ¬ IsZmap sb b) t u)
    (hbytes : ∀ b o, ¬ IsZmap sb b → u.disk dev b o = D' b o) : Cleared s sb dev D' L u where
  tables := by rw [hw.tables, h.tables]
  other := fun e he => (hw.other e he).trans (h.other e he)
  bytes := hbytes
  bits := fun j hj => by
    rw [← h.bits j hj]
    exact zoneBit_congr (fun b o hz => hw.bytes b o fun hno => hno hz) hj

/-- A zone that is used and was not freed yet is still used, and its bit can be cleared. -/
theorem Cleared.free (h : Cleared s sb dev D L t) (hused : ZoneUsed (vol s sb dev) b)
    (hL : ∀ c ∈ L, IsDataZone sb c) (hb : b ∉ L) : ZoneUsed (vol t sb dev) b ∧
      Cleared s sb dev D (L ++ [b]) (released t sb dev b) := by
  have hnot : zoneIdx sb b ∉ L.map (zoneIdx sb) := by
    intro hmem
    obtain ⟨c, hc, heq⟩ := List.mem_map.mp hmem
    rw [zoneIdx_inj (hL c hc) hused.1 heq] at hc
    exact hb hc
  have hw : Within dev (fun b _ => IsZmap sb b) t (released t sb dev b) :=
    within_putZone false hused.2.1
  refine ⟨⟨hused.1, hused.2.1, ?_⟩, ?_, fun e he => ?_, fun c o hc => ?_, fun j hj => ?_⟩
  · exact (h.bits _ hused.2.1).trans ((if_neg hnot).trans hused.2.2)
  · rw [hw.tables, h.tables]
  · exact (hw.other e he).trans (h.other e he)
  · exact (hw.bytes c o hc).trans (h.bytes c o hc)
  · have hput : zoneBit (vol (released t sb dev b) sb dev) j =
        if j = zoneIdx sb b then false else zoneBit (vol t sb dev) j := by
      show zoneBit { desc := sb, disk := Function.update t.disk dev _ dev } j = _
      rw [Function.update_self]
      exact zoneBit_put
    rw [hput, h.bits j hj, List.map_append, List.map_singleton]
    by_cases hjb : j = zoneIdx sb b
    · rw [if_pos hjb, if_pos (List.mem_append_right _ (List.mem_singleton.mpr hjb))]
    · rw [if_neg hjb]
      refine if_congr ?_ rfl rfl
      rw [List.mem_append, List.mem_singleton]
      exact ⟨Or.inl, fun h => h.resolve_right hjb⟩

/-- Never a stop. -/
def Never (_ : Halt) : Prop := True

theorem clearBit_from (hm : OnVolume t dev sb) (hused : ZoneUsed (vol t sb dev) b) :
    From Never (t, L) (clearBit dev b) fun _ u => u = (released t sb dev b, L ++ [b]) := by
  obtain ⟨k, hk, rfl⟩ := hm
  refine From.get ?_
  rw [hk]
  dsimp only
  rw [if_pos ⟨hused.1.2, hused.2.2⟩]
  exact From.store rfl

/-- A block that was not freed is freed. -/
theorem Cleared.freed (h : Cleared s sb dev D L t) (hm : OnVolume s dev sb)
    (hused : ZoneUsed (vol s sb dev) b) (hL : ∀ c ∈ L, IsDataZone sb c) (hb : b ∉ L) :
    From Never (t, L) (clearBit dev b) fun _ u =>
      u.2 = L ++ [b] ∧ Cleared s sb dev D u.2 u.1 := by
  obtain ⟨hub, hcleared⟩ := h.free hused hL hb
  refine (clearBit_from (h.volume hm) hub).post ?_
  rintro _ u rfl
  exact ⟨rfl, hcleared⟩

/-- A slot outside the bitmap holds what it held. -/
theorem Cleared.index (h : Cleared s sb dev D L t) (hdev : array.dev = dev)
    (hread : ∀ k < 2, ¬ IsZmap sb array.block ∧ D array.block (array.off + (2 * i + k)) =
      s.disk dev array.block (array.off + (2 * i + k))) :
    t.index array i = s.index array i := by
  refine index_congr fun k hk => ?_
  rw [hdev]
  exact (h.bytes _ _ (hread k hk).1).trans (hread k hk).2

/-- The subtree behind a slot is freed. -/
theorem inodeBfree_frees (hm : OnVolume s dev sb) (hdev : array.dev = dev)
    (hD : ∀ b o, IsDataZone sb b → D b o = s.disk dev b o)
    (hread : ∀ k < 2, ¬ IsZmap sb array.block ∧ D array.block (array.off + (2 * i + k)) =
      s.disk dev array.block (array.off + (2 * i + k)))
    (hused : ∀ b ∈ treeBlocks s dev level array i, ZoneUsed (vol s sb dev) b)
    (hL : ∀ c ∈ L, IsDataZone sb c) (hnodup : (L ++ treeBlocks s dev level array i).Nodup)
    (ht : Cleared s sb dev D L t) :
    From Never (t, L) (inodeBfreeWith Prod.fst clearBit dev level array i) fun _ u =>
      u.2 = L ++ treeBlocks s dev level array i ∧ Cleared s sb dev D u.2 u.1 := by
  induction level generalizing array i L t with
  | zero =>
      refine From.get ?_
      rw [ht.index hdev hread]
      rw [treeBlocks] at hused hnodup ⊢
      refine From.ite (fun hz => ?_) fun hz => ?_
      · rw [if_pos hz, List.append_nil]
        exact From.pure ⟨rfl, ht⟩
      · rw [if_neg hz] at hused hnodup ⊢
        refine ht.freed hm (hused _ (List.mem_singleton_self _)) hL fun hmem => ?_
        exact (List.nodup_append'.mp hnodup).2.2 hmem (List.mem_singleton_self _)
  | succ level ih =>
      refine From.get ?_
      rw [ht.index hdev hread]
      rw [treeBlocks] at hused hnodup ⊢
      refine From.ite (fun hz => ?_) fun hz => ?_
      · rw [if_pos hz, List.append_nil]
        exact From.pure ⟨rfl, ht⟩
      rw [if_neg hz] at hused hnodup ⊢
      generalize hb : (s.index array i).toNat = b at *
      generalize hf : treeBlocks s dev level { dev := dev, block := b, off := 0 } = f at *
      have hlast := hused b (List.mem_append_right _ (List.mem_singleton_self b))
      have hdata : ∀ n ≤ BLOCK_INDEXES, ∀ c ∈ L ++ (List.range n).flatMap f, IsDataZone sb c := by
        intro n hn c hc
        rcases List.mem_append.mp hc with hc | hc
        · exact hL c hc
        · refine (hused c (List.mem_append_left _ ?_)).1
          exact ((List.range_sublist.mpr hn).flatMap f).subset hc
      -- the slots of the index block, one after the other
      refine From.bind (Q := fun _ u => u.2 = L ++ (List.range BLOCK_INDEXES).flatMap f ∧
        Cleared s sb dev D u.2 u.1) ?_ ?_
      · have hloop : Triple Never _ (loop _ 0 BLOCK_INDEXES) _ := Triple.loop
          (f := inodeBfreeWith Prod.fst clearBit dev level { dev := dev, block := b, off := 0 })
          (I := fun n u => u.2 = L ++ (List.range n).flatMap f ∧ Cleared s sb dev D u.2 u.1)
          0 BLOCK_INDEXES fun j _ hj => ?_
        · rw [Nat.zero_add] at hloop
          refine hloop.start ⟨?_, ht⟩
          rw [List.range_zero, List.flatMap_nil, List.append_nil]
        · refine Triple.intro ?_
          rintro ⟨u, L'⟩ ⟨rfl, hu⟩
          rw [Nat.zero_add] at hj
          have hnext : L ++ (List.range (j + 1)).flatMap f =
              L ++ (List.range j).flatMap f ++ f j := by
            rw [List.range_succ, List.flatMap_append, List.flatMap_singleton, List.append_assoc]
          have hsub := (List.range_sublist.mpr (show j + 1 ≤ BLOCK_INDEXES from hj)).flatMap f
          have hsubtree : f j = treeBlocks s dev level { dev := dev, block := b, off := 0 } j := by rw [hf]
          rw [hnext, hsubtree]
          refine ih rfl (fun k _ => ⟨dataZone_not_zmap hlast.1, hD _ _ hlast.1⟩) ?_
            (hdata j (Nat.le_of_lt hj)) ?_ hu
          all_goals rw [← hsubtree]
          · intro c hc
            exact hused c (List.mem_append_left _ (List.mem_flatMap.mpr ⟨j, List.mem_range.mpr hj, hc⟩))
          · rw [← hnext]
            refine hnodup.sublist (List.Sublist.append_left ?_ L)
            exact hsub.trans (List.sublist_append_left _ _)
      · rintro _ ⟨u, L'⟩ ⟨rfl, hu⟩
        refine From.get ?_
        show From Never _ (clearBit dev (u.index array i).toNat) _
        rw [hu.index hdev hread, hb]
        refine (hu.freed hm hlast (hdata _ Nat.le.refl) fun hmem => ?_).post fun _ v hv => ?_
        · rw [← List.append_assoc] at hnodup
          exact (List.nodup_append'.mp hnodup).2.2 hmem (List.mem_singleton_self b)
        · rwa [← List.append_assoc]

/-! ## The zones of an inode -/

/-- The blocks behind the first `n` zone slots. -/
def fileBlocks (s : Kernel) (d : Place) (n : Nat) : List Nat :=
  (List.range n).flatMap fun z => treeBlocks s d.dev (z - 6) (d.add 14) z

/-- The state with the first zone slots empty. -/
def zeroed (s : Kernel) (d : Place) : Nat → Kernel
  | 0 => s
  | z + 1 => (zeroed s d z).setIndex (d.add 14) z 0

theorem fileBlocks_succ (s : Kernel) (d : Place) (z : Nat) : fileBlocks s d (z + 1) =
    fileBlocks s d z ++ treeBlocks s d.dev (z - 6) (d.add 14) z := by
  rw [fileBlocks, List.range_succ, List.flatMap_append, List.flatMap_singleton, fileBlocks]

theorem position_zone (hz : z < 9) : Position z [] :=
  ⟨hz, Nat.zero_le _, fun _ hj => absurd hj List.not_mem_nil⟩

theorem mem_zoneBlocks (hz : z < 9) : b ∈ treeBlocks s d.dev (z - 6) (d.add 14) z ↔
    b ≠ 0 ∧ ∃ l, Position z l ∧ blockAt s d z l = b :=
  mem_treeBlocks (Or.inl ⟨rfl, rfl, rfl⟩) (position_zone hz) (Nat.zero_add _)

theorem mem_fileBlocks {n : Nat} (hn : n ≤ 9) : b ∈ fileBlocks s d n ↔
    b ≠ 0 ∧ ∃ z l, z < n ∧ Position z l ∧ blockAt s d z l = b := by
  rw [fileBlocks, List.mem_flatMap]
  constructor
  · rintro ⟨z, hz, hb⟩
    have hz := List.mem_range.mp hz
    obtain ⟨hne, l, hp, hl⟩ := (mem_zoneBlocks (hz.trans_le hn)).mp hb
    exact ⟨hne, z, l, hz, hp, hl⟩
  · rintro ⟨hne, z, l, hz, hp, hl⟩
    exact ⟨z, List.mem_range.mpr hz, (mem_zoneBlocks (hz.trans_le hn)).mpr ⟨hne, l, hp, hl⟩⟩

theorem nodup_fileBlocks (hB : BlockTree s sb d) {n : Nat} (hn : n ≤ 9) :
    (fileBlocks s d n).Nodup := by
  induction n with
  | zero => exact List.nodup_nil
  | succ n ih =>
      rw [fileBlocks_succ, List.nodup_append']
      refine ⟨ih (by omega), nodup_treeBlocks hB (Or.inl ⟨rfl, rfl, rfl⟩)
        (position_zone hn) (Nat.zero_add _), fun b hb hb' => ?_⟩
      -- a block behind two zones would be at two positions
      obtain ⟨hne, z, l, hz, hp, hl⟩ := (mem_fileBlocks (by omega)).mp hb
      obtain ⟨-, l', hp', hl'⟩ := (mem_zoneBlocks hn).mp hb'
      obtain ⟨hzn, -⟩ := hB.once z l n l' hp hp' (by rw [hl]; exact hne) (hl.trans hl'.symm)
      omega

theorem within_zeroed (n : Nat) : Within d.dev (At (d.add 14) (2 * n)) s (zeroed s d n) := by
  induction n with
  | zero => exact .refl
  | succ n ih =>
      refine (ih.mono ?_).trans ((within_setIndex (s := zeroed s d n) (d.add 14) n 0).mono ?_)
      · rintro b o ⟨hb, hlo, hhi⟩
        exact ⟨hb, hlo, hhi.trans_le (Nat.add_le_add_left (by omega) _)⟩
      · rintro b o ⟨hb, hlo, hhi⟩
        change d.off + 14 + 2 * n ≤ o at hlo
        change o < d.off + 14 + 2 * n + 2 at hhi
        exact ⟨hb, show d.off + 14 ≤ o by omega, show o < d.off + 14 + 2 * (n + 1) by omega⟩

theorem zeroed_index {n : Nat} (hz : z < n) : (zeroed s d n).index (d.add 14) z = 0 := by
  induction n with
  | zero => omega
  | succ n ih =>
      by_cases hzn : z = n
      · subst hzn
        exact index_setIndex ..
      · refine Eq.trans (index_congr fun k hk => ?_) (ih (by omega))
        refine (within_setIndex (s := zeroed s d n) (d.add 14) n 0).bytes _ _ ?_
        rintro ⟨-, hlo, hhi⟩
        change d.off + 14 + 2 * n ≤ d.off + 14 + (2 * z + k) at hlo
        omega

/-- Stores to a block outside the bitmap, on devices that are the same but for it. -/
theorem setBlock_same {f : Bytes → Bytes} {p : Nat} (hp : ¬ IsZmap sb p)
    (h : ∀ b o, ¬ IsZmap sb b → t.disk dev b o = u.disk dev b o) (b o : Nat)
    (hb : ¬ IsZmap sb b) : (t.setBlock dev p (f (t.disk dev p))).disk dev b o =
      (u.setBlock dev p (f (u.disk dev p))).disk dev b o := by
  have hblock : t.disk dev p = u.disk dev p := funext fun o => h p o hp
  show Function.update t.disk dev (Function.update (t.disk dev) p _) dev b o =
    Function.update u.disk dev (Function.update (u.disk dev) p _) dev b o
  rw [Function.update_self, Function.update_self, hblock]
  by_cases hbp : b = p
  · rw [hbp, Function.update_self, Function.update_self]
  · rw [Function.update_of_ne hbp, Function.update_of_ne hbp]
    exact h b o hb

/-- The first zones are released. -/
structure Released (s : Kernel) (sb : SuperDesc) (d : Place) (z : Nat) (u : Traced) : Prop where
  log : u.2 = fileBlocks s d z
  cleared : Cleared s sb d.dev ((zeroed s d z).disk d.dev) u.2 u.1

theorem releaseZone_releases {u : Traced} (h : Released s sb d z u) (hm : OnVolume s d.dev sb)
    (hd : DescPlace sb d) (hB : BlockTree s sb d) (hz : z < 9) :
    From Never u (releaseZoneWith Prod.fst (fun f s => (f s.1, s.2)) clearBit d.dev (d.add 14)
      (z - 6) z) fun _ v => Released s sb d (z + 1) v := by
  obtain ⟨t, L⟩ := u
  obtain ⟨rfl, ht⟩ := h
  have hused : ∀ b ∈ fileBlocks s d (z + 1), ZoneUsed (vol s sb d.dev) b := by
    intro b hb
    obtain ⟨hne, z', l, -, hp, rfl⟩ := (mem_fileBlocks hz).mp hb
    exact hB.used z' l hp hne
  have hnodup := nodup_fileBlocks hB (show z + 1 ≤ 9 from hz)
  rw [fileBlocks_succ] at hused hnodup
  refine From.bind (inodeBfree_frees hm rfl (fun b o hb => ?_) (fun k _ => ⟨hd.not_zmap, ?_⟩)
    (fun b hb => hused b (List.mem_append_right _ hb))
    (fun b hb => (hused b (List.mem_append_left _ hb)).1) hnodup ht) ?_
  · refine (within_zeroed z).bytes b o fun hat => ?_
    exact dataZone_ne_desc hb hd hat.1
  · refine (within_zeroed z).bytes _ _ ?_
    rintro ⟨-, -, hhi⟩
    change d.off + 14 + (2 * z + k) < d.off + 14 + 2 * z at hhi
    omega
  · rintro _ ⟨v, L⟩ ⟨rfl, hv⟩
    refine From.store ⟨fileBlocks_succ s d z ▸ rfl, hv.store ?_ ?_⟩
    · refine (within_setIndex (s := v) (d.add 14) z 0).mono fun b o hb => ?_
      rw [hb.1]
      exact hd.not_zmap
    · exact setBlock_same (p := d.block) (f := fun data => NeonixWords.putU16 data (d.off + 14 + 2 * z) 0)
        hd.not_zmap hv.bytes

/-! ## The whole file -/

/-- What `inode_truncate` leaves on the device, but for the zone bitmap. -/
def emptied (s : Kernel) (d : Place) (i : Nat) : Kernel :=
  ((zeroed s d 9).setSize i 0).setMtime i s.time

theorem setSize_desc (u : Kernel) (i x : Nat) : (u.setSize i x).desc i = u.desc i := rfl

section Emptied

variable (hdesc : s.desc i = d)
include hdesc

theorem zeroed_desc (n : Nat) : (zeroed s d n).desc i = d := by
  rw [(within_zeroed n).tables]
  exact hdesc

theorem within_emptied : Within d.dev (At d 32) s (emptied s d i) := by
  have hz := zeroed_desc hdesc 9
  have hz' : ((zeroed s d 9).setSize i 0).desc i = d := (setSize_desc ..).trans hz
  exact (within_field (within_zeroed 9) (by omega)).trans
    ((within_field (within_setSize hz 0) (by omega)).trans
      (within_field (within_setMtime hz' s.time) (by omega)))

theorem emptied_index (hz : z < 9) : (emptied s d i).index (d.add 14) z = 0 := by
  have hzd := zeroed_desc hdesc 9
  have hz' : ((zeroed s d 9).setSize i 0).desc i = d := (setSize_desc ..).trans hzd
  refine Eq.trans (index_congr fun k hk => ?_) (zeroed_index (s := s) hz)
  refine ((within_setMtime hz' s.time).bytes _ _ ?_).trans ((within_setSize hzd 0).bytes _ _ ?_)
  · rintro ⟨-, -, hhi⟩
    change d.off + 14 + (2 * z + k) < d.off + 8 + 4 at hhi
    omega
  · rintro ⟨-, -, hhi⟩
    change d.off + 14 + (2 * z + k) < d.off + 4 + 4 at hhi
    omega

theorem emptied_size : (NeonixWords.u32At ((emptied s d i).bytes d) 4).toNat = 0 := by
  have hz := zeroed_desc hdesc 9
  have hz' : ((zeroed s d 9).setSize i 0).desc i = d := (setSize_desc ..).trans hz
  rw [← NeonixNewEntries.size_setSize (x := 0) hz (by decide)]
  refine congrArg BitVec.toNat (NeonixNewEntries.u32At_congr fun k hk => ?_)
  refine (within_setMtime hz' s.time).bytes _ _ ?_
  rintro ⟨-, hlo, -⟩
  change d.off + 8 ≤ d.off + (4 + k) at hlo
  omega

end Emptied

/-- What `inode_truncate` did: `log` are the arguments of `bfree`. -/
structure Emptied (s : Kernel) (sb : SuperDesc) (d : Place) (i : Nat) (log : List Nat)
    (t : Kernel) :
    Prop where
  once : log.Nodup
  frees : ∀ b, b ∈ log ↔ b ≠ 0 ∧ ∃ z l, Position z l ∧ blockAt s d z l = b
  zones : ∀ z < 9, t.index (d.add 14) z = 0
  size : t.size i = 0
  bits : ∀ j, InZoneMap sb j → zoneBit (vol t sb d.dev) j =
    if j ∈ log.map (zoneIdx sb) then false else zoneBit (vol s sb d.dev) j
  rest : ∀ b o, ¬ IsZmap sb b → ¬ At d 32 b o → t.disk d.dev b o = s.disk d.dev b o
  other : ∀ e, e ≠ d.dev → t.disk e = s.disk e
  tables : t = { s with disk := t.disk }

/-- `inode_truncate` of a file or directory whose blocks are used zones at one position
    each frees every one of them once and nothing else, clears the zones and the size,
    and leaves every other descriptor and bit alone. -/
theorem truncate_frees {fuel : Nat} (h : Located s sb d i)
    (hmode : ISFILE (s.mode i) ∨ ISDIR (s.mode i)) (hB : BlockTree s sb d) :
    ∃ t log, inodeTruncateTraced i fuel (s, []) = .ok ((), (t, log)) ∧
      Emptied s sb d i log t := by
  have hrun : From Never (s, []) (inodeTruncateTraced i) fun _ u =>
      u.2 = fileBlocks s d 9 ∧ Cleared s sb d.dev ((emptied s d i).disk d.dev) u.2 u.1 := by
    have hzone : s.zone i = d.add 14 := by rw [Kernel.zone, h.desc]
    have hstep := fun {z : Nat} {u : Traced} (hu : Released s sb d z u) (hz : z < 9) =>
      releaseZone_releases hu h.volume h.place hB hz
    refine From.get (From.ite (fun hno => absurd hmode fun hm => hm.elim hno.1 hno.2) fun _ => ?_)
    show From Never (s, []) (loop (releaseZoneWith _ _ _ (s.inode_table i).dev (s.zone i) 0) 0
      DIRECT_BLOCK >>= _) _
    rw [hzone, h.device]
    -- the direct zones
    refine From.bind (Q := fun _ u => Released s sb d 7 u) ?_ fun _ u hu => ?_
    · have hloop : Triple Never _ (loop _ 0 DIRECT_BLOCK) _ := Triple.loop
        (f := releaseZoneWith Prod.fst (fun f s => (f s.1, s.2)) clearBit d.dev (d.add 14) 0)
        (I := Released s sb d) 0 DIRECT_BLOCK fun z _ hz => ?_
      · exact hloop.start ⟨rfl, .refl⟩
      · have h7 : z < 7 := by
          rw [Nat.zero_add] at hz
          exact hz
        refine Triple.intro fun u hu => ?_
        have hzero : z - 6 = 0 := by omega
        have hdirect := hstep hu (by omega)
        rwa [hzero] at hdirect
    -- the two others
    refine From.bind (hstep (z := 7) hu (by decide)) fun _ v hv => ?_
    refine From.bind (hstep (z := 8) hv (by decide)) ?_
    rintro _ ⟨w, L⟩ ⟨rfl, hw⟩
    have hw : Cleared s sb d.dev _ _ w := hw
    have hwd : w.desc i = d := (hw.desc i).trans h.desc
    have hsize : Cleared s sb d.dev (((zeroed s d 9).setSize i 0).disk d.dev) (fileBlocks s d 9)
        (w.setSize i 0) := by
      refine hw.store ((within_setSize hwd 0).mono fun b o hb => ?_) ?_
      · rw [hb.1]
        exact h.place.not_zmap
      · rw [Kernel.setSize, Kernel.setSize, hwd, zeroed_desc h.desc]
        exact setBlock_same (p := d.block) (f := fun data => NeonixWords.putU32 data (d.off + 4) 0)
          h.place.not_zmap hw.bytes
    have hsd : (w.setSize i 0).desc i = d := hwd
    have htime : (w.setSize i 0).time = s.time := by
      rw [hsize.tables]
    refine From.set (From.store ⟨rfl, hsize.store ((within_setMtime hsd _).mono fun b o hb => ?_) ?_⟩)
    · rw [hb.1]
      exact h.place.not_zmap
    · have hzd := (setSize_desc (zeroed s d 9) i 0).trans (zeroed_desc h.desc 9)
      dsimp only
      rw [emptied, Kernel.setMtime, Kernel.setMtime, hsd, hzd, htime]
      exact setBlock_same (p := d.block) (f := fun data => NeonixWords.putU32 data (d.off + 8) s.time)
        h.place.not_zmap hsize.bytes
  obtain ⟨_, ⟨t, log⟩, hok, hlog, ht⟩ := hrun.returns fuel
  have hlog : log = fileBlocks s d 9 := hlog
  subst hlog
  have ht : Cleared s sb d.dev _ _ t := ht
  have hdesc : t.desc i = d := (ht.desc i).trans h.desc
  refine ⟨t, _, hok, ⟨nodup_fileBlocks hB Nat.le.refl, fun b => ?_, fun z hz => ?_, ?_, ht.bits,
    fun b o hz hat => ?_, ht.other, ht.tables⟩⟩
  · rw [mem_fileBlocks Nat.le.refl]
    refine and_congr_right fun _ => ⟨?_, ?_⟩
    · rintro ⟨z, l, -, hp, hl⟩
      exact ⟨z, l, hp, hl⟩
    · rintro ⟨z, l, hp, hl⟩
      exact ⟨z, l, hp.zone, hp, hl⟩
  · rw [← emptied_index h.desc hz]
    exact index_congr fun k _ => ht.bytes _ _ h.place.not_zmap
  · rw [← emptied_size h.desc, Kernel.size, hdesc]
    exact congrArg BitVec.toNat (NeonixNewEntries.u32At_congr fun k _ => ht.bytes _ _ h.place.not_zmap)
  · exact (ht.bytes b o hz).trans ((within_emptied h.desc).bytes b o hat)

/-- The root directory, with one block. -/
theorem truncate_frees_boot : ∃ t log, inodeTruncateTraced 0 8 (bootState, []) =
    .ok ((), (t, log)) ∧
    Emptied bootState bootDesc bootPlace 0 log t :=
  truncate_frees bootState_located (Or.inr (by decide +kernel)) bootState_fit.directory.tree

end NeonixTruncations
