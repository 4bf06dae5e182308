import Neonix.Arenas
import Neonix.KernelPages

/-! # Where the blocks of the heap are

    `Geometry` says where the arenas, the free blocks and the allocations are, with no
    word of the memory; `Holds` says what the memory holds for them.  No word of an
    `arena_t`, a descriptor or a free block is one of another's. -/

namespace NeonixHeapShape

open NeonixMachine NeonixOutcome NeonixMemoryLists NeonixArenas
open NeonixMemory (MEMORY_BASE KERNEL_MEMORY_SIZE PAGE_SIZE IDX pageCount)
open NeonixKernelPages (Separate)

variable {m m' : Words} {s : Heap} {F : Nat → List Nat} {X : List Nat} {b D i j k p q w : Nat}

/-! ## Blocks of an arena -/

/-- The block size of descriptor `i`. -/
def bytes (i : Nat) : Nat := 16 * 2 ^ i

/-- The blocks of an arena of descriptor `i`. -/
def blocks (i : Nat) : Nat := (PAGE_SIZE - ARENA_SIZE) / bytes i

/-- Block `k` of the arena on page `p`. -/
def block (p i k : Nat) : Nat := p + ARENA_SIZE + k * bytes i

theorem bytes_pos (i : Nat) : 0 < bytes i := Nat.mul_pos (by decide) (Nat.two_pow_pos i)

theorem bytes_aligned (i : Nat) : ∃ c, bytes i = 16 * c := ⟨2 ^ i, rfl⟩

theorem block_end (hk : k < blocks i) : block p i k + bytes i ≤ p + PAGE_SIZE := by
  have hle : (k + 1) * bytes i ≤ PAGE_SIZE - ARENA_SIZE :=
    (Nat.le_div_iff_mul_le (bytes_pos i)).mp hk
  rw [Nat.succ_mul] at hle
  have hP : PAGE_SIZE = 4096 := rfl
  have hA : ARENA_SIZE = 16 := rfl
  rw [block]
  omega

theorem le_block : p + ARENA_SIZE ≤ block p i k := Nat.le_add_right ..

theorem block_aligned (hp : p % PAGE_SIZE = 0) : block p i k % 16 = 0 := by
  obtain ⟨c, hc⟩ := bytes_aligned i
  have hP : p % 4096 = 0 := hp
  rw [block, hc, show ARENA_SIZE = 16 from rfl, Nat.mul_left_comm]
  omega

/-- The header of a block is found by its address. -/
theorem getBlockArena_block (hp : p % PAGE_SIZE = 0) (hk : k < blocks i) :
    getBlockArena (block p i k) = p := by
  have hend := block_end (p := p) hk
  have hstart : p + 16 ≤ block p i k := le_block
  have hpos : 16 ≤ bytes i := Nat.le_mul_of_pos_right 16 (Nat.two_pow_pos i)
  change p % 4096 = 0 at hp
  change block p i k + bytes i ≤ p + 4096 at hend
  rw [getBlockArena]
  omega

theorem block_inj {k' : Nat} (h : block p i k = block p i k') : k = k' := by
  rw [block, block] at h
  exact Nat.eq_of_mul_eq_mul_right (bytes_pos i) (Nat.add_left_cancel h)

/-- A block of the arena on page `p`. -/
def IsBlock (p i b : Nat) : Prop := ∃ k < blocks i, b = block p i k

theorem IsBlock.bounds (h : IsBlock p i b) : p + 16 ≤ b ∧ b + bytes i ≤ p + 4096 := by
  obtain ⟨k, hk, rfl⟩ := h
  exact ⟨le_block, block_end hk⟩

theorem IsBlock.arena (h : IsBlock p i b) (hp : p % PAGE_SIZE = 0) : getBlockArena b = p := by
  obtain ⟨k, hk, rfl⟩ := h
  exact getBlockArena_block hp hk

theorem IsBlock.aligned (h : IsBlock p i b) (hp : p % PAGE_SIZE = 0) : b % 16 = 0 := by
  obtain ⟨k, -, rfl⟩ := h
  exact block_aligned hp

/-- Different blocks of an arena have no byte in common. -/
theorem IsBlock.separate {b' : Nat} (h : IsBlock p i b) (h' : IsBlock p i b') (hne : b ≠ b') :
    Separate b (bytes i) b' (bytes i) := by
  obtain ⟨k, -, rfl⟩ := h
  obtain ⟨k', -, rfl⟩ := h'
  have hmul : ∀ {a c : Nat}, a < c → a * bytes i + bytes i ≤ c * bytes i := by
    intro a c hac
    rw [← Nat.succ_mul]
    exact Nat.mul_le_mul_right _ hac
  rw [Separate, block, block]
  rcases Nat.lt_trichotomy k k' with hlt | rfl | hlt
  · have := hmul hlt
    omega
  · exact absurd rfl hne
  · have := hmul hlt
    omega

theorem bytes_ge (i : Nat) : 16 ≤ bytes i := Nat.le_mul_of_pos_right 16 (Nat.two_pow_pos i)

/-! ## The heap without its memory -/

section Geometry

-- the address of `descriptors`
variable (D : Nat)

/-- The pages of an allocation of more than 1024 bytes. -/
def pagesOf (size : Nat) : Nat := (size + ARENA_SIZE + (PAGE_SIZE - 1)) / PAGE_SIZE

/-- Pages that the heap holds. -/
structure OnPages (held : Nat → Bool) (p count : Nat) : Prop where
  aligned : p % PAGE_SIZE = 0
  low : MEMORY_BASE ≤ p
  high : p + count * PAGE_SIZE ≤ KERNEL_MEMORY_SIZE
  held : ∀ j < count, held (IDX p + j) = true

/-- An allocation that is a block, and not a free one. -/
def IsSmall (F : Nat → List Nat) (s : Heap) (r : Nat × Nat) : Prop :=
  r.2 ≤ 1024 ∧ ∃ i < DESC_COUNT, ∃ p, (p, descriptor D i) ∈ s.arenas ∧ IsBlock p i r.1 ∧
    r.2 ≤ bytes i ∧ r.1 ∉ F i

/-- An allocation with pages of its own. -/
def IsLarge (s : Heap) (r : Nat × Nat) : Prop :=
  1024 < r.2 ∧ ∃ p, r.1 = p + ARENA_SIZE ∧ OnPages s.held p (pagesOf r.2)

/-- Two allocations, if both are large, have different pages. -/
def Aside (r r' : Nat × Nat) : Prop := 1024 < r.2 → 1024 < r'.2 →
  Separate r.1 (pagesOf r.2 * PAGE_SIZE) r'.1 (pagesOf r'.2 * PAGE_SIZE)

theorem Aside.symm {r r' : Nat × Nat} (h : Aside r r') : Aside r' r :=
  fun hr' hr => (h hr hr').symm

instance : Std.Symm Aside := ⟨fun _ _ => Aside.symm⟩

structure Geometry (F : Nat → List Nat) (s : Heap) : Prop where
  arena : ∀ r ∈ s.arenas, OnPages s.held r.1 1 ∧ ∃ i < DESC_COUNT, r.2 = descriptor D i
  once : (s.arenas.map Prod.fst).Nodup
  free : ∀ i < DESC_COUNT, ∀ b ∈ F i, ∃ p, (p, descriptor D i) ∈ s.arenas ∧ IsBlock p i b
  nodup : ∀ i < DESC_COUNT, (F i).Nodup
  live : ∀ r ∈ s.live, IsSmall D F s r ∨ IsLarge s r
  pointers : (s.live.map Prod.fst).Nodup
  aside : s.live.Pairwise Aside
  apart : ∀ r ∈ s.live, 1024 < r.2 → ∀ q ∈ s.arenas,
    Separate (r.1 - ARENA_SIZE) (pagesOf r.2 * PAGE_SIZE) q.1 PAGE_SIZE

end Geometry

theorem pagesOf_pos (size : Nat) : 0 < pagesOf size := by
  show 0 < (size + 16 + 4095) / 4096
  omega

/-- A byte of pages that start at `p`. -/
theorem page_index {n : Nat} (hp : p % PAGE_SIZE = 0) (hlo : p ≤ w) (hhi : w < p + n * PAGE_SIZE) :
    ∃ j < n, IDX w = IDX p + j := by
  change p % 4096 = 0 at hp
  change w < p + n * 4096 at hhi
  refine ⟨w / 4096 - p / 4096, by omega, ?_⟩
  show w / 4096 = p / 4096 + _
  omega

theorem OnPages.held_at {held : Nat → Bool} {n : Nat} (h : OnPages held p n) (hlo : p ≤ w)
    (hhi : w < p + n * PAGE_SIZE) : held (IDX w) = true := by
  obtain ⟨j, hj, hw⟩ := page_index h.aligned hlo hhi
  rw [hw]
  exact h.held j hj

/-- Pages that the heap does not hold are none of those it holds. -/
theorem OnPages.separate {n k : Nat} (h : OnPages s.held p n) (hfresh : Fresh s q k) (hn : 0 < n)
    (hk : 0 < k) : Separate p (n * PAGE_SIZE) q (k * PAGE_SIZE) := by
  obtain ⟨hq, -, -, hno⟩ := hfresh
  by_contra hmeet
  rw [Separate] at hmeet
  have hP : PAGE_SIZE = 4096 := rfl
  have hpages : PAGE_SIZE ≤ n * PAGE_SIZE := Nat.le_mul_of_pos_left _ hn
  have hpages' : PAGE_SIZE ≤ k * PAGE_SIZE := Nat.le_mul_of_pos_left _ hk
  -- the later of the two starts is on pages of both
  obtain ⟨w, hw1, hw2, hw3, hw4⟩ : ∃ w, p ≤ w ∧ w < p + n * PAGE_SIZE ∧ q ≤ w ∧
      w < q + k * PAGE_SIZE := by
    rcases Nat.le_total p q with hle | hle
    · exact ⟨q, hle, by omega, Nat.le_refl q, by omega⟩
    · exact ⟨p, Nat.le_refl p, by omega, hle, by omega⟩
  obtain ⟨j, hj, hidx⟩ := page_index hq hw3 hw4
  have hheld := h.held_at hw1 hw2
  rw [hidx, hno j hj] at hheld
  cases hheld

theorem descriptor_inj (h : descriptor D i = descriptor D j) : i = j := by
  rw [descriptor, descriptor] at h
  omega

/-- A page is cut into blocks of one size. -/
theorem Geometry.same_arena {d d' : Nat} (h : Geometry D F s) (hd : (p, d) ∈ s.arenas)
    (hd' : (p, d') ∈ s.arenas) : d = d' :=
  congrArg Prod.snd (List.inj_on_of_nodup_map h.once hd hd' rfl)

theorem Geometry.same_block {p' : Nat} (h : Geometry D F s) (hp : (p, descriptor D i) ∈ s.arenas)
    (hp' : (p', descriptor D j) ∈ s.arenas) (hb : IsBlock p i b) (hb' : IsBlock p' j b) :
    p = p' ∧ i = j := by
  have heq : p = p' := by
    rw [← hb.arena (h.arena _ hp).1.aligned, hb'.arena (h.arena _ hp').1.aligned]
  subst heq
  exact ⟨rfl, descriptor_inj (h.same_arena hp hp')⟩

/-- The pages of an allocation that is no block. -/
theorem Geometry.large {r : Nat × Nat} (h : Geometry D F s) (hr : r ∈ s.live)
    (hlarge : 1024 < r.2) :
    ∃ p, r.1 = p + ARENA_SIZE ∧ OnPages s.held p (pagesOf r.2) ∧
      ∀ q ∈ s.arenas, Separate p (pagesOf r.2 * PAGE_SIZE) q.1 PAGE_SIZE := by
  obtain ⟨-, p, hp, hon⟩ := (h.live r hr).resolve_left fun hsmall => absurd hsmall.1 (by omega)
  have hapart := h.apart r hr hlarge
  rw [hp, Nat.add_sub_cancel] at hapart
  exact ⟨p, hp, hon, hapart⟩

/-- Different pages of arenas. -/
theorem Geometry.pages_separate (h : Geometry D F s) {d d' : Nat} (hp : (p, d) ∈ s.arenas)
    (hq : (q, d') ∈ s.arenas) (hne : p ≠ q) : p + 4096 ≤ q ∨ q + 4096 ≤ p := by
  have hpa : p % 4096 = 0 := (h.arena _ hp).1.aligned
  have hqa : q % 4096 = 0 := (h.arena _ hq).1.aligned
  omega

/-! ## What the memory holds -/

/-- What the words of a heap should say: the free blocks of each size, in the order of
    their list, the free blocks counted for each page and the pages counted for each
    size. -/
structure Books where
  free : Nat → List Nat
  count : Nat → Nat
  pages : Nat → Nat

/-- The words of an `arena_t`. -/
structure Header (m : Words) (arena desc large count : Nat) : Prop where
  desc : descOf m arena = desc
  large : largeOf m arena = large
  count : countOf m arena = count
  magic : magicOf m arena = NEONIX_MAGIC

/-- The words of descriptor `i`, but for its list. -/
structure Sizes (m : Words) (desc i pages : Nat) : Prop where
  total : totalBlock m desc = blocks i
  size : blockSize m desc = bytes i
  pages : pageCountOf m desc = pages

theorem Header.congr {arena desc large count : Nat} (h : Header m arena desc large count)
    (hsame : ∀ w < 16, m' (arena + w) = m (arena + w)) : Header m' arena desc large count where
  desc := (hsame 0 (by omega)).trans h.desc
  large := (hsame 8 (by omega)).trans h.large
  count := (hsame 4 (by omega)).trans h.count
  magic := (hsame 12 (by omega)).trans h.magic

theorem Sizes.congr {desc pages : Nat} (h : Sizes m desc i pages)
    (hsame : ∀ w < 12, m' (desc + w) = m (desc + w)) : Sizes m' desc i pages where
  total := (hsame 0 (by omega)).trans h.total
  size := (hsame 4 (by omega)).trans h.size
  pages := (hsame 8 (by omega)).trans h.pages

theorem setArena_header (m : Words) (arena desc large count : Nat) :
    Header (setArena m arena desc large count) arena desc large count := by
  constructor <;> simp [setArena, descOf, largeOf, countOf, magicOf, store_apply]

/-- The memory says what the books do. -/
structure Holds (D : Nat) (K : Books) (s : Heap) : Prop where
  sizes : ∀ i < DESC_COUNT, Sizes s.mem (descriptor D i) i (K.pages i)
  list : ∀ i < DESC_COUNT, IsList s.mem (freeList (descriptor D i)) (K.free i)
  arena : ∀ r ∈ s.arenas, Header s.mem r.1 r.2 0 (K.count r.1)
  large : ∀ r ∈ s.live, 1024 < r.2 → Header s.mem (r.1 - ARENA_SIZE) 0 1 (pagesOf r.2)

/-- The free blocks of a page in a list. -/
def countIn (X : List Nat) (p : Nat) : Nat := (X.filter fun b => getBlockArena b = p).length

/-- The books add up. -/
structure Tallied (D : Nat) (K : Books) (s : Heap) : Prop where
  count : ∀ i < DESC_COUNT, ∀ p, (p, descriptor D i) ∈ s.arenas →
    K.count p = countIn (K.free i) p
  pages : ∀ i < DESC_COUNT, K.pages i = (s.arenas.filter fun r => r.2 = descriptor D i).length

/-- Where the descriptors are: in front of the pages of the heap. -/
def Placed (D : Nat) : Prop := 0 < D ∧ D + 28 * DESC_COUNT ≤ MEMORY_BASE

/-- Blocks of arenas of a descriptor. -/
def BlocksOf (D : Nat) (s : Heap) (i : Nat) (X : List Nat) : Prop :=
  ∀ b ∈ X, ∃ p, (p, descriptor D i) ∈ s.arenas ∧ IsBlock p i b

/-- The nodes of the list of free blocks of a descriptor. -/
def chain (D i : Nat) (X : List Nat) : List Nat :=
  freeList (descriptor D i) :: (X ++ [tailOf (freeList (descriptor D i))])

theorem outside_chain : Outside (chain D i X) w ↔
    (w ≠ D + 28 * i + 12 ∧ w ≠ D + 28 * i + 16 ∧ w ≠ D + 28 * i + 20 ∧ w ≠ D + 28 * i + 24) ∧
      ∀ b ∈ X, w ≠ b ∧ w ≠ b + 4 := by
  simp only [Outside, chain, List.mem_cons, List.mem_append, List.not_mem_nil, or_false, freeList,
    tailOf, descriptor]
  constructor
  · intro h
    obtain ⟨h1, h2⟩ := h _ (Or.inl rfl)
    obtain ⟨h3, h4⟩ := h _ (Or.inr (Or.inr rfl))
    exact ⟨⟨h1, by omega, by omega, by omega⟩, fun b hb => h b (Or.inr (Or.inl hb))⟩
  · rintro ⟨⟨h1, h2, h3, h4⟩, hX⟩ a (rfl | ha | rfl)
    · exact ⟨h1, by omega⟩
    · exact hX a ha
    · exact ⟨by omega, by omega⟩

section Words

variable (hD : Placed D) (h : Geometry D F s) (hi : i < DESC_COUNT) (hX : BlocksOf D s i X)
include hD h hi hX

omit hi in
theorem block_low (hb : b ∈ X) : D + 196 ≤ b := by
  obtain ⟨p, hp, hblock⟩ := hX b hb
  have hlow := (h.arena _ hp).1.low
  have hstart := hblock.bounds.1
  have hbase := hD.2
  change D + 28 * 7 ≤ MEMORY_BASE at hbase
  change MEMORY_BASE ≤ p at hlow
  omega

/-- The other words of the descriptors. -/
theorem desc_outside (hj : j < DESC_COUNT) (hw : w < 12) :
    Outside (chain D i X) (descriptor D j + w) := by
  change i < 7 at hi
  change j < 7 at hj
  rw [outside_chain, descriptor]
  refine ⟨by omega, fun b hb => ?_⟩
  have hlow := block_low hD h hX hb
  omega

/-- The words of an `arena_t`. -/
theorem header_outside {d : Nat} (hq : (q, d) ∈ s.arenas) (hw : w < 16) :
    Outside (chain D i X) (q + w) := by
  have hlow := (h.arena _ hq).1.low
  have hbase := hD.2
  change MEMORY_BASE ≤ q at hlow
  change D + 28 * 7 ≤ MEMORY_BASE at hbase
  change i < 7 at hi
  rw [outside_chain]
  refine ⟨by omega, fun b hb => ?_⟩
  obtain ⟨p, hp, hblock⟩ := hX b hb
  obtain ⟨hlo, hhi⟩ := hblock.bounds
  have hbytes := bytes_ge i
  by_cases hpq : p = q
  · omega
  · have := h.pages_separate hp hq hpq
    omega

/-- The words in front of a large allocation. -/
theorem large_outside {r : Nat × Nat} (hr : r ∈ s.live) (hlarge : 1024 < r.2) (hw : w < 16) :
    Outside (chain D i X) (r.1 - ARENA_SIZE + w) := by
  obtain ⟨a, ha, hon, hapart⟩ := h.large hr hlarge
  have hlow := hon.low
  have hbase := hD.2
  have hP : PAGE_SIZE = 4096 := rfl
  rw [ha, Nat.add_sub_cancel]
  change D + 28 * 7 ≤ MEMORY_BASE at hbase
  change i < 7 at hi
  rw [outside_chain]
  refine ⟨by omega, fun b hb => ?_⟩
  obtain ⟨p, hp, hblock⟩ := hX b hb
  obtain ⟨hlo, hhi⟩ := hblock.bounds
  have hbytes := bytes_ge i
  have hsep := hapart _ hp
  rw [Separate] at hsep
  omega

/-- The nodes of another list. -/
theorem chain_outside (hj : j < DESC_COUNT) (hij : i ≠ j) {Y : List Nat} (hY : BlocksOf D s j Y)
    (hw : ¬ Outside (chain D j Y) w) : Outside (chain D i X) w := by
  change i < 7 at hi
  change j < 7 at hj
  rw [outside_chain] at hw ⊢
  -- the word is of the descriptor, or of a free block
  have hcases : (w = D + 28 * j + 12 ∨ w = D + 28 * j + 16 ∨ w = D + 28 * j + 20 ∨
      w = D + 28 * j + 24) ∨ ∃ c ∈ Y, w = c ∨ w = c + 4 := by
    by_contra hno
    refine hw ⟨by omega, fun c hc => ?_⟩
    by_contra hc'
    exact hno (Or.inr ⟨c, hc, by omega⟩)
  rcases hcases with hdesc | ⟨c, hc, hwc⟩
  · refine ⟨by omega, fun b hb => ?_⟩
    have hlow := block_low hD h hX hb
    omega
  · have hclow := block_low hD h hY hc
    refine ⟨by omega, fun b hb => ?_⟩
    obtain ⟨p, hp, hblock⟩ := hX b hb
    obtain ⟨p', hp', hblock'⟩ := hY c hc
    have hb16 := hblock.aligned (h.arena _ hp).1.aligned
    have hc16 := hblock'.aligned (h.arena _ hp').1.aligned
    have hne : b ≠ c := by
      rintro rfl
      exact hij (h.same_block hp hp' hblock hblock').2
    omega

end Words

/-! ## The words of the heap -/

theorem Geometry.blocksOf (h : Geometry D F s) (hi : i < DESC_COUNT) : BlocksOf D s i (F i) :=
  h.free i hi

/-- A word that the heap uses itself. -/
inductive Used (D : Nat) (F : Nat → List Nat) (s : Heap) (w : Nat) : Prop where
  | sizes (i o : Nat) (hi : i < DESC_COUNT) (ho : o < 12) (hw : w = descriptor D i + o)
  | list (i : Nat) (hi : i < DESC_COUNT) (hw : ¬ Outside (chain D i (F i)) w)
  | arena (r : Nat × Nat) (o : Nat) (hr : r ∈ s.arenas) (ho : o < 16) (hw : w = r.1 + o)
  | large (r : Nat × Nat) (o : Nat) (hr : r ∈ s.live) (hlarge : 1024 < r.2) (ho : o < 16)
      (hw : w = r.1 - ARENA_SIZE + o)

/-- The other words may change. -/
theorem Holds.frame {K : Books} (h : Holds D K s)
    (hsame : ∀ w, Used D K.free s w → m' w = s.mem w) :
    Holds D K { s with mem := m' } where
  sizes := fun i hi => (h.sizes i hi).congr fun o ho => hsame _ (.sizes i o hi ho rfl)
  list := fun i hi => (h.list i hi).congr fun _ hw => hsame _ (.list i hi hw)
  arena := fun r hr => (h.arena r hr).congr fun o ho => hsame _ (.arena r o hr ho rfl)
  large := fun r hr hlarge => (h.large r hr hlarge).congr fun o ho =>
    hsame _ (.large r o hr hlarge ho rfl)

/-- The words of the heap are those of the descriptors, and others on its pages. -/
theorem Used.place (h : Geometry D F s) (hw : Used D F s w) :
    (D ≤ w ∧ w < D + 28 * DESC_COUNT) ∨ (MEMORY_BASE ≤ w ∧ s.held (IDX w) = true) := by
  have hP : PAGE_SIZE = 4096 := rfl
  cases hw with
  | sizes i o hi ho hw =>
      left
      change i < 7 at hi
      rw [descriptor] at hw
      show _ ∧ w < D + 28 * 7
      omega
  | list i hi hw =>
      change i < 7 at hi
      rw [outside_chain] at hw
      by_cases hdesc : D ≤ w ∧ w < D + 28 * 7
      · exact Or.inl hdesc
      · right
        obtain ⟨b, hb, hwb⟩ : ∃ b ∈ F i, w = b ∨ w = b + 4 := by
          by_contra hno
          refine hw ⟨by omega, fun b hb => ?_⟩
          by_contra hb'
          exact hno ⟨b, hb, by omega⟩
        obtain ⟨p, hp, hblock⟩ := h.free i hi b hb
        obtain ⟨hlo, hhi⟩ := hblock.bounds
        have hbytes := bytes_ge i
        have hon := (h.arena _ hp).1
        have hlow := hon.low
        change MEMORY_BASE ≤ p at hlow
        refine ⟨by omega, hon.held_at (?_ : p ≤ w) (?_ : w < p + 1 * PAGE_SIZE)⟩ <;> omega
  | arena r o hr ho hw =>
      have hon := (h.arena r hr).1
      have hlow := hon.low
      exact Or.inr ⟨by omega, hon.held_at (by omega) (by omega)⟩
  | large r o hr hlarge ho hw =>
      obtain ⟨p, hp, hon, -⟩ := h.large hr hlarge
      have hlow := hon.low
      have hcount : PAGE_SIZE ≤ pagesOf r.2 * PAGE_SIZE :=
        Nat.le_mul_of_pos_left _ (pagesOf_pos r.2)
      rw [hp, Nat.add_sub_cancel] at hw
      exact Or.inr ⟨by omega, hon.held_at (by omega) (by omega)⟩

/-- No word of pages that the heap does not hold. -/
theorem Used.not_fresh {n : Nat} (hD : Placed D) (h : Geometry D F s) (hw : Used D F s w)
    (hfresh : Fresh s p n) : ¬ (p ≤ w ∧ w < p + n * PAGE_SIZE) := by
  rintro ⟨hlo, hhi⟩
  obtain ⟨haligned, hlow, -, hno⟩ := hfresh
  rcases hw.place h with hdesc | ⟨-, hheld⟩
  · have hbase := hD.2
    omega
  · obtain ⟨j, hj, hidx⟩ := page_index haligned hlo hhi
    rw [hidx, hno j hj] at hheld
    cases hheld

end NeonixHeapShape
