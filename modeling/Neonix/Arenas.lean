import Neonix.Memory
import Neonix.MemoryLists
import Neonix.Runs

/-! # `kernel/arena.c`: the kernel heap

    Allocations of up to 1024 bytes are blocks of pages that were cut into blocks of one
    size, larger ones are whole pages; both have an `arena_t` in front.  The free
    blocks of one size are linked through their own first words.  Which pages
    `alloc_kpage` returns is left to the caller: any that are not in use. -/

namespace NeonixArenas

open NeonixMachine NeonixOutcome NeonixRuns NeonixMemoryLists
open NeonixMemory (MEMORY_BASE KERNEL_MEMORY_SIZE PAGE_SIZE IDX pageCount)

def DESC_COUNT : Nat := 7
def BUF_COUNT : Nat := 4
def NEONIX_MAGIC : Nat := 0x20220220

/-! ## `arena_descriptor_t` and `arena_t` -/

/-- `&descriptors[i]`, for the address of the array. -/
def descriptor (descriptors i : Nat) : Nat := descriptors + 28 * i

def totalBlock (m : Words) (desc : Nat) : Nat := m desc
def blockSize (m : Words) (desc : Nat) : Nat := m (desc + 4)
def pageCountOf (m : Words) (desc : Nat) : Nat := m (desc + 8)

/-- `&desc->free_list`. -/
def freeList (desc : Nat) : Nat := desc + 12

def descOf (m : Words) (arena : Nat) : Nat := m arena
def countOf (m : Words) (arena : Nat) : Nat := m (arena + 4)
def largeOf (m : Words) (arena : Nat) : Nat := m (arena + 8)
def magicOf (m : Words) (arena : Nat) : Nat := m (arena + 12)

/-- `sizeof(arena_t)`. -/
def ARENA_SIZE : Nat := 16

/-- The four words of an `arena_t`. -/
def setArena (m : Words) (arena desc large count : Nat) : Words :=
  (((m.store arena desc).store (arena + 8) large).store (arena + 4) count).store (arena + 12)
    NEONIX_MAGIC

/-- `memset(addr, 0, size)`. -/
def clear (m : Words) (addr size : Nat) : Words := fun w =>
  if addr ≤ w ∧ w < addr + size then 0 else m w

/-- No list is longer: a block has 16 bytes of the kernel's memory or more. -/
def TURNS : Nat := KERNEL_MEMORY_SIZE / 16 + 1

/-- A list operation that stopped failed an assertion or used a null pointer. -/
def orStop {α : Type} : Option α → Res α
  | some x => .ok x
  | none => .error .assertion

/-- The loop of `arena_init`. -/
def initFrom (descriptors : Nat) : (left i block_size : Nat) → Words → Res Words
  | 0, _, _, m => return m
  | left + 1, i, block_size, m => do
      let desc := descriptor descriptors i
      let m := m.store (desc + 4) block_size
      let m := m.store desc ((PAGE_SIZE - ARENA_SIZE) / block_size)
      let m := m.store (desc + 8) 0
      let m ← orStop (listInit m (freeList desc))
      initFrom descriptors left (i + 1) (block_size <<< 1) m

/-- `arena_init`. -/
def arenaInit (descriptors : Nat) (m : Words) : Res Words := initFrom descriptors DESC_COUNT 0 16 m

/-- `get_arena_block`. -/
def getArenaBlock (m : Words) (arena idx : Nat) : Res Nat := do
  check (totalBlock m (descOf m arena) > idx)
  let addr := arena + ARENA_SIZE
  let gap := idx * blockSize m (descOf m arena)
  return addr + gap

/-- `get_block_arena`. -/
def getBlockArena (block : Nat) : Nat := block / 0x1000 * 0x1000

/-! ## The heap

    `arenas` and `live` are read by no code: the pages cut into blocks, with their
    descriptors, and the allocations in use, with the sizes asked for. -/

structure Heap where
  mem : Words
  /-- the pages of `kernel_map` that the heap has taken -/
  held : Nat → Bool
  arenas : List (Nat × Nat)
  live : List (Nat × Nat)

/-- Pages of the kernel's memory that the heap does not hold. -/
def Fresh (s : Heap) (page count : Nat) : Prop :=
  page % PAGE_SIZE = 0 ∧ MEMORY_BASE ≤ page ∧ page + count * PAGE_SIZE ≤ KERNEL_MEMORY_SIZE ∧
    ∀ j < count, s.held (IDX page + j) = false

instance (s : Heap) (page count : Nat) : Decidable (Fresh s page count) :=
  inferInstanceAs (Decidable (_ ∧ _ ∧ _ ∧ _))

/-- `alloc_kpage`, which returns `page` or panics. -/
def allocKpage (s : Heap) (page count : Nat) : Res Heap := do
  check (0 < count)
  if Fresh s page count then
    return { s with held := fun j => decide (IDX page ≤ j ∧ j < IDX page + count) || s.held j }
  else .error .panic

/-- `free_kpage`. -/
def freeKpage (s : Heap) (vaddr count : Nat) : Res Heap := do
  check (vaddr % PAGE_SIZE = 0)
  check (0 < count)
  check (∀ j < count, s.held (IDX vaddr + j) = true)
  return { s with held := fun j => !decide (IDX vaddr ≤ j ∧ j < IDX vaddr + count) && s.held j }

section Calls

variable (descriptors : Nat)

/-- The loop over the descriptors in `kmalloc`. -/
def findDescriptor (m : Words) (size : Nat) : (left i desc : Nat) → Nat
  | 0, _, desc => desc
  | left + 1, i, _ =>
      let desc := descriptor descriptors i
      if blockSize m desc ≥ size then desc else findDescriptor m size left (i + 1) desc

/-- `kmalloc` of more than 1024 bytes. -/
def kmallocLarge (s : Heap) (size page : Nat) : Res (Nat × Heap) := do
  let asize := (size + ARENA_SIZE) % 2 ^ 32
  let count := pageCount asize
  let s ← allocKpage s page count
  let m := clear s.mem page (count * PAGE_SIZE)
  return (page + ARENA_SIZE, { s with mem := setArena m page 0 1 count })

/-- The body of the loop over the blocks of a new arena. -/
def pushBlock (arena i : Nat) (m : Words) : Res Words := do
  let block ← getArenaBlock m arena i
  let found ← orStop (listSearch TURNS m (freeList (descOf m arena)) block)
  check (found = false)
  let m ← orStop (listPush TURNS m (freeList (descOf m arena)) block)
  let found ← orStop (listSearch TURNS m (freeList (descOf m arena)) block)
  check (found = true)
  return m

/-- A new arena for a descriptor whose list is empty. -/
def newArena (s : Heap) (desc page : Nat) : Res Heap := do
  let s ← allocKpage s page 1
  let m := clear s.mem page PAGE_SIZE
  let m := m.store (desc + 8) (pageCountOf m desc + 1)
  let m := setArena m page desc 0 (totalBlock m desc)
  let m ← forLoop (pushBlock page) 0 (totalBlock m desc) m
  return { s with mem := m, arenas := (page, desc) :: s.arenas }

/-- `kmalloc`, with the page that `alloc_kpage` returns if it is called. -/
def kmalloc (s : Heap) (size page : Nat) : Res (Nat × Heap) := do
  if size > 1024 then kmallocLarge s size page
  else
    let desc := findDescriptor descriptors s.mem size DESC_COUNT 0 0
    check (desc ≠ 0)
    let s ← if listEmpty s.mem (freeList desc) then newArena s desc page else .ok s
    let (block, m) ← orStop (listPop s.mem (freeList desc))
    let arena := getBlockArena block
    check (magicOf m arena = NEONIX_MAGIC ∧ ¬ largeOf m arena ≠ 0)
    return (block, { s with mem := m.store (arena + 4) ((countOf m arena + (2 ^ 32 - 1)) % 2 ^ 32) })

/-- The body of the loop over the blocks of an arena that is given back. -/
def removeBlock (arena i : Nat) (m : Words) : Res Words := do
  let block ← getArenaBlock m arena i
  let found ← orStop (listSearch TURNS m (freeList (descOf m arena)) block)
  check (found = true)
  let m ← orStop (listRemove m block)
  let found ← orStop (listSearch TURNS m (freeList (descOf m arena)) block)
  check (found = false)
  return m

/-- An arena whose blocks are all free is given back. -/
def freeArena (s : Heap) (arena : Nat) : Res Heap := do
  let m ← forLoop (removeBlock arena) 0 (totalBlock s.mem (descOf s.mem arena)) s.mem
  let s ← freeKpage { s with mem := m } arena 1
  let desc := descOf s.mem arena
  let m := s.mem.store (desc + 8) (pageCountOf s.mem desc - 1)
  check (pageCountOf m desc ≥ BUF_COUNT)
  return { s with mem := m, arenas := s.arenas.filter fun r => r.1 ≠ arena }

/-- `kfree`. -/
def kfree (s : Heap) (ptr : Nat) : Res Heap := do
  check (ptr ≠ 0)
  let arena := getBlockArena ptr
  check (largeOf s.mem arena = 1 ∨ largeOf s.mem arena = 0)
  check (magicOf s.mem arena = NEONIX_MAGIC)
  if largeOf s.mem arena ≠ 0 then freeKpage s arena (countOf s.mem arena)
  else
    let m ← orStop (listPush TURNS s.mem (freeList (descOf s.mem arena)) ptr)
    let m := m.store (arena + 4) ((countOf m arena + 1) % 2 ^ 32)
    let s := { s with mem := m }
    if countOf m arena = totalBlock m (descOf m arena) ∧
      pageCountOf m (descOf m arena) > BUF_COUNT then
      freeArena s arena
    else return s

/-! ## The system -/

inductive Event where
  /-- an allocation, and the page that is free for it -/
  | kmalloc (size page : Nat)
  | kfree (ptr : Nat)
  /-- a word is stored by the owner of an allocation, or outside the heap -/
  | store (addr word : Nat)

/-- Addresses that the heap does not use itself: those of the allocations, and all
    but the descriptors outside the pages it holds. -/
def Foreign (s : Heap) (addr : Nat) : Prop :=
  (∃ r ∈ s.live, r.1 ≤ addr ∧ addr < r.1 + r.2) ∨
    (s.held (IDX addr) = false ∧ ¬ (descriptors ≤ addr ∧ addr < descriptors + 28 * DESC_COUNT))

def Enabled (s : Heap) : Event → Prop
  | .kmalloc size _ => 1 ≤ size ∧ size ≤ KERNEL_MEMORY_SIZE
  | .kfree ptr => ∃ r ∈ s.live, r.1 = ptr
  | .store addr _ => Foreign descriptors s addr

def exec (s : Heap) : Event → Res Heap
  | .kmalloc size page => do
      let (ptr, s) ← kmalloc descriptors s size page
      return { s with live := (ptr, size) :: s.live }
  | .kfree ptr => do
      let s ← kfree s ptr
      return { s with live := s.live.filter fun r => r.1 ≠ ptr }
  | .store addr word => return { s with mem := s.mem.store addr word }

/-- The heap from `arena_init` on. -/
def system : System Heap Event :=
  execSystem (fun s => ∃ m, arenaInit descriptors m = .ok s.mem ∧ (∀ j, s.held j = false) ∧
    s.arenas = [] ∧ s.live = []) (Enabled descriptors) (exec descriptors)

end Calls

end NeonixArenas
