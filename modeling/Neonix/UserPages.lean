import Neonix.MappingCalls
import Neonix.Words

/-! # What a task finds at its own addresses

    Linking a page, storing a byte and sealing a page, as the task itself sees them:
    the bytes and the read-only pages that are there stay (`After`).  That a store
    shows at one address only is where exact counts come in: no directory maps a
    page twice. -/

namespace NeonixUserPages

open NeonixMachine NeonixOutcome NeonixByteBits NeonixMemory NeonixPageRefs NeonixPageSteps
  NeonixPageCalls NeonixMappingCalls NeonixTally NeonixWords

variable {m m' : Memory} {x : Space} {a c v : Nat} {e : Entry} {E : Nat → Nat} {W W' : Nat → Prop}

/-- An address of a process, below the window on the page tables. -/
def User (a : Nat) : Prop := USER_EXEC_ADDR ≤ a ∧ a < PDE_MASK

theorem User.counts (h : User a) : Counts (DIDX a) := counts_of_range h.1 h.2

/-- The entry of the page of an address. -/
def entryAt (m : Memory) (x : Space) (a : Nat) : Option Entry := (m.walk x a).map Prod.snd

/-- A page nothing refers to is taken. -/
theorem entryAt_taken (p : Nat) (f : UInt32) : entryAt (taken m p f) x a = entryAt m x a := rfl

/-- The page of an address is read-only. -/
def Sealed (m : Memory) (x : Space) (a : Nat) : Prop :=
  ∃ e, entryAt m x a = some e ∧ e.write = false ∧ e.readonly = true

/-- A task on directory `x` finds what it found before, but for the bytes in `W`. -/
structure After (x : Space) (W : Nat → Prop) (m m' : Memory) : Prop where
  sound : Sound m'
  live : (m'.dirs x).isSome
  mapped : ∀ a, User a → (entryAt m x a).isSome → (entryAt m' x a).isSome
  bytes : ∀ a b, User a → ¬ W a → m.read x a = some b → m'.read x a = some b
  readonly : ∀ a, User a → Sealed m x a → Sealed m' x a

theorem After.refl (h : Sound m) (hl : (m.dirs x).isSome) : After x W m m :=
  ⟨h, hl, fun _ _ hs => hs, fun _ _ _ _ hb => hb, fun _ _ hs => hs⟩

theorem After.mono (h : After x W m m') (hW : ∀ a, W a → W' a) : After x W' m m' :=
  ⟨h.sound, h.live, h.mapped, fun a b ha hn => h.bytes a b ha fun hw => hn (hW a hw), h.readonly⟩

theorem After.trans {m'' : Memory} (h : After x W m m') (h' : After x W m' m'') :
    After x W m m'' where
  sound := h'.sound
  live := h'.live
  mapped := fun a ha hs => h'.mapped a ha (h.mapped a ha hs)
  bytes := fun a b ha hn hb => h'.bytes a b ha hn (h.bytes a b ha hn hb)
  readonly := fun a ha hs => h'.readonly a ha (h.readonly a ha hs)

/-- Only memory is short. -/
def wrong (e : Stop) : Prop := e ≠ .panic

theorem user_page {i : Nat}
    (h : USER_EXEC_ADDR ≤ v + i * PAGE_SIZE ∧ v + i * PAGE_SIZE < USER_MMAP_ADDR) :
    User (v + i * PAGE_SIZE) :=
  ⟨h.1, h.2.trans (by decide)⟩

/-- The page of an address, after the fault that links it if it is not there.  A task
    that exits does not come back. -/
def touch (m : Memory) (task : Task) (vaddr : Nat) (write : Bool) : Res Memory :=
  if (m.read task.pde vaddr).isSome then .ok m
  else do
    match ← pageFault m task vaddr false write with
    | .exit => .error .outOfBounds
    | .back m => return m

/-- A store by the kernel.  One into the window on the page tables is none to a page. -/
def storeByte (m : Memory) (task : Task) (vaddr : Nat) (b : Byte) : Res Memory :=
  if PDE_MASK ≤ vaddr then .error .outOfBounds
  else do
    let m ← touch m task vaddr true
    match ← store m task .kernel vaddr b with
    | .exit => .error .outOfBounds
    | .back m => return m

/-- Stores to one address after the other, as of `memcpy` and `memset`. -/
def storeAll (m : Memory) (task : Task) : Nat → List Byte → Res Memory
  | _, [] => .ok m
  | vaddr, b :: bytes => do
      let m ← storeByte m task (vaddr % 2 ^ 32) b
      storeAll m task (vaddr + 1) bytes

/-- The bytes that a task sees, as far as its pages are there. -/
def view (m : Memory) (x : Space) : Bytes := fun a => (m.read x a).getD 0

/-- A load of a `u32` or of a `u16` in one page. -/
def load32 (m : Memory) (task : Task) (vaddr : Nat) : Res (BitVec 32 × Memory) := do
  let m ← touch m task vaddr false
  return (u32At (view m task.pde) vaddr, m)

def load16 (m : Memory) (task : Task) (vaddr : Nat) : Res (BitVec 16 × Memory) := do
  let m ← touch m task vaddr false
  return (u16At (view m task.pde) vaddr, m)

section Accesses

variable {task : Task} {b : Byte}

/-- The addresses of `n` bytes from `a` on. -/
def Range (a n c : Nat) : Prop := a ≤ c ∧ c < a + n

/-- The bytes lie in the memory of a process. -/
def Fit (a n : Nat) : Prop := 0 < n → USER_EXEC_ADDR ≤ a ∧ a + n ≤ USER_STACK_TOP

end Accesses

end NeonixUserPages
