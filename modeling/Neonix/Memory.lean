import Mathlib.Data.Fintype.Option
import Neonix.Bitmap
import Neonix.Outcome
import Neonix.Runs

/-! # `kernel/memory.c`: pages, page tables and the calls that change them

    A physical page is looked at in two ways: as 1024 page table entries
    (`table`) and as bytes (`data`).  A directory lists what its slots 4..1022
    hold.  The slots below are the kernel's own mapping of the first 16 MB,
    built once by `mapping_init` and the same in every directory, and the last
    one points at the directory itself; neither is stored.  Directories lie on
    pages of the kernel heap, which are not counted, so a directory goes by the
    task it was made for (`none` is `KERNEL_PAGE_DIR`).

    System calls and `page_fault` run with interrupts off and do not block, so
    each is one step.  `handed` is what the log line of `get_page` would show
    together with the page tables of that moment. -/

namespace NeonixMemory

open NeonixMachine NeonixOutcome NeonixByteBits NeonixBitmap NeonixRuns

def PAGE_SIZE : Nat := 0x1000
def MEMORY_BASE : Nat := 0x100000
def KERNEL_MEMORY_SIZE : Nat := 0x1000000
def USER_EXEC_ADDR : Nat := KERNEL_MEMORY_SIZE
def USER_MMAP_ADDR : Nat := 0x8000000
def USER_MMAP_SIZE : Nat := 0x8000000
def USER_STACK_TOP : Nat := 0x10000000
def USER_STACK_SIZE : Nat := 0x200000
def USER_STACK_BOTTOM : Nat := USER_STACK_TOP - USER_STACK_SIZE
def KERNEL_USER : Nat := 0
def TASK_NR : Nat := 64
def PROT_WRITE : Nat := 2
def MAP_SHARED : Nat := 1
def MAP_PRIVATE : Nat := 2

/-- The first slot of a directory past the kernel's own. -/
def FIRST_SLOT : Nat := 4
/-- The slot in which a directory points at itself. -/
def SELF_SLOT : Nat := 1023
/-- Where the window on the page tables begins, `PDE_MASK`. -/
def PDE_MASK : Nat := 0xFFC00000

def IDX (addr : Nat) : Nat := addr / 0x1000
def DIDX (addr : Nat) : Nat := addr / 0x400000 % 1024
def TIDX (addr : Nat) : Nat := addr / 0x1000 % 1024
def PAGE (idx : Nat) : Nat := idx * 0x1000

/-- `div_round_up(length, PAGE_SIZE)` in 32 bits. -/
def pageCount (length : Nat) : Nat := (length + PAGE_SIZE - 1) % 2 ^ 32 / PAGE_SIZE

/-- `page_entry_t`; the bits nothing reads are left out. -/
structure Entry where
  present : Bool
  write : Bool
  user : Bool
  shared : Bool
  privat : Bool
  readonly : Bool
  index : Nat
  deriving DecidableEq

/-- An entry of a page that `memset` cleared. -/
def Entry.clear : Entry := ⟨false, false, false, false, false, false, 0⟩

/-- `entry_init`. -/
def entryInit (index : Nat) : Entry := ⟨true, true, true, false, false, false, index⟩

instance : NeZero TASK_NR := ⟨by decide⟩

abbrev TaskId := Fin TASK_NR

/-- The directories: the kernel's, and the one made for a task. -/
abbrev Space := Option TaskId

/-- Page tables and directories; `none` where there is no such directory. -/
structure Paging where
  table : Nat → Nat → Entry
  dirs : Space → Option (Nat → Entry)

structure Memory extends Paging where
  memory_map : Nat → Nat
  free_pages : UInt32
  start_page : Nat
  total_pages : Nat
  data : Nat → Nat → Byte
  handed : List (Nat × Paging)

/-- The entry in a slot of a directory. -/
def Paging.slot (P : Paging) (x : Space) (didx : Nat) : Entry :=
  match P.dirs x with
  | some dir => dir didx
  | none => .clear

def Memory.setMap (m : Memory) (p n : Nat) : Memory :=
  { m with memory_map := Function.update m.memory_map p n }

def Memory.setEntry (m : Memory) (q t : Nat) (e : Entry) : Memory :=
  { m with table := Function.update m.table q (Function.update (m.table q) t e) }

def Memory.setDir (m : Memory) (x : Space) (dir : Option (Nat → Entry)) : Memory :=
  { m with dirs := Function.update m.dirs x dir }

def Memory.setSlot (m : Memory) (x : Space) (didx : Nat) (e : Entry) : Memory :=
  m.setDir x (some (Function.update (m.slot x) didx e))

/-- Store what a physical page holds. -/
def Memory.setPage (m : Memory) (p : Nat) (entries : Nat → Entry) (bytes : Nat → Byte) : Memory :=
  { m with table := Function.update m.table p entries, data := Function.update m.data p bytes }

def Memory.setByte (m : Memory) (p off : Nat) (b : Byte) : Memory :=
  { m with data := Function.update m.data p (Function.update (m.data p) off b) }

/-- `assert` on a reference count. -/
def checkCount (p : Prop) [Decidable p] : Res Unit :=
  if p then .ok () else .error .refcount

/-! ## Physical pages -/

/-- The search loop of `get_page`. -/
def freePage (m : Memory) : Option Nat :=
  (List.range' m.start_page (m.total_pages - m.start_page)).find? fun i => m.memory_map i = 0

/-- `get_page`; the pages are counted, so its result is an index. -/
def getPage (m : Memory) : Res (Nat × Memory) :=
  match freePage m with
  | some i =>
      let m := { m with handed := (i, m.toPaging) :: m.handed }
      let m := m.setMap i 1
      .ok (i, { m with free_pages := m.free_pages - 1 })
  | none => .error .panic

/-- `put_page`. -/
def putPage (m : Memory) (idx : Nat) : Res Memory := do
  check (m.start_page ≤ idx ∧ idx < m.total_pages)
  checkCount (1 ≤ m.memory_map idx)
  let m := m.setMap idx (m.memory_map idx - 1)
  let free_pages := if m.memory_map idx = 0 then m.free_pages + 1 else m.free_pages
  check (0 < free_pages.toNat ∧ free_pages.toNat < m.total_pages)
  return { m with free_pages := free_pages }

/-! ## One mapping -/

/-- `get_pte`: the page of the table. -/
def getPte (m : Memory) (x : Space) (vaddr : Nat) (create : Bool) : Res (Nat × Memory) := do
  let entry := m.slot x (DIDX vaddr)
  check (create = true ∨ entry.present = true)
  if entry.present then return (entry.index, m)
  else
    let (page, m) ← getPage m
    let m := m.setSlot x (DIDX vaddr) (entryInit page)
    return (page, m.setPage page (fun _ => .clear) (fun _ => 0))

/-- `link_page`. -/
def linkPage (m : Memory) (x : Space) (vaddr : Nat) : Res Memory := do
  check (vaddr % PAGE_SIZE = 0)
  let (table, m) ← getPte m x vaddr true
  if (m.table table (TIDX vaddr)).present then return m
  else
    let (paddr, m) ← getPage m
    return m.setEntry table (TIDX vaddr) (entryInit paddr)

/-- `unlink_page`. -/
def unlinkPage (m : Memory) (x : Space) (vaddr : Nat) : Res Memory := do
  check (vaddr % PAGE_SIZE = 0)
  if (m.slot x (DIDX vaddr)).present then
    let (table, m) ← getPte m x vaddr false
    let entry := m.table table (TIDX vaddr)
    if entry.present then
      let m := m.setEntry table (TIDX vaddr) { entry with present := false }
      putPage m entry.index
    else return m
  else return m

/-- `copy_page`: the new page holds what the old one does. -/
def copyPage (m : Memory) (page : Nat) : Res (Nat × Memory) := do
  let (paddr, m) ← getPage m
  return (paddr, m.setPage paddr (m.table page) (m.data page))

/-! ## Whole directories -/

/-- The body of the inner loop of `copy_pde`, for entry `tidx` of a table. -/
def copyEntry (table tidx : Nat) (m : Memory) : Res Memory := do
  let entry := m.table table tidx
  if entry.present then
    checkCount (0 < m.memory_map entry.index)
    let m := if entry.shared then m else m.setEntry table tidx { entry with write := false }
    let m := m.setMap entry.index (m.memory_map entry.index + 1)
    checkCount (m.memory_map entry.index < 255)
    return m
  else return m

/-- The body of the outer loop of `copy_pde`, with the new directory. -/
def copySlot (x : Space) (didx : Nat) (s : (Nat → Entry) × Memory) :
    Res ((Nat → Entry) × Memory) := do
  let (pde, m) := s
  if (pde didx).present then
    let pte := (m.slot x didx).index
    let m ← forLoop (copyEntry pte) 0 1024 m
    let (paddr, m) ← copyPage m pte
    return (Function.update pde didx { pde didx with index := paddr }, m)
  else return (pde, m)

/-- `copy_pde` of the task that runs on directory `x`: the new directory, which
    `alloc_kpage` found a page for. -/
def copyPde (m : Memory) (x : Space) : Res ((Nat → Entry) × Memory) :=
  forLoop (copySlot x) FIRST_SLOT (SELF_SLOT - FIRST_SLOT) (m.slot x, m)

/-- The body of the inner loop of `free_pde`. -/
def freeEntry (table tidx : Nat) (m : Memory) : Res Memory := do
  let entry := m.table table tidx
  if entry.present then
    checkCount (0 < m.memory_map entry.index)
    putPage m entry.index
  else return m

/-- The body of the outer loop of `free_pde`. -/
def freeSlot (x : Space) (didx : Nat) (m : Memory) : Res Memory := do
  let dentry := m.slot x didx
  if dentry.present then
    let m ← forLoop (freeEntry dentry.index) 0 1024 m
    putPage m dentry.index
  else return m

/-- `free_pde` of a task with user id `uid` on directory `x`.  `free_kpage`
    fails its assertion on the page of the kernel's directory. -/
def freePde (m : Memory) (uid : Nat) (x : Space) : Res Memory := do
  check (uid ≠ KERNEL_USER)
  let m ← forLoop (freeSlot x) FIRST_SLOT (SELF_SLOT - FIRST_SLOT) m
  check (x ≠ none)
  return m.setDir x none

/-! ## The running task -/

/-- What the memory calls use of a `task_t`. -/
structure Task where
  uid : Nat
  brk : Nat
  end_ : Nat
  vmap : Bitmap
  pde : Space

/-- `kernel_map`.  It starts below the first page `sys_mmap` admits and its
    length does not reach that page, so no call here depends on which of its
    bits are set. -/
def kernelMap : Bitmap :=
  let length := (IDX KERNEL_MEMORY_SIZE - IDX MEMORY_BASE) / 8
  bitmapMake (fun _ => 0) length length (IDX MEMORY_BASE)

/-- The bitmap `task_to_user_mode` makes. -/
def userMap : Bitmap :=
  bitmapMake (fun _ => 0) PAGE_SIZE (USER_MMAP_SIZE / PAGE_SIZE / 8) (USER_MMAP_ADDR / PAGE_SIZE)

/-- `scan_page`. -/
def scanPage (map : Bitmap) (count : Nat) : Res (Nat × Bitmap) := do
  check (0 < count)
  match ← bitmapScan map count with
  | (some index, map) => return (PAGE index, map)
  | (none, _) => .error .panic

/-- `sys_brk`, with its result. -/
def sysBrk (m : Memory) (task : Task) (brk : Nat) : Res (Int × Memory × Task) := do
  check (brk % PAGE_SIZE = 0)
  check (task.uid ≠ KERNEL_USER)
  check (task.end_ ≤ brk ∧ brk ≤ USER_MMAP_ADDR)
  if brk < task.brk then
    let pages := (task.brk - brk + PAGE_SIZE - 1) / PAGE_SIZE
    let m ← forLoop (fun i m => unlinkPage m task.pde (brk + PAGE_SIZE * i)) 0 pages m
    return (0, m, { task with brk := brk })
  else if m.free_pages.toNat < IDX (brk - task.brk) then return (-1, m, task)
  else return (0, m, { task with brk := brk })

/-- The assignments of `sys_mmap` to an entry. -/
def mmapEntry (prot flags : Nat) (entry : Entry) : Entry :=
  let entry := { entry with user := true, write := false, readonly := true }
  let entry := if prot &&& PROT_WRITE ≠ 0 then { entry with readonly := false, write := true }
    else entry
  let entry := if flags &&& MAP_SHARED ≠ 0 then { entry with shared := true } else entry
  if flags &&& MAP_PRIVATE ≠ 0 then { entry with privat := true } else entry

/-- The body of the loop of `sys_mmap`. -/
def mmapPage (x : Space) (vaddr prot flags i : Nat) (s : Memory × Bitmap) :
    Res (Memory × Bitmap) := do
  let page := vaddr + PAGE_SIZE * i
  let m ← linkPage s.1 x page
  let vmap ← bitmapSet s.2 (IDX page) true
  let (table, m) ← getPte m x page false
  let entry := mmapEntry prot flags (m.table table (TIDX page))
  return (m.setEntry table (TIDX page) entry, vmap)

/-- The address `sys_mmap` maps at, with the bitmap after the search for it. -/
def mmapAddr (task : Task) (addr count : Nat) : Res (Nat × Bitmap) :=
  if addr = 0 then scanPage task.vmap count else .ok (addr, task.vmap)

/-- `sys_mmap`, with its result.  What its `read` of the file stores are stores
    the kernel makes after it. -/
def sysMmap (m : Memory) (task : Task) (addr length prot flags : Nat) :
    Res (Nat × Memory × Task) := do
  check (addr % PAGE_SIZE = 0)
  let count := pageCount length
  let (vaddr, vmap) ← mmapAddr task addr count
  check (USER_MMAP_ADDR ≤ vaddr ∧ vaddr < USER_STACK_BOTTOM)
  let (m, vmap) ← forLoop (mmapPage task.pde vaddr prot flags) 0 count (m, vmap)
  return (vaddr, m, { task with vmap := vmap })

/-- The body of the loop of `sys_munmap`. -/
def munmapPage (x : Space) (vaddr i : Nat) (s : Memory × Bitmap) : Res (Memory × Bitmap) := do
  let page := vaddr + PAGE_SIZE * i
  let m ← unlinkPage s.1 x page
  let mapped ← bitmapTest s.2 (IDX page)
  check (mapped = true)
  let vmap ← bitmapSet s.2 (IDX page) false
  return (m, vmap)

/-- `sys_munmap`. -/
def sysMunmap (m : Memory) (task : Task) (vaddr length : Nat) : Res (Memory × Task) := do
  check (USER_MMAP_ADDR ≤ vaddr ∧ vaddr < USER_STACK_BOTTOM)
  check (vaddr % PAGE_SIZE = 0)
  let (m, vmap) ← forLoop (munmapPage task.pde vaddr) 0 (pageCount length) (m, task.vmap)
  return (m, { task with vmap := vmap })

/-- How a page fault ends. -/
inductive Handled where
  /-- the task exits -/
  | exit
  /-- the instruction is executed again -/
  | back (m : Memory)

/-- `page_fault` for address `vaddr`, with the bits of the error code it reads. -/
def pageFault (m : Memory) (task : Task) (vaddr : Nat) (present write : Bool) : Res Handled := do
  if vaddr < USER_EXEC_ADDR ∨ USER_STACK_TOP ≤ vaddr then
    check (task.uid ≠ 0)
    return .exit
  else if present then
    check (write = true)
    let (table, m) ← getPte m task.pde vaddr false
    let entry := m.table table (TIDX vaddr)
    check (entry.present = true)
    check (entry.shared = false)
    check (entry.readonly = false)
    checkCount (0 < m.memory_map entry.index)
    if m.memory_map entry.index = 1 then
      return .back (m.setEntry table (TIDX vaddr) { entry with write := true })
    else
      let (paddr, m) ← copyPage m entry.index
      let m := m.setMap entry.index (m.memory_map entry.index - 1)
      return .back (m.setEntry table (TIDX vaddr) (entryInit paddr))
  else if vaddr < task.brk ∨ USER_STACK_BOTTOM ≤ vaddr then
    let m ← linkPage m task.pde (PAGE (IDX vaddr))
    return .back m
  else .error .panic

/-- The body of the first loop of `load_segment`. -/
def linkAddr (x : Space) (vaddr i : Nat) (m : Memory) : Res Memory := do
  let addr := vaddr + i * PAGE_SIZE
  check (USER_EXEC_ADDR ≤ addr ∧ addr < USER_MMAP_ADDR)
  linkPage m x addr

/-- The body of the second loop of `load_segment`. -/
def sealAddr (x : Space) (vaddr i : Nat) (m : Memory) : Res Memory := do
  let addr := vaddr + i * PAGE_SIZE
  let (table, m) ← getPte m x addr false
  let entry := m.table table (TIDX addr)
  return m.setEntry table (TIDX addr) { entry with write := false, readonly := true }

/-- `load_segment` for `count` pages from `vaddr` on.  What it reads into them
    are stores the kernel makes after it. -/
def loadSegment (m : Memory) (task : Task) (vaddr count : Nat) (writable : Bool) :
    Res (Memory × Task) := do
  check (vaddr % PAGE_SIZE = 0)
  let m ← forLoop (linkAddr task.pde vaddr) 0 count m
  let m ← forLoop (sealAddr task.pde vaddr) 0 (if writable then 0 else count) m
  return (m, { task with end_ := max task.end_ (vaddr + count * PAGE_SIZE) })

/-! ## Loads and stores -/

/-- The directory entry and the table entry of an address, where both are
    present. -/
def Paging.walk (P : Paging) (x : Space) (vaddr : Nat) : Option (Entry × Entry) :=
  let dentry := P.slot x (DIDX vaddr)
  let entry := P.table dentry.index (TIDX vaddr)
  if dentry.present = true ∧ entry.present = true then some (dentry, entry) else none

/-- The byte a load finds at an address. -/
def Memory.read (m : Memory) (x : Space) (vaddr : Nat) : Option Byte :=
  if vaddr < USER_EXEC_ADDR then
    if IDX vaddr = 0 then none else some (m.data (IDX vaddr) (vaddr % PAGE_SIZE))
  else (m.walk x vaddr).map fun e => m.data e.2.index (vaddr % PAGE_SIZE)

/-- Who executes a store. -/
inductive Ring where
  | kernel
  | user
  deriving DecidableEq

/-- Whether the entries of a mapping let a store through.  `enable_page` leaves
    the `WP` bit of `cr0` clear, so the kernel's stores always pass. -/
def Ring.mayStore (ring : Ring) (dentry entry : Entry) : Prop :=
  ring = .kernel ∨ (dentry.write = true ∧ dentry.user = true ∧ entry.write = true ∧
    entry.user = true)

instance (ring : Ring) (dentry entry : Entry) : Decidable (ring.mayStore dentry entry) :=
  inferInstanceAs (Decidable (_ ∨ _))

/-- One attempt at a store below the window on the page tables.  The first 16 MB
    are mapped for the user as well (`USER_MEMORY`), all but page 0. -/
def store (m : Memory) (task : Task) (ring : Ring) (vaddr : Nat) (b : Byte) : Res Handled :=
  if vaddr < USER_EXEC_ADDR then
    if IDX vaddr = 0 then pageFault m task vaddr false true
    else .ok (.back (m.setByte (IDX vaddr) (vaddr % PAGE_SIZE) b))
  else match m.walk task.pde vaddr with
    | some (dentry, entry) =>
        if ring.mayStore dentry entry then
          .ok (.back (m.setByte entry.index (vaddr % PAGE_SIZE) b))
        else pageFault m task vaddr true true
    | none => pageFault m task vaddr false true

/-- A store through the window on the page tables that leaves entry `e`: into
    the directory itself, or into the table a slot holds. -/
def storeWindow (m : Memory) (x : Space) (vaddr : Nat) (e : Entry) : Memory :=
  let tidx := vaddr % PAGE_SIZE / 4
  if TIDX vaddr = SELF_SLOT then m.setSlot x tidx e
  else m.setEntry (m.slot x (TIDX vaddr)).index tidx e

/-! ## The system -/

structure State where
  mem : Memory
  task : TaskId → Option Task

inductive Event where
  /-- `task_create` -/
  | create (i : TaskId) (uid : Nat)
  /-- `task_to_user_mode`, up to its `sys_execve` -/
  | toUserMode (i : TaskId)
  /-- `task_fork`, which finds slot `j` of the task table free -/
  | fork (i j : TaskId)
  /-- `task_exit` -/
  | exit (i : TaskId)
  | link (i : TaskId) (vaddr : Nat)
  | unlink (i : TaskId) (vaddr : Nat)
  | fault (i : TaskId) (vaddr : Nat) (present write : Bool)
  | brk (i : TaskId) (addr : Nat)
  | mmap (i : TaskId) (addr length prot flags : Nat)
  | munmap (i : TaskId) (addr length : Nat)
  /-- `sys_execve` up to `load_elf` -/
  | execve (i : TaskId)
  | segment (i : TaskId) (vaddr count : Nat) (writable : Bool)
  | store (i : TaskId) (ring : Ring) (vaddr : Nat) (b : Byte)
  | storeWindow (i : TaskId) (vaddr : Nat) (e : Entry)

def State.setTask (s : State) (i : TaskId) (t : Option Task) : State :=
  { s with task := Function.update s.task i t }

/-- The task that makes the call. -/
def running (s : State) (i : TaskId) : Res Task :=
  match s.task i with
  | some t => .ok t
  | none => .error .outOfBounds

/-- `task_exit`. -/
def taskExit (s : State) (i : TaskId) (t : Task) : Res State := do
  let m ← freePde s.mem t.uid t.pde
  return { s with mem := m }.setTask i none

/-- Where a fault leaves the system. -/
def handled (s : State) (i : TaskId) (t : Task) : Handled → Res State
  | .exit => taskExit s i t
  | .back m => .ok { s with mem := m }

/-- The task `task_create` makes. -/
def newTask (uid : Nat) : Task :=
  { uid := uid, brk := USER_EXEC_ADDR, end_ := USER_EXEC_ADDR, vmap := kernelMap, pde := none }

def exec (s : State) : Event → Res State
  | .create i uid => .ok (s.setTask i (some (newTask uid)))
  | .toUserMode i => do
      let t ← running s i
      let (pde, m) ← copyPde s.mem t.pde
      return { s with mem := m.setDir (some i) (some pde) }.setTask i
        (some { t with vmap := userMap, pde := some i })
  | .fork i j => do
      let t ← running s i
      let vmap := { t.vmap with size := PAGE_SIZE }
      let (pde, m) ← copyPde s.mem t.pde
      return { s with mem := m.setDir (some j) (some pde) }.setTask j
        (some { t with vmap := vmap, pde := some j })
  | .exit i => do
      let t ← running s i
      taskExit s i t
  | .link i vaddr => do
      let t ← running s i
      let m ← linkPage s.mem t.pde vaddr
      return { s with mem := m }
  | .unlink i vaddr => do
      let t ← running s i
      let m ← unlinkPage s.mem t.pde vaddr
      return { s with mem := m }
  | .fault i vaddr present write => do
      let t ← running s i
      let r ← pageFault s.mem t vaddr present write
      handled s i t r
  | .brk i addr => do
      let t ← running s i
      let (_, m, t) ← sysBrk s.mem t addr
      return { s with mem := m }.setTask i (some t)
  | .mmap i addr length prot flags => do
      let t ← running s i
      let (_, m, t) ← sysMmap s.mem t addr length prot flags
      return { s with mem := m }.setTask i (some t)
  | .munmap i addr length => do
      let t ← running s i
      let (m, t) ← sysMunmap s.mem t addr length
      return { s with mem := m }.setTask i (some t)
  | .execve i => do
      let t ← running s i
      let (_, m, t) ← sysBrk s.mem { t with end_ := USER_EXEC_ADDR } USER_EXEC_ADDR
      let m ← linkPage m t.pde USER_EXEC_ADDR
      return { s with mem := m }.setTask i (some t)
  | .segment i vaddr count writable => do
      let t ← running s i
      let (m, t) ← loadSegment s.mem t vaddr count writable
      return { s with mem := m }.setTask i (some t)
  | .store i ring vaddr b => do
      let t ← running s i
      let r ← store s.mem t ring vaddr b
      handled s i t r
  | .storeWindow i vaddr e => do
      let t ← running s i
      return { s with mem := storeWindow s.mem t.pde vaddr e }

/-- When a step can happen: new tasks get a free slot of the task table, only a
    kernel thread calls `task_to_user_mode`, and the pages that are linked and
    unlinked lie between the kernel's memory and the window. -/
def Enabled (s : State) : Event → Prop
  | .create i _ => s.task i = none
  | .toUserMode i => ∀ t, s.task i = some t → t.pde = none
  | .fork _ j => s.task j = none
  | .link _ vaddr | .unlink _ vaddr => USER_EXEC_ADDR ≤ vaddr ∧ vaddr < PDE_MASK
  | .store _ _ vaddr _ => vaddr < PDE_MASK
  | .storeWindow _ vaddr _ => PDE_MASK ≤ vaddr ∧ vaddr < 2 ^ 32
  | _ => True

instance (s : State) : (e : Event) → Decidable (Enabled s e)
  | .create i _ => decidable_of_iff ((s.task i).isNone = true) Option.isNone_iff_eq_none
  | .toUserMode i => match h : s.task i with
    | none => .isTrue fun _ ht => nomatch h.symm.trans ht
    | some t => decidable_of_iff (t.pde = none)
        ⟨fun hp _ ht => Option.some.inj (h.symm.trans ht) ▸ hp, fun hp => hp _ h⟩
  | .fork _ j => decidable_of_iff ((s.task j).isNone = true) Option.isNone_iff_eq_none
  | .link _ vaddr => inferInstanceAs (Decidable (USER_EXEC_ADDR ≤ vaddr ∧ vaddr < PDE_MASK))
  | .unlink _ vaddr => inferInstanceAs (Decidable (USER_EXEC_ADDR ≤ vaddr ∧ vaddr < PDE_MASK))
  | .store _ _ vaddr _ => inferInstanceAs (Decidable (vaddr < PDE_MASK))
  | .storeWindow _ vaddr _ => inferInstanceAs (Decidable (PDE_MASK ≤ vaddr ∧ vaddr < 2 ^ 32))
  | .exit _ | .fault .. | .brk .. | .mmap .. | .munmap .. | .execve _ | .segment .. =>
      .isTrue trivial

/-- The memory after `mapping_init`, for the size of the memory from 1 MB on. -/
def mappingInit (memory_size : Nat) (data : Nat → Nat → Byte) : Memory :=
  let total_pages := IDX memory_size + IDX MEMORY_BASE
  let memory_map_pages := (total_pages + PAGE_SIZE - 1) / PAGE_SIZE
  let start_page := IDX MEMORY_BASE + memory_map_pages
  { table := fun _ _ => .clear
    dirs := fun x => if x = none then some (fun _ => .clear) else none
    memory_map := fun i => if i < start_page ∨ i < IDX KERNEL_MEMORY_SIZE then 1 else 0
    free_pages := UInt32.ofNat (IDX memory_size - memory_map_pages)
    start_page := start_page
    total_pages := total_pages
    data := data
    handed := [] }

/-- The state before the first task: `memory_init` admits sizes of whole pages
    from 16 MB on, and the memory ends below 4 GB. -/
def Boot (s : State) : Prop :=
  ∃ memory_size data, memory_size % PAGE_SIZE = 0 ∧ KERNEL_MEMORY_SIZE ≤ memory_size ∧
    memory_size + MEMORY_BASE ≤ 2 ^ 32 ∧
    s = { mem := mappingInit memory_size data, task := fun _ => none }

def system : System State Event := execSystem Boot Enabled exec

end NeonixMemory
