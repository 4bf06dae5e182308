import Neonix.PageBalance

/-! # Page faults of user processes

    The hardware calls `page_fault` where an access of a user process finds no
    page or no right.  The handler maps a page below the break and in the stack,
    copies one that is shared by forks, and ends a process that reaches outside
    the user's range.  What it does not expect it asserts away. -/

namespace NeonixPageFaults

open NeonixMachine NeonixOutcome NeonixRuns NeonixMemory NeonixPageRefs NeonixPageSteps
open NeonixPageCalls NeonixMappingCalls NeonixDirectoryCalls NeonixPageCounts NeonixPageBalance

/-- The access a user makes through a mapping. -/
def Allowed (dentry entry : Entry) (write : Bool) : Prop :=
  dentry.user = true ∧ entry.user = true ∧ (write = true → dentry.write = true ∧ entry.write = true)

/-- A page `get_page` can find. -/
def Free (m : Memory) (p : Nat) : Prop :=
  m.start_page ≤ p ∧ p < m.total_pages ∧ m.memory_map p = 0

/-- The process goes on: the access is allowed now, and its page is in no other
    mapping. -/
structure Served (s s' : State) (t : Task) (vaddr : Nat) (write : Bool) : Prop where
  task : s'.task = s.task
  others : ∀ y, y ≠ t.pde → Unseen y s.mem s'.mem
  access : ∃ dentry entry, s'.mem.walk t.pde vaddr = some (dentry, entry) ∧
    Allowed dentry entry write ∧ s'.mem.memory_map entry.index = 1

/-- The process ended, and no other. -/
structure Ended (s s' : State) (i : TaskId) (t : Task) : Prop where
  task : s'.task = Function.update s.task i none
  others : ∀ y, y ≠ t.pde → Unseen y s.mem s'.mem

variable {s s' : State} {i : TaskId} {t : Task} {m m' : Memory} {x : Space} {vaddr : Nat}
  {present write : Bool}

/-! ## Walks -/

end NeonixPageFaults
