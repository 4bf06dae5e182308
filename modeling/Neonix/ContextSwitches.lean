import Neonix.Assembly
import Neonix.Runs

/-! # Switching tasks: `schedule.asm` and the stacks of `task.c`

    A task has a page: its record from the beginning, its stack from the end.
    The first word of the record, `stack`, points at the frame `task_switch` left
    when the task was last switched away from, or at one that `task_create` or
    `task_build_stack` made up. -/

namespace NeonixContextSwitches

open NeonixAssembly NeonixWordMemory NeonixRuns

def PAGE_SIZE : Nat := 4096

/-- `task_switch`. -/
def taskSwitch : List Instr :=
  [.push .ebp, .mov .ebp .esp, .push .ebx, .push .esi, .push .edi,
    .mov .eax .esp, .and .eax 0xfffff000, .store .eax 0 .esp,
    .load .eax .ebp 8, .load .esp .eax 0,
    .pop .edi, .pop .esi, .pop .ebx, .pop .ebp, .ret]

/-- The stores to a `task_frame_t`. -/
def storeFrame (m : Memory) (frame edi esi ebx ebp eip : Word) : Memory :=
  store (store (store (store (store m (frame + 8) ebx) (frame + 4) esi) frame edi)
    (frame + 12) ebp) (frame + 16) eip

/-- What `task_create` and `get_free_task` write into the page of a new task, as far as the
    stack goes. -/
def taskCreate (m : Memory) (task target : Word) : Memory :=
  let stack := task + BitVec.ofNat 32 PAGE_SIZE - 20
  let m := memset m task 0 PAGE_SIZE
  let m := storeFrame m stack 0x33333333 0x22222222 0x11111111 0x44444444 target
  store m task stack

/-- `task_build_stack`. -/
def taskBuildStack (m : Memory) (task interrupt_exit : Word) : Memory :=
  let iframe := task + BitVec.ofNat 32 PAGE_SIZE - 80
  let m := store m (iframe + 32) 0
  let frame := iframe - 20
  let m := storeFrame m frame 0xaa55aa55 0xaa55aa55 0xaa55aa55 0xaa55aa55 interrupt_exit
  store m task frame

/-- `task_fork`: the page of the child. -/
def taskFork (m : Memory) (task child interrupt_exit : Word) : Memory :=
  let m := memset m child 0 PAGE_SIZE
  let m := memcpy m child task PAGE_SIZE
  taskBuildStack m child interrupt_exit

/-- The processor, the pages of the tasks, and the one whose code it runs. -/
structure State where
  cpu : Cpu
  tasks : List Word
  current : Word

inductive Event where
  /-- The code of the running task, from one call of `task_switch` to the next. -/
  | run (cpu : Cpu)
  | switch (next : Word)
  | create (task target : Word)
  | fork (child interrupt_exit : Word)
  | free (task : Word)

/-- The bytes of a page from an address on. -/
def above (p a : Word) : Nat := PAGE_SIZE - (a - p).toNat

def Aligned (p : Word) : Prop := p.toNat % PAGE_SIZE = 0

/-- The code of a task leaves what another one has saved. -/
def Kept (m m' : Memory) (p : Word) : Prop :=
  Same m m' p 4 ∧ Same m m' (load m p) (above p (load m p))

/-- There is room for a frame and for what lies above it. -/
def Room (p frame : Word) (n : Nat) : Prop :=
  4 ≤ (frame - p).toNat ∧ (frame - p).toNat + 20 + n ≤ PAGE_SIZE

def Enabled (s : State) : Event → Prop
  | .run cpu => ∀ p ∈ s.tasks, p ≠ s.current → Kept s.cpu.memory cpu.memory p
  -- `schedule` calls it with `next` behind the return address, where another task is next
  | .switch next => next ∈ s.tasks ∧ next ≠ s.current ∧
      load s.cpu.memory (s.cpu.esp + 4) = next ∧ Room s.current (s.cpu.esp - 16) 4
  | .create task _ => Aligned task ∧ task ∉ s.tasks
  | .fork child _ => Aligned child ∧ child ∉ s.tasks
  | .free task => task ≠ s.current

def next (s : State) : Event → State
  | .run cpu => { s with cpu := cpu }
  | .switch next => { s with cpu := exec taskSwitch s.cpu, current := next }
  | .create task target =>
      { s with
        cpu := { s.cpu with memory := taskCreate s.cpu.memory task target }
        tasks := task :: s.tasks }
  | .fork child interrupt_exit =>
      { s with
        cpu := { s.cpu with memory := taskFork s.cpu.memory s.current child interrupt_exit }
        tasks := child :: s.tasks }
  | .free task => { s with tasks := s.tasks.filter (· ≠ task) }

/-- A task that waits, and the registers it goes on with. -/
structure Parked (m : Memory) (p : Word) (c : Cpu) : Prop where
  stack : load m p = c.esp - 20
  frame : Holds m (c.esp - 20) [c.edi, c.esi, c.ebx, c.ebp, c.eip]
  room : Room p (c.esp - 20) 0
  rest : Same c.memory m c.esp (above p (c.esp - 20) - 20)

/-- The pages are pages, and the others have room. -/
structure Good (s : State) : Prop where
  aligned : ∀ p ∈ s.tasks, Aligned p
  current : s.current ∈ s.tasks
  parked : ∀ p ∈ s.tasks, p ≠ s.current → ∃ c, Parked s.cpu.memory p c

variable {s t u : State} {m m' : Memory} {p q a : Word} {c : Cpu} {n : Nat}

theorem aligned_apart (hp : Aligned p) (hq : Aligned q) (hne : p ≠ q) {x : Word}
    (hx : (x - p).toNat < PAGE_SIZE) : PAGE_SIZE ≤ (x - q).toNat := by
  rw [Aligned, PAGE_SIZE] at hp hq
  rw [PAGE_SIZE] at hx ⊢
  bv_omega

theorem mask_eq (a : Word) : a &&& 0xfffff000#32 = a >>> 12 <<< 12 := by
  refine BitVec.eq_of_getLsbD_eq fun i hi => ?_
  have hbit : ∀ i < 32, (0xfffff000#32).getLsbD i = decide (12 ≤ i) := by decide
  rw [BitVec.getLsbD_and, hbit i hi, BitVec.getLsbD_shiftLeft, BitVec.getLsbD_ushiftRight]
  by_cases h : 12 ≤ i
  · simp [h, hi]
  · simp [h]

/-- `running_task`. -/
theorem runningTask_eq (hp : Aligned p) (ha : (a - p).toNat < PAGE_SIZE) :
    a &&& 0xfffff000 = p := by
  rw [Aligned, PAGE_SIZE] at hp
  rw [PAGE_SIZE] at ha
  show a &&& 0xfffff000#32 = p
  rw [mask_eq]
  refine BitVec.eq_of_toNat_eq ?_
  rw [BitVec.toNat_shiftLeft, BitVec.toNat_ushiftRight, Nat.shiftLeft_eq, Nat.shiftRight_eq_div_pow]
  bv_omega

/-- What a waiting task has saved stays as long as nobody touches it. -/
theorem Parked.kept (h : Parked m p c) (hk : Kept m m' p) : Parked m' p c := by
  obtain ⟨hfirst, habove⟩ := hk
  rw [h.stack] at habove
  have hroom := h.room
  rw [Room, PAGE_SIZE] at hroom
  have hlen : above p (c.esp - 20) = 4096 - (c.esp - 20 - p).toNat := rfl
  refine ⟨(hfirst.load (by rw [sub_self]; decide)).trans h.stack, ?_, h.room, ?_⟩
  · exact h.frame.same (habove.part (k := 20) (by rw [sub_self, hlen]; show 0 + 20 ≤ _; omega))
      (Nat.le_refl _) (by decide)
  · refine h.rest.trans (habove.part ?_)
    rw [sub_sub_cancel, hlen]
    show 20 + _ ≤ _
    omega

/-! ## `task_switch` -/

/-- The memory when a task has saved itself. -/
def saved (c : Cpu) : Memory :=
  let c := c.pushAll [c.ebp, c.ebx, c.esi, c.edi]
  store c.memory (c.esp &&& 0xfffff000) c.esp

/-- The registers as the call returns. -/
def returned (c : Cpu) : Cpu := { c with esp := c.esp + 4, eip := load c.memory c.esp }

theorem taskSwitch_eq (c : Cpu) :
    exec taskSwitch c =
      let next := load (saved c) (c.esp + 4)
      let frame := load (saved c) next
      { c with
        eax := next
        ebx := load (saved c) (frame + 4 + 4)
        esp := frame + 20
        ebp := load (saved c) (frame + 4 + 4 + 4)
        esi := load (saved c) (frame + 4)
        edi := load (saved c) frame
        eip := load (saved c) (frame + 4 + 4 + 4 + 4)
        memory := saved c } := by
  have hsaved : saved c = store (((((c.push c.ebp).push c.ebx).push c.esi).push c.edi).memory)
      (((c.esp - 4 - 4 - 4 - 4) &&& 0xfffff000) + 0) (c.esp - 4 - 4 - 4 - 4) := by
    rw [add_zero]
    rfl
  have hnext : c.esp + 4 = c.esp - 4 + 8 := by bv_omega
  have hesp : ∀ frame : Word, frame + 20 = frame + 4 + 4 + 4 + 4 + 4 := by
    intro frame
    bv_omega
  dsimp only
  rw [hsaved, hnext, hesp]
  simp only [exec, taskSwitch, List.foldl, Instr.exec, Cpu.push, Cpu.pop, Cpu.get, Cpu.set,
    Cpu.drop, Cpu.top, add_zero]

/-- A task saves itself on its own stack and in its record. -/
theorem saved_byte (hp : Aligned p) (hroom : Room p (c.esp - 16) n) {x : Word}
    (hframe : 16 ≤ (x - (c.esp - 16)).toNat) (hstack : 4 ≤ (x - p).toNat) :
    saved c x = c.memory x := by
  rw [Room, PAGE_SIZE] at hroom
  have hcurrent : (c.esp - 16) &&& 0xfffff000 = p :=
    runningTask_eq hp (by rw [PAGE_SIZE]; omega)
  have hesp : (c.pushAll [c.ebp, c.ebx, c.esi, c.edi]).esp = c.esp - 16 := pushAll_esp ..
  rw [saved, hesp, hcurrent, store, if_neg (Nat.not_lt.mpr hstack)]
  exact pushAll_byte hframe

/-- The other pages stay. -/
theorem saved_other (hp : Aligned p) (hroom : Room p (c.esp - 16) n) (hq : Aligned q)
    (hne : q ≠ p) : Same c.memory (saved c) q PAGE_SIZE := by
  intro x hx
  have hapart := aligned_apart hq hp hne hx
  refine saved_byte hp hroom ?_ ?_
  · rw [Room, PAGE_SIZE] at hroom
    rw [PAGE_SIZE] at hapart
    bv_omega
  · rw [PAGE_SIZE] at hapart
    omega

/-- A task that has saved itself waits to return. -/
theorem saved_parked (hp : Aligned p) (hroom : Room p (c.esp - 16) 4) :
    Parked (saved c) p (returned c) := by
  have hroom' := hroom
  rw [Room, PAGE_SIZE] at hroom'
  have hcurrent : (c.esp - 16) &&& 0xfffff000 = p :=
    runningTask_eq hp (by rw [PAGE_SIZE]; omega)
  have hesp : (c.pushAll [c.ebp, c.ebx, c.esi, c.edi]).esp = c.esp - 16 := pushAll_esp ..
  have hsaved : saved c = store (c.pushAll [c.ebp, c.ebx, c.esi, c.edi]).memory p (c.esp - 16) := by
    rw [saved, hesp, hcurrent]
  have hframe : (returned c).esp - 20 = c.esp - 16 := by
    show c.esp + 4 - 20 = c.esp - 16
    bv_omega
  constructor
  · rw [hframe, hsaved]
    exact load_store
  · have hholds : Holds (c.pushAll [c.ebp, c.ebx, c.esi, c.edi]).memory (c.esp - 16)
        [c.edi, c.esi, c.ebx, c.ebp, load c.memory c.esp] := by
      rw [← hesp]
      have hreturn : Holds c.memory c.esp [load c.memory c.esp] := ⟨rfl, trivial⟩
      exact pushAll_holds [c.ebp, c.ebx, c.esi, c.edi] hreturn
        (by show 4 * (4 + 1) ≤ 2 ^ 32; decide)
    rw [hframe, hsaved]
    refine hholds.same (.store (n := 20) ?_ ?_) (Nat.le_refl _) (by decide)
    · bv_omega
    · exact hroom'.1
  · rw [hframe]
    exact ⟨hroom'.1, by rw [PAGE_SIZE]; omega⟩
  · intro x hx
    replace hx : (x - (c.esp + 4)).toNat < above p ((returned c).esp - 20) - 20 := hx
    rw [hframe, above, PAGE_SIZE] at hx
    refine saved_byte hp hroom ?_ ?_
    · bv_omega
    · bv_omega

/-- The registers a call keeps, and the stack. -/
structure Resumed (c d : Cpu) (p : Word) : Prop where
  eip : d.eip = c.eip
  esp : d.esp = c.esp
  ebp : d.ebp = c.ebp
  ebx : d.ebx = c.ebx
  esi : d.esi = c.esi
  edi : d.edi = c.edi
  stack : Same c.memory d.memory c.esp (above p (c.esp - 20) - 20)

/-- `task_switch` parks one task and resumes the other. -/
theorem taskSwitch_spec {d : Cpu} (hp : Aligned p) (hroom : Room p (c.esp - 16) 4)
    (hq : Aligned q) (hne : q ≠ p) (hnext : load c.memory (c.esp + 4) = q)
    (h : Parked c.memory q d) : Resumed d (exec taskSwitch c) q := by
  have hroom' := hroom
  rw [Room, PAGE_SIZE] at hroom'
  have hother := saved_other hp hroom hq hne
  have harg : load (saved c) (c.esp + 4) = q := by
    refine Eq.trans ?_ hnext
    have hstack : Same c.memory (saved c) (c.esp + 4) 4 := by
      intro x hx
      refine saved_byte hp hroom ?_ ?_
      · bv_omega
      · bv_omega
    exact hstack.load (by rw [sub_self]; decide)
  obtain ⟨hstack, hframe, hd, hrest⟩ : Parked (saved c) q d := by
    refine h.kept ⟨hother.part (by rw [sub_self]; decide), hother.part ?_⟩
    have hdroom := h.room
    rw [Room, PAGE_SIZE] at hdroom
    rw [h.stack, above, PAGE_SIZE]
    omega
  obtain ⟨hedi, hesi, hebx, hebp, heip, -⟩ := hframe
  rw [taskSwitch_eq]
  dsimp only
  rw [harg, hstack]
  exact ⟨heip, sub_add_cancel .., hebp, hebx, hesi, hedi, hrest⟩

/-! ## New tasks -/

/-- Only a page changes. -/
def Within (p : Word) (m m' : Memory) : Prop := ∀ x, PAGE_SIZE ≤ (x - p).toNat → m' x = m x

theorem Within.trans {m'' : Memory} (h : Within p m m') (h' : Within p m' m'') : Within p m m'' :=
  fun x hx => (h' x hx).trans (h x hx)

theorem within_store {v : Word} (ha : (a - p).toNat + 4 ≤ PAGE_SIZE) : Within p m (store m a v) := by
  intro x hx
  rw [PAGE_SIZE] at ha hx
  rw [store, if_neg]
  bv_omega

theorem within_memset {v : NeonixByteBits.Byte} : Within p m (memset m p v PAGE_SIZE) :=
  fun _ hx => if_neg (Nat.not_lt.mpr hx)

theorem within_memcpy : Within p m (memcpy m p q PAGE_SIZE) :=
  fun _ hx => if_neg (Nat.not_lt.mpr hx)

theorem storeFrame_byte {edi esi ebx ebp eip x : Word} (hx : 20 ≤ (x - a).toNat) :
    storeFrame m a edi esi ebx ebp eip x = m x := by
  have hstore : ∀ (m : Memory) (o v : Word), o.toNat ≤ 16 → store m (a + o) v x = m x := by
    intro m o v ho
    rw [store, if_neg]
    bv_omega
  have hfirst : ∀ m v, store m a v x = m x := by
    intro m v
    have hzero := hstore m 0 v (by decide)
    rw [add_zero] at hzero
    exact hzero
  rw [storeFrame, hstore _ 16 _ (by decide), hstore _ 12 _ (by decide), hfirst,
    hstore _ 4 _ (by decide), hstore _ 8 _ (by decide)]

theorem within_storeFrame {edi esi ebx ebp eip : Word} (ha : (a - p).toNat + 20 ≤ PAGE_SIZE) :
    Within p m (storeFrame m a edi esi ebx ebp eip) := by
  intro x hx
  rw [PAGE_SIZE] at ha hx
  refine storeFrame_byte ?_
  bv_omega

theorem Within.other (h : Within p m m') (hp : Aligned p) (hq : Aligned q) (hne : q ≠ p) :
    Same m m' q PAGE_SIZE := fun x hx => h x (aligned_apart hq hp hne hx)

theorem storeFrame_holds (m : Memory) (a edi esi ebx ebp eip : Word) :
    Holds (storeFrame m a edi esi ebx ebp eip) a [edi, esi, ebx, ebp, eip] := by
  have hat : a + 4 + 4 = a + 8 ∧ a + 8 + 4 = a + 12 ∧ a + 12 + 4 = a + 16 := by
    refine ⟨?_, ?_, ?_⟩ <;> bv_omega
  have hfirst : ∀ m, load m a = load m (a + 0) := fun m => by rw [add_zero]
  have hstore : ∀ m, store m a edi = store m (a + 0) edi := fun m => by rw [add_zero]
  rw [storeFrame, hstore]
  refine ⟨?_, ?_, ?_, ?_, ?_, trivial⟩
  · rw [hfirst, load_store_apart (by decide), load_store_apart (by decide), load_store]
  · rw [load_store_apart (by decide), load_store_apart (by decide), load_store_apart (by decide),
      load_store]
  · rw [hat.1, load_store_apart (by decide), load_store_apart (by decide),
      load_store_apart (by decide), load_store_apart (by decide), load_store]
  · rw [hat.1, hat.2.1, load_store_apart (by decide), load_store]
  · rw [hat.1, hat.2.1, hat.2.2, load_store]

/-- A frame that is made up lets the task begin at its `eip`. -/
theorem storeFrame_parked {edi esi ebx ebp eip : Word} (hroom : Room p a 0) :
    Parked (store (storeFrame m a edi esi ebx ebp eip) p a) p
      { c with
        edi := edi
        esi := esi
        ebx := ebx
        ebp := ebp
        eip := eip
        esp := a + 20
        memory := store (storeFrame m a edi esi ebx ebp eip) p a } := by
  have hroom' := hroom
  rw [Room, PAGE_SIZE] at hroom'
  have hesp : a + 20 - 20 = a := add_sub_cancel_right ..
  constructor
  · show _ = a + 20 - 20
    rw [hesp]
    exact load_store
  · show Holds _ (a + 20 - 20) _
    rw [hesp]
    refine (storeFrame_holds m a edi esi ebx ebp eip).same (.store (n := 20) ?_ ?_)
      (Nat.le_refl _) (by decide)
    · bv_omega
    · exact hroom'.1
  · show Room p (a + 20 - 20) 0
    rw [hesp]
    exact hroom
  · exact Same.refl

theorem taskCreate_within {target : Word} : Within p m (taskCreate m p target) := by
  have hstack : (p + BitVec.ofNat 32 PAGE_SIZE - 20 - p).toNat = 4076 := by
    rw [PAGE_SIZE]
    bv_omega
  rw [taskCreate]
  refine (within_memset.trans (within_storeFrame ?_)).trans (within_store ?_)
  · rw [hstack, PAGE_SIZE]
  · rw [sub_self]
    decide

theorem taskBuildStack_within {interrupt_exit : Word} :
    Within p m (taskBuildStack m p interrupt_exit) := by
  have heax : (p + BitVec.ofNat 32 PAGE_SIZE - 80 + 32 - p).toNat = 4048 := by
    rw [add_sub_assoc p, add_assoc, add_sub_cancel_left]
    rfl
  have hframe : (p + BitVec.ofNat 32 PAGE_SIZE - 80 - 20 - p).toNat = 3996 := by
    rw [add_sub_assoc, add_sub_assoc, add_sub_cancel_left]
    rfl
  rw [taskBuildStack]
  refine ((within_store ?_).trans (within_storeFrame ?_)).trans (within_store ?_)
  · rw [heax, PAGE_SIZE]
    omega
  · rw [hframe, PAGE_SIZE]
    omega
  · rw [sub_self]
    decide

theorem taskFork_within {interrupt_exit : Word} : Within p m (taskFork m q p interrupt_exit) :=
  (within_memset.trans within_memcpy).trans taskBuildStack_within

/-- The registers a task begins with. -/
def firstCpu (c : Cpu) (m : Memory) (task target : Word) : Cpu :=
  { c with
    edi := 0x33333333
    esi := 0x22222222
    ebx := 0x11111111
    ebp := 0x44444444
    eip := target
    esp := task + BitVec.ofNat 32 PAGE_SIZE
    memory := m }

/-- The registers a child begins with. -/
def childCpu (c : Cpu) (m : Memory) (child interrupt_exit : Word) : Cpu :=
  { c with
    edi := 0xaa55aa55
    esi := 0xaa55aa55
    ebx := 0xaa55aa55
    ebp := 0xaa55aa55
    eip := interrupt_exit
    esp := child + BitVec.ofNat 32 PAGE_SIZE - 80
    memory := m }

theorem taskCreate_parked {target : Word} : Parked (taskCreate m p target) p
    (firstCpu c (taskCreate m p target) p target) := by
  have hroom : Room p (p + BitVec.ofNat 32 PAGE_SIZE - 20) 0 := by
    rw [Room, PAGE_SIZE]
    bv_omega
  have hparked := @storeFrame_parked (memset m p 0 PAGE_SIZE) p
    (p + BitVec.ofNat 32 PAGE_SIZE - 20) c 0x33333333 0x22222222 0x11111111 0x44444444 target hroom
  rw [sub_add_cancel] at hparked
  exact hparked

theorem taskFork_parked {interrupt_exit : Word} : Parked (taskFork m q p interrupt_exit) p
    (childCpu c (taskFork m q p interrupt_exit) p interrupt_exit) := by
  have hroom : Room p (p + BitVec.ofNat 32 PAGE_SIZE - 80 - 20) 0 := by
    rw [Room, PAGE_SIZE]
    bv_omega
  have hparked := @storeFrame_parked
    (store (memcpy (memset m p 0 PAGE_SIZE) p q PAGE_SIZE)
      (p + BitVec.ofNat 32 PAGE_SIZE - 80 + 32) 0) p
    (p + BitVec.ofNat 32 PAGE_SIZE - 80 - 20) c 0xaa55aa55 0xaa55aa55 0xaa55aa55 0xaa55aa55
    interrupt_exit hroom
  rw [sub_add_cancel] at hparked
  exact hparked

/-! ## Runs -/

/-- The kernel boots on the stack of one page. -/
def system : System State Event where
  init s := s.tasks = [s.current] ∧ Aligned s.current
  step s e t := Enabled s e ∧ t = next s e

/-- The events that do not run a task and do not take its page. -/
def Away (p : Word) (_ : State) (e : Event) : Prop := e ≠ .switch p ∧ e ≠ .free p

theorem Parked.keeps (h : Parked m p c) (hs : Same m m' p PAGE_SIZE) : Kept m m' p := by
  refine ⟨hs.part (by rw [sub_self]; decide), hs.part ?_⟩
  have hroom := h.room
  rw [Room, PAGE_SIZE] at hroom
  rw [h.stack, above, PAGE_SIZE]
  omega

/-- What a waiting task has saved survives a step that does not run it. -/
theorem parked_step {e : Event} (hg : Good s) (he : Enabled s e) (hp : p ∈ s.tasks)
    (hne : p ≠ s.current) (h : Parked s.cpu.memory p c) : Parked (next s e).cpu.memory p c := by
  cases e with
  | run cpu => exact h.kept (he p hp hne)
  | switch q =>
      obtain ⟨-, -, -, hroom⟩ := he
      have hsaved := saved_other (hg.aligned _ hg.current) hroom (hg.aligned p hp) hne
      have hmem : (next s (.switch q)).cpu.memory = saved s.cpu := by
        rw [next, taskSwitch_eq]
      rw [hmem]
      exact h.kept (h.keeps hsaved)
  | create task target =>
      have hnew : p ≠ task := fun heq => he.2 (heq ▸ hp)
      exact h.kept (h.keeps (taskCreate_within.other he.1 (hg.aligned p hp) hnew))
  | fork child interrupt_exit =>
      have hnew : p ≠ child := fun heq => he.2 (heq ▸ hp)
      exact h.kept (h.keeps (taskFork_within.other he.1 (hg.aligned p hp) hnew))
  | free task => exact h

theorem good_step {e : Event} (hg : Good s) (he : Enabled s e) : Good (next s e) := by
  have hothers : ∀ p ∈ s.tasks, p ≠ s.current → ∃ c, Parked (next s e).cpu.memory p c := by
    intro p hp hne
    obtain ⟨c, hc⟩ := hg.parked p hp hne
    exact ⟨c, parked_step hg he hp hne hc⟩
  cases e with
  | run cpu => exact ⟨hg.aligned, hg.current, hothers⟩
  | switch q =>
      obtain ⟨hq, -, -, hroom⟩ := he
      refine ⟨hg.aligned, hq, fun p hp hne => ?_⟩
      by_cases hcur : p = s.current
      · refine ⟨returned s.cpu, ?_⟩
        have hmem : (next s (.switch q)).cpu.memory = saved s.cpu := by
          rw [next, taskSwitch_eq]
        rw [hmem, hcur]
        exact saved_parked (hg.aligned _ hg.current) hroom
      · exact hothers p hp hcur
  | create task target =>
      refine ⟨?_, List.mem_cons_of_mem _ hg.current, fun p hp hne => ?_⟩
      · intro p hp
        rcases List.mem_cons.mp hp with rfl | hp
        · exact he.1
        · exact hg.aligned p hp
      · rcases List.mem_cons.mp hp with rfl | hp
        · exact ⟨_, taskCreate_parked (c := s.cpu)⟩
        · exact hothers p hp hne
  | fork child interrupt_exit =>
      refine ⟨?_, List.mem_cons_of_mem _ hg.current, fun p hp hne => ?_⟩
      · intro p hp
        rcases List.mem_cons.mp hp with rfl | hp
        · exact he.1
        · exact hg.aligned p hp
      · rcases List.mem_cons.mp hp with rfl | hp
        · exact ⟨_, taskFork_parked (c := s.cpu)⟩
        · exact hothers p hp hne
  | free task =>
      have hsub : ∀ p, p ∈ (next s (.free task)).tasks → p ∈ s.tasks :=
        fun p hp => List.mem_of_mem_filter hp
      refine ⟨fun p hp => hg.aligned p (hsub p hp), ?_, fun p hp hne => hothers p (hsub p hp) hne⟩
      have hne : s.current ≠ task := fun heq => he heq.symm
      exact List.mem_filter.mpr ⟨hg.current, decide_eq_true hne⟩

theorem reach_good (h : Reach system free s) : Good s := by
  have hinit : ∀ s, system.init s → Good s := by
    rintro s ⟨hone, haligned⟩
    refine ⟨fun p hp => ?_, ?_, fun p hp hne => ?_⟩
    · rw [hone, List.mem_singleton] at hp
      exact hp ▸ haligned
    · rw [hone]
      exact List.mem_singleton_self _
    · rw [hone, List.mem_singleton] at hp
      exact absurd hp hne
  refine h.invariant hinit ?_
  rintro s e t hs - ⟨he, rfl⟩
  exact good_step hs he

/-- A task stays in the table until its page is freed. -/
theorem tasks_step {e : Event} (hp : p ∈ s.tasks) (hfree : e ≠ .free p) : p ∈ (next s e).tasks := by
  cases e with
  | run cpu => exact hp
  | switch q => exact hp
  | create task target => exact List.mem_cons_of_mem _ hp
  | fork child interrupt_exit => exact List.mem_cons_of_mem _ hp
  | free task => exact List.mem_filter.mpr ⟨hp, decide_eq_true fun heq => hfree (heq ▸ rfl)⟩

/-- A task that waits, with the registers it goes on with. -/
structure Waits (s : State) (p : Word) (c : Cpu) : Prop where
  good : Good s
  task : p ∈ s.tasks
  away : p ≠ s.current
  parked : Parked s.cpu.memory p c

/-- What a task has saved stays through any run without it. -/
theorem waits_run {es : List Event} (h : Waits s p c) (hr : Run system (Away p) s es t) :
    Waits t p c := by
  have hstep : ∀ s e t, Waits s p c → Away p s e → system.step s e t → Waits t p c := by
    rintro s e t ⟨hg, hp, hne, hparked⟩ hguard ⟨he, rfl⟩
    refine ⟨good_step hg he, tasks_step hp hguard.2, ?_, parked_step hg he hp hne hparked⟩
    cases e with
    | switch q => exact fun heq => hguard.1 (heq ▸ rfl)
    | run cpu => exact hne
    | create task target => exact hne
    | fork child interrupt_exit => exact hne
    | free task => exact hne
  exact hr.preserves hstep h

/-- A task that waits goes on where it stopped. -/
theorem waits_switch (h : Waits s p c) (he : Enabled s (.switch p)) :
    Resumed c (next s (.switch p)).cpu p := by
  obtain ⟨-, -, hnext, hroom⟩ := he
  exact taskSwitch_spec (h.good.aligned _ h.good.current) hroom (h.good.aligned p h.task) h.away
    hnext h.parked

theorem switch_waits (hg : Good s) (he : Enabled s (.switch q)) :
    Waits (next s (.switch q)) s.current (returned s.cpu) := by
  obtain ⟨-, hne, -, hroom⟩ := id he
  have hmem : (next s (.switch q)).cpu.memory = saved s.cpu := by
    rw [next, taskSwitch_eq]
  refine ⟨good_step hg he, hg.current, hne.symm, ?_⟩
  rw [hmem]
  exact saved_parked (hg.aligned _ hg.current) hroom

theorem create_waits {target : Word} (hg : Good s) (he : Enabled s (.create p target)) :
    Waits (next s (.create p target)) p
      (firstCpu s.cpu (taskCreate s.cpu.memory p target) p target) :=
  ⟨good_step hg he, List.mem_cons_self .., fun heq => he.2 (heq ▸ hg.current), taskCreate_parked⟩

/-- **A SWITCH IS A CALL THAT RETURNS**: whatever the other tasks did in between, `task_switch`
    returns to its caller with the registers a call keeps and the stack as it was; and a new task
    begins with its function on an empty stack. -/
theorem context_switches (h : Reach system free s) :
    (∀ q es t, Enabled s (.switch q) →
      Run system (Away s.current) (next s (.switch q)) es t → Enabled t (.switch s.current) →
      Resumed (returned s.cpu) (next t (.switch s.current)).cpu s.current) ∧
    ∀ task target es t, Enabled s (.create task target) →
      Run system (Away task) (next s (.create task target)) es t → Enabled t (.switch task) →
      Resumed (firstCpu s.cpu (taskCreate s.cpu.memory task target) task target)
        (next t (.switch task)).cpu task := by
  have hg := reach_good h
  constructor
  · intro q es t hq hr ht
    exact waits_switch (waits_run (switch_waits hg hq) hr) ht
  · intro task target es t htask hr ht
    exact waits_switch (waits_run (create_waits hg htask) hr) ht

/-- The boot code on the page 0x1000, before a call of `task_switch(0x2000)`. -/
def bootState : State where
  cpu :=
    { eax := 0, ecx := 0, edx := 0, ebx := 7, esp := 0x1800, ebp := 0, esi := 0, edi := 0
      gs := 0, fs := 0, es := 0, ds := 0, eip := 0, cs := 8, eflags := 0, ss := 16
      memory := fun x => if x = 0x1805 then 0x20 else 0 }
  tasks := [0x1000]
  current := 0x1000

/-- With a task on the page 0x2000. -/
def twoTasks : State := next bootState (.create 0x2000 0x5000)

def otherRuns : State := next twoTasks (.switch 0x2000)

/-- The other task calls `task_switch(0x1000)`. -/
def callingBack : Cpu :=
  { otherRuns.cpu with
    esp := 0x2f00
    memory := store otherRuns.cpu.memory (0x2f00 + 4) 0x1000 }

def otherCalls : State := next otherRuns (.run callingBack)

theorem twoTasks_switch : Enabled twoTasks (.switch 0x2000) := by
  refine ⟨by decide, by decide, ?_, by decide, by decide⟩
  have hboot : Same bootState.cpu.memory twoTasks.cpu.memory 0x1000 PAGE_SIZE :=
    taskCreate_within.other (p := 0x2000) rfl rfl (by decide)
  exact (hboot.load (b := 0x1804) (by decide)).trans rfl

/-- The boot code goes on. -/
theorem context_switches_back : ∃ es, Run system (Away 0x1000) otherRuns es otherCalls ∧
    (next otherCalls (.switch 0x1000)).cpu.ebx = 7 ∧
    (next otherCalls (.switch 0x1000)).cpu.esp = 0x1804 := by
  have hboot : Reach system free bootState := .start ⟨rfl, rfl⟩
  have hreach : Reach system free twoTasks :=
    hboot.step (e := .create 0x2000 0x5000) trivial ⟨⟨rfl, by decide⟩, rfl⟩
  have hpage : Same otherRuns.cpu.memory callingBack.memory 0x1000 PAGE_SIZE :=
    (within_store (p := 0x2000) (by decide)).other rfl rfl (by decide)
  have hstep : system.step otherRuns (.run callingBack) otherCalls := by
    refine ⟨fun p hp hne => ?_, rfl⟩
    obtain rfl : p = 0x1000 := by
      rcases List.mem_cons.mp hp with rfl | hp
      · exact absurd rfl hne
      · exact List.mem_singleton.mp hp
    obtain ⟨c, hc⟩ := (good_step (reach_good hreach) twoTasks_switch).parked 0x1000 hp hne
    exact hc.keeps hpage
  have haway : Away 0x1000 otherRuns (.run callingBack) := ⟨by rintro ⟨⟩, by rintro ⟨⟩⟩
  have hrun := (@Run.nil _ _ system (Away 0x1000) otherRuns).snoc haway hstep
  have hback : Enabled otherCalls (.switch 0x1000) :=
    ⟨by decide, by decide, load_store, by decide, by decide⟩
  have hresumed := (context_switches hreach).1 0x2000 _ otherCalls twoTasks_switch hrun hback
  exact ⟨_, hrun, hresumed.ebx, hresumed.esp⟩

end NeonixContextSwitches
