import Neonix.FileContents
import Neonix.PageCounts
import Neonix.UserPages

/-! # `load_elf` of `kernel/execve.c`

    The loader reads the headers of a file to `USER_EXEC_ADDR` and goes on from what
    it finds there; every field is loaded from memory each time the code names it.
    `loaded` lists the headers that `load_segment` was called for. -/

namespace NeonixElfLoader

open NeonixMachine NeonixOutcome NeonixByteBits NeonixWords NeonixCalls NeonixMemory NeonixUserPages
open NeonixFileSystem (Kernel Fs Halt ISFILE ISDIR Place)
open NeonixFileData (inodeRead)
open NeonixFileContents (byteAt Has bytesAt inodeRead_reads inodeRead_eof)
open NeonixBlockMaps (Located)
open NeonixVolume (SuperDesc)
open NeonixPageSteps (Sound)
open NeonixPageRefs

/-! ## Headers -/

def EHDR_SIZE : Nat := 52
def PHDR_SIZE : Nat := 32
def ET_EXEC : BitVec 16 := 2
def EM_386 : BitVec 16 := 3
def EV_CURRENT : BitVec 32 := 1
def PT_LOAD : BitVec 32 := 1
def PF_X : BitVec 32 := 1
def PF_W : BitVec 32 := 2
def PF_R : BitVec 32 := 4

/-- `elf_validate`. -/
def ElfValid (ehdr : Bytes) : Prop :=
  (List.range 7).map ehdr = [0x7F, 0x45, 0x4C, 0x46, 1, 1, 1] ∧ u16At ehdr 16 = ET_EXEC ∧
    u16At ehdr 18 = EM_386 ∧ u32At ehdr 20 = EV_CURRENT ∧ (u16At ehdr 42).toNat = PHDR_SIZE

instance (ehdr : Bytes) : Decidable (ElfValid ehdr) := inferInstanceAs (Decidable (_ ∧ _))

/-- `Elf32_Phdr`, without the physical address. -/
structure Phdr where
  p_type : BitVec 32
  p_offset : BitVec 32
  p_vaddr : BitVec 32
  p_filesz : BitVec 32
  p_memsz : BitVec 32
  p_flags : BitVec 32
  p_align : BitVec 32

/-- The header at an offset. -/
def phdrAt (b : Bytes) (o : Nat) : Phdr where
  p_type := u32At b o
  p_offset := u32At b (o + 4)
  p_vaddr := u32At b (o + 8)
  p_filesz := u32At b (o + 16)
  p_memsz := u32At b (o + 20)
  p_flags := u32At b (o + 24)
  p_align := u32At b (o + 28)

/-! ## The loader -/

/-- What `load_elf` works on: the files, and the running task with its memory. -/
structure Loader where
  fs : Kernel
  mem : Memory
  task : Task
  text : Nat
  data : Nat
  loaded : List Nat

abbrev Ex (α : Type) : Type := Call Loader Halt α

def ensure (p : Prop) [Decidable p] : Ex Unit := if p then pure () else stop (.stopped .assertion)

def onFs {α : Type} (x : Fs α) : Ex α := fun n s => do
  let (a, fs) ← x n s.fs
  return (a, { s with fs := fs })

def onMem {α : Type} (f : Memory → Task → Res (α × Memory)) : Ex α := fun _ s =>
  match f s.mem s.task with
  | .ok (a, m) => .ok (a, { s with mem := m })
  | .error e => .error (.stopped e)

/-- A change of the memory that returns nothing. -/
def change (f : Memory → Task → Res Memory) : Ex Unit := onMem fun m task => do
  let m ← f m task
  return ((), m)

/-- `inode_read` to an address of the task. -/
def inodeReadTo (inode vaddr len : Nat) (offset : Int) : Ex Int := do
  let (n, bytes) ← onFs (inodeRead inode len offset)
  change fun m task => storeAll m task vaddr bytes
  return n

def field (phdr offset : Nat) : Ex (BitVec 32) := onMem fun m task => load32 m task (phdr + offset)

def pOffset (phdr : Nat) : Ex (BitVec 32) := field phdr 4
def pVaddr (phdr : Nat) : Ex (BitVec 32) := field phdr 8
def pFilesz (phdr : Nat) : Ex (BitVec 32) := field phdr 16
def pMemsz (phdr : Nat) : Ex (BitVec 32) := field phdr 20
def pFlags (phdr : Nat) : Ex (BitVec 32) := field phdr 24
def pAlign (phdr : Nat) : Ex (BitVec 32) := field phdr 28

/-- `load_segment` for the header at address `phdr`. -/
def loadSegment (inode phdr : Nat) : Ex Unit := do
  ensure ((← pAlign phdr) = 0x1000)
  ensure ((← pVaddr phdr) &&& 0xfff = 0)
  let vaddr := (← pVaddr phdr).toNat
  let count := pageCount (max (← pMemsz phdr).toNat (← pFilesz phdr).toNat)
  change fun m task => forLoop (linkAddr task.pde vaddr) 0 count m
  let _ ← inodeReadTo inode vaddr (← pFilesz phdr).toNat (← pOffset phdr).toInt
  let filesz ← pFilesz phdr
  let memsz ← pMemsz phdr
  onlyIf (filesz.toNat < memsz.toNat) (change fun m task =>
    storeAll m task (vaddr + filesz.toNat) (List.replicate (memsz.toNat - filesz.toNat) 0))
  onlyIf ((← pFlags phdr) &&& PF_W = 0) (change fun m task =>
    forLoop (sealAddr task.pde vaddr) 0 count m)
  let flags ← pFlags phdr
  modify fun s =>
    { s with
      text := if flags = PF_R ||| PF_X then vaddr else s.text
      data := if flags = PF_R ||| PF_W then vaddr else s.data
      task := { s.task with end_ := max s.task.end_ ((vaddr + count * PAGE_SIZE) % 2 ^ 32) }
      loaded := s.loaded ++ [phdr] }

/-- `phdr` of `load_elf`. -/
def TABLE : Nat := USER_EXEC_ADDR + EHDR_SIZE

/-- The bytes a segment takes in memory. -/
def Phdr.size (p : Phdr) : Nat := max p.p_memsz.toNat p.p_filesz.toNat

def Phdr.pages (p : Phdr) : Nat := pageCount p.size

/-- The end of the last page of a segment. -/
def Phdr.end_ (p : Phdr) : Nat := p.p_vaddr.toNat + p.pages * PAGE_SIZE

/-- What `load_segment` asserts. -/
def Phdr.Fits (p : Phdr) : Prop :=
  p.p_align = 0x1000 ∧ p.p_vaddr &&& 0xfff = 0 ∧ ∀ i < p.pages,
    USER_EXEC_ADDR ≤ p.p_vaddr.toNat + i * PAGE_SIZE ∧
      p.p_vaddr.toNat + i * PAGE_SIZE < USER_MMAP_ADDR

/-- The segment has a byte at an address. -/
def Phdr.Covers (p : Phdr) (a : Nat) : Prop := ∃ k < p.size, (p.p_vaddr.toNat + k) % 2 ^ 32 = a

/-- Bytes inside a file. -/
def Inside (fs : Kernel) (d : Place) (inode o n : Nat) : Prop :=
  o + n ≤ fs.size inode ∧ ∀ x, o ≤ x → x < o + n → Has fs d x

def phnum (fs : Kernel) (d : Place) : Nat := (u16At (byteAt fs d) 44).toNat
def phoff (fs : Kernel) (d : Place) : Nat := (u32At (byteAt fs d) 28).toNat

/-- Header `j` of a file. -/
def header (fs : Kernel) (d : Place) (j : Nat) : Phdr :=
  phdrAt (byteAt fs d) (phoff fs d + PHDR_SIZE * j)

/-- Header `j` is one of a loadable segment. -/
def Loads (fs : Kernel) (d : Place) (j : Nat) : Prop :=
  j < phnum fs d ∧ (header fs d j).p_type = PT_LOAD

/-- The bytes of `load_elf`'s own reads: the ELF header and the program headers. -/
def tableSize (fs : Kernel) (d : Place) : Nat := EHDR_SIZE + PHDR_SIZE * phnum fs d

/-- A file that `elf_validate` accepts, whose segments keep apart. -/
structure Executable (fs : Kernel) (sb : SuperDesc) (d : Place) (inode : Nat) : Prop where
  located : Located fs sb d inode
  regular : ISFILE (fs.mode inode)
  ehdr : Inside fs d inode 0 EHDR_SIZE
  valid : ElfValid (byteAt fs d)
  table : Inside fs d inode (phoff fs d) (PHDR_SIZE * phnum fs d)
  fits : ∀ j, Loads fs d j → (header fs d j).Fits
  inside : ∀ j, Loads fs d j →
    Inside fs d inode (header fs d j).p_offset.toNat (header fs d j).p_filesz.toNat
  apart : ∀ j a, Loads fs d j → (header fs d j).Covers a →
    ¬ Range USER_EXEC_ADDR (tableSize fs d) a
  disjoint : ∀ i j a, Loads fs d i → Loads fs d j → i ≠ j →
    (header fs d i).Covers a → ¬ (header fs d j).Covers a

/-! ## What is to be loaded -/

/-- A segment in memory. -/
structure SegmentIn (m : Memory) (x : Space) (fs : Kernel) (d : Place) (p : Phdr) : Prop where
  bytes : ∀ k < p.p_filesz.toNat,
    m.read x (p.p_vaddr.toNat + k) = some (byteAt fs d (p.p_offset.toNat + k))
  zeros : ∀ k, p.p_filesz.toNat ≤ k → k < p.p_memsz.toNat →
    m.read x (p.p_vaddr.toNat + k) = some 0
  readonly : p.p_flags &&& PF_W = 0 → ∀ i < p.pages, Sealed m x (p.p_vaddr.toNat + i * PAGE_SIZE)

section Statements

variable {s t : Loader} {α β : Type} {bad : Halt → Prop} {Q : α → Loader → Prop}
  {R : β → Loader → Prop} {b : Bytes} {ptr n o off : Nat}

/-- The task sees `n` bytes of `b`, from `o` on. -/
def Shown (s : Loader) (ptr n : Nat) (b : Bytes) (o : Nat) : Prop :=
  ∀ k < n, s.mem.read s.task.pde (ptr + k) = some (b (o + k))

theorem Shown.part (h : Shown s ptr n b o) {len : Nat} (hoff : off + len ≤ n) :
    Shown s (ptr + off) len b (o + off) := fun k hk => by
  rw [Nat.add_assoc, Nat.add_assoc]
  exact h (off + k) (by omega)

/-- Bytes that no store reaches are still seen. -/
theorem Shown.after {m : Memory} {W : Nat → Prop} (h : Shown s ptr n b o)
    (hm : After s.task.pde W s.mem m) (hlow : USER_EXEC_ADDR ≤ ptr)
    (hhigh : ptr + n ≤ USER_STACK_TOP)
    (hW : ∀ a, Range ptr n a → ¬ W a) : Shown { s with mem := m } ptr n b o := by
  intro k hk
  have hwindow : USER_STACK_TOP ≤ PDE_MASK := by decide
  exact hm.bytes _ _ ⟨by omega, by omega⟩ (hW _ ⟨by omega, by omega⟩) (h k hk)

end Statements

/-! ## Reading from a file -/

section Reading

variable {s t : Loader} {fs : Kernel} {sb : SuperDesc} {d : Place} {inode o len vaddr : Nat}

/-- A file has no byte past 2 GB. -/
theorem Inside.lt (h : Inside fs d inode o len) (hlen : 0 < len) : o < 2 ^ 31 := by
  have hn := (h.2 o Nat.le.refl (by omega)).1
  change o / 1024 < 7 + 512 + 512 * 512 at hn
  omega

end Reading

/-! ## One segment -/

section Segments

variable {p : Phdr} {n : Nat}

theorem page_aligned {v : BitVec 32} (h : v &&& 0xfff = 0) : v.toNat % PAGE_SIZE = 0 := by
  have hand := congrArg BitVec.toNat h
  rw [BitVec.toNat_and] at hand
  exact (Nat.and_two_pow_sub_one_eq_mod v.toNat 12).symm.trans hand

/-- A segment apart from the headers does not wrap around, so its pages hold it. -/
theorem Phdr.Fits.pages_hold (h : p.Fits) (hn : 0 < n)
    (hapart : ∀ a, p.Covers a → ¬ Range USER_EXEC_ADDR n a) : p.size ≤ p.pages * PAGE_SIZE := by
  have haligned := page_aligned h.2.1
  have hexec : USER_EXEC_ADDR = 4096 * 4096 := rfl
  have hpage : PAGE_SIZE = 4096 := rfl
  have hvaddr : p.p_vaddr.toNat < 2 ^ 32 := p.p_vaddr.isLt
  have hsize : p.size ≤ 2 ^ 32 - 4096 := by
    by_contra hlarge
    -- such a segment has all pages but its last
    refine hapart USER_EXEC_ADDR ⟨(USER_EXEC_ADDR + 2 ^ 32 - p.p_vaddr.toNat) % 2 ^ 32, ?_, ?_⟩
      ⟨Nat.le.refl, by omega⟩
    · rw [hpage] at haligned
      omega
    · omega
  rw [Phdr.pages, pageCount, hpage]
  omega

/-- A segment that has bytes lies behind the headers, in the memory for programs. -/
theorem Phdr.Fits.bounds (h : p.Fits) (hn : 0 < n)
    (hapart : ∀ a, p.Covers a → ¬ Range USER_EXEC_ADDR n a) (hsize : 0 < p.size) :
    USER_EXEC_ADDR + n ≤ p.p_vaddr.toNat ∧
      p.p_vaddr.toNat + p.pages * PAGE_SIZE ≤ USER_MMAP_ADDR := by
  have hhold := h.pages_hold hn hapart
  have haligned := page_aligned h.2.1
  have hmmap : USER_MMAP_ADDR = 4096 * 32768 := rfl
  have hpage : PAGE_SIZE = 4096 := rfl
  rw [hpage] at hhold haligned ⊢
  have hpos : 0 < p.pages := by omega
  obtain ⟨hlow, -⟩ := h.2.2 0 hpos
  obtain ⟨-, hhigh⟩ := h.2.2 (p.pages - 1) (by omega)
  rw [hpage] at hlow hhigh
  refine ⟨?_, by omega⟩
  by_contra hbefore
  have hvaddr : p.p_vaddr.toNat < 2 ^ 32 := p.p_vaddr.isLt
  exact hapart _ ⟨0, hsize, Nat.mod_eq_of_lt hvaddr⟩ ⟨by omega, by omega⟩

variable {s t : Loader} {fs : Kernel} {sb : SuperDesc} {d : Place} {inode ptr o : Nat}

/-- What `load_segment` does for segment `p`. -/
structure SegmentStep (fs : Kernel) (d : Place) (p : Phdr) (ptr : Nat) (s t : Loader) : Prop where
  files : t.fs = fs
  pde : t.task.pde = s.task.pde
  after : After s.task.pde (Range p.p_vaddr.toNat p.size) s.mem t.mem
  segment : SegmentIn t.mem s.task.pde fs d p
  end_ : t.task.end_ = max s.task.end_ p.end_
  loaded : t.loaded = s.loaded ++ [ptr]

end Segments

/-! ## The loop -/

section Loop

variable {s t : Loader} {fs : Kernel} {sb : SuperDesc} {d : Place} {inode i j : Nat}

/-- The headers are in memory, the first `i` segments are loaded, and nothing else. -/
structure Going (fs : Kernel) (d : Place) (i : Nat) (s : Loader) : Prop where
  files : s.fs = fs
  sound : Sound s.mem
  live : (s.mem.dirs s.task.pde).isSome
  ehdr : Shown s USER_EXEC_ADDR EHDR_SIZE (byteAt fs d) 0
  table : Shown s TABLE (PHDR_SIZE * phnum fs d) (byteAt fs d) (phoff fs d)
  loads : ∀ j < i, Loads fs d j
  segments : ∀ j < i, SegmentIn s.mem s.task.pde fs d (header fs d j)
  upper : ∀ j < i, (header fs d j).end_ ≤ s.task.end_
  attained : s.task.end_ = USER_EXEC_ADDR ∨ ∃ j < i, s.task.end_ = (header fs d j).end_
  loaded : s.loaded = (List.range i).map fun j => TABLE + PHDR_SIZE * j

theorem Going.shown (h : Going fs d i s) (hj : j < phnum fs d) :
    Shown s (TABLE + PHDR_SIZE * j) PHDR_SIZE (byteAt fs d) (phoff fs d + PHDR_SIZE * j) := by
  refine h.table.part ?_
  rw [show PHDR_SIZE = 32 from rfl]
  omega

theorem tableSize_lt (fs : Kernel) (d : Place) :
    USER_EXEC_ADDR + tableSize fs d ≤ USER_STACK_TOP := by
  have hnum : phnum fs d < 2 ^ 16 := BitVec.isLt _
  rw [tableSize, show EHDR_SIZE = 52 from rfl, show PHDR_SIZE = 32 from rfl,
    show USER_EXEC_ADDR = 0x1000000 from rfl, show USER_STACK_TOP = 0x10000000 from rfl]
  omega

/-- Addresses of a segment that has bytes there. -/
theorem covers_of_range {p : Phdr} {a : Nat} (hlt : p.p_vaddr.toNat + p.size ≤ 2 ^ 32)
    (ha : Range p.p_vaddr.toNat p.size a) : p.Covers a :=
  ⟨a - p.p_vaddr.toNat, by have := ha.1; have := ha.2; omega, by
    have := ha.1
    have := ha.2
    omega⟩

/-- A segment in memory stays there while stores go elsewhere. -/
theorem SegmentIn.after {m m' : Memory} {x : Space} {p : Phdr} {W : Nat → Prop}
    (h : SegmentIn m x fs d p) (hm : After x W m m') (hfits : p.Fits)
    (huser : ∀ k < p.size, User (p.p_vaddr.toNat + k) ∧ ¬ W (p.p_vaddr.toNat + k)) :
    SegmentIn m' x fs d p where
  bytes := fun k hk => by
    obtain ⟨hu, hW⟩ := huser k (hk.trans_le (Nat.le_max_right ..))
    exact hm.bytes _ _ hu hW (h.bytes k hk)
  zeros := fun k hk hk' => by
    obtain ⟨hu, hW⟩ := huser k (hk'.trans_le (Nat.le_max_left ..))
    exact hm.bytes _ _ hu hW (h.zeros k hk hk')
  readonly := fun hw k hk => hm.readonly _ (user_page (hfits.2.2 k hk)) (h.readonly hw k hk)

/-- The addresses of a segment of the file. -/
theorem Executable.user (hx : Executable fs sb d inode) (hj : Loads fs d j) {k : Nat}
    (hk : k < (header fs d j).size) : User ((header fs d j).p_vaddr.toNat + k) ∧
      (header fs d j).p_vaddr.toNat + (header fs d j).size ≤ 2 ^ 32 := by
  have hn : 0 < tableSize fs d := Nat.add_pos_left (by decide) _
  have hhold := (hx.fits j hj).pages_hold hn fun a => hx.apart j a hj
  obtain ⟨hlow, hhigh⟩ := (hx.fits j hj).bounds hn (fun a => hx.apart j a hj) (by omega)
  have hwindow : USER_MMAP_ADDR < PDE_MASK ∧ USER_MMAP_ADDR < 2 ^ 32 := by decide
  exact ⟨⟨by omega, by omega⟩, by omega⟩

/-- One more segment. -/
theorem Going.next (hx : Executable fs sb d inode) (h : Going fs d i s) (hi : Loads fs d i)
    (hstep : SegmentStep fs d (header fs d i) (TABLE + PHDR_SIZE * i) s t) :
    Going fs d (i + 1) t := by
  have hcover : ∀ a, Range (header fs d i).p_vaddr.toNat (header fs d i).size a →
      (header fs d i).Covers a := by
    intro a ha
    refine covers_of_range (hx.user hi (k := a - (header fs d i).p_vaddr.toNat) ?_).2 ha
    have := ha.1
    have := ha.2
    omega
  have hbehind : ∀ a, Range USER_EXEC_ADDR (tableSize fs d) a →
      ¬ Range (header fs d i).p_vaddr.toNat (header fs d i).size a :=
    fun a ha hr => hx.apart i a hi (hcover a hr) ha
  have htop := tableSize_lt fs d
  have hsize : tableSize fs d = EHDR_SIZE + PHDR_SIZE * phnum fs d := rfl
  have htable : TABLE = USER_EXEC_ADDR + EHDR_SIZE := rfl
  have hshown : ∀ {ptr n : Nat} {b : Bytes} {o : Nat}, Shown s ptr n b o → USER_EXEC_ADDR ≤ ptr →
      ptr + n ≤ USER_EXEC_ADDR + tableSize fs d → Shown t ptr n b o := by
    intro ptr n b o hs hlow hhigh k hk
    have hafter := hs.after hstep.after hlow (by omega) fun a ha =>
      hbehind a ⟨hlow.trans ha.1, by have := ha.2; omega⟩
    rw [hstep.pde]
    exact hafter k hk
  refine ⟨hstep.files, hstep.after.sound, ?_, hshown h.ehdr Nat.le.refl (by omega),
    hshown h.table (by omega) (by omega), fun j hj => ?_, fun j hj => ?_, fun j hj => ?_, ?_, ?_⟩
  · rw [hstep.pde]
    exact hstep.after.live
  · rcases Nat.lt_succ_iff_lt_or_eq.mp hj with hlt | rfl
    · exact h.loads j hlt
    · exact hi
  · rw [hstep.pde]
    rcases Nat.lt_succ_iff_lt_or_eq.mp hj with hlt | rfl
    · -- the new segment does not touch an old one
      refine (h.segments j hlt).after hstep.after (hx.fits j (h.loads j hlt)) fun k hk => ?_
      obtain ⟨huser, hend⟩ := hx.user (h.loads j hlt) hk
      refine ⟨huser, fun hr => ?_⟩
      refine hx.disjoint j i _ (h.loads j hlt) hi hlt.ne ?_ (hcover _ hr)
      exact covers_of_range hend ⟨Nat.le_add_right .., by omega⟩
    · exact hstep.segment
  · rw [hstep.end_]
    rcases Nat.lt_succ_iff_lt_or_eq.mp hj with hlt | rfl
    · exact (h.upper j hlt).trans (Nat.le_max_left ..)
    · exact Nat.le_max_right ..
  · rw [hstep.end_]
    rcases Nat.le_total s.task.end_ (header fs d i).end_ with hle | hle
    · rw [Nat.max_eq_right hle]
      exact .inr ⟨i, Nat.lt_succ_self i, rfl⟩
    · rw [Nat.max_eq_left hle]
      exact h.attained.imp_right fun ⟨j, hj, he⟩ => ⟨j, hj.trans (Nat.lt_succ_self i), he⟩
  · rw [hstep.loaded, h.loaded, List.range_succ, List.map_append]
    rfl

end Loop

/-! ## `load_elf` -/

section LoadElf

variable {s : Loader} {fs : Kernel} {sb : SuperDesc} {d : Place} {inode : Nat}

end LoadElf

/-! ## A note in front of a segment -/

end NeonixElfLoader
