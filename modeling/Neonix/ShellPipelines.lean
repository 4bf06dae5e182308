import Mathlib.Data.Finset.Option
import Mathlib.Data.Finset.Union
import Mathlib.Data.List.Count
import Mathlib.Data.Nat.Find
import Neonix.FileSystem

/-! # `builtin/neosh.c`: the commands of a pipeline

    `builtin_exec` and what it calls, in the shell process.  The kernel is a
    parameter: which files open, which programs there are, and which descriptors
    and process numbers are new; a descriptor it hands out was not in use. -/

namespace NeonixShell

open NeonixByteBits NeonixMachine
open NeonixFileSystem (Str)

/-- A table of open files, of which there are finitely many. -/
structure Table (F : Type) where
  file : Nat → Option F
  finite : ∃ n, ∀ fd, n ≤ fd → file fd = none

variable {F : Type}

def Table.put (t : Table F) (fd : Nat) (f : Option F) : Table F where
  file := Function.update t.file fd f
  finite := by
    obtain ⟨n, hn⟩ := t.finite
    refine ⟨max n (fd + 1), fun i hi => ?_⟩
    rw [Function.update_of_ne (by omega)]
    exact hn i (by omega)

/-- The shell process: its descriptors, and the children it has not waited for. -/
structure Shell (F : Type) where
  files : Table F
  children : List Nat

/-- What the system calls find and hand out.  `openFile` is told which of the three
    files of `dupfile` it is, and `stat` and `pipe` how many pipes there are already. -/
structure Kernel (F : Type) where
  openFile : Nat → Str → Nat → Option F
  stat : Nat → Str → Bool
  pipe : Nat → F × F
  freeFd : Table F → Nat
  newPid : List Nat → Nat
  freeFd_unused : ∀ t : Table F, t.file (freeFd t) = none
  newPid_unused : ∀ children, newPid children ∉ children

def O_RDONLY : Nat := 0
def O_WRONLY : Nat := 1
def O_CREAT : Nat := 64
def O_APPEND : Nat := 1024

/-! ## System calls -/

/-- `open`. -/
def openFd (k : Kernel F) (slot : Nat) (name : Str) (flags : Nat) (sh : Shell F) :
    Option (Nat × Shell F) :=
  match k.openFile slot name flags with
  | none => none
  | some f =>
      let fd := k.freeFd sh.files
      some (fd, { sh with files := sh.files.put fd (some f) })

/-- `if (fd != EOF) close(fd)`. -/
def closeFd (fd : Option Nat) (sh : Shell F) : Shell F :=
  match fd with
  | none => sh
  | some fd => { sh with files := sh.files.put fd none }

/-- `pipe`. -/
def pipe (k : Kernel F) (count : Nat) (sh : Shell F) : Nat × Nat × Shell F :=
  let (f, g) := k.pipe count
  let r := k.freeFd sh.files
  let files := sh.files.put r (some f)
  let w := k.freeFd files
  (r, w, { sh with files := files.put w (some g) })

/-- `fork`, in the parent. -/
def fork (k : Kernel F) (sh : Shell F) : Nat × Shell F :=
  let pid := k.newPid sh.children
  (pid, { sh with children := pid :: sh.children })

/-! ## `dupfile` -/

/-- An entry of `argv`; `none` is `NULL`. -/
abbrev Arg : Type := Option Str

/-- The files `dupfile` finds among the arguments. -/
structure Redirections where
  infile : Option Str
  outfile : Option Str
  errfile : Option Str
  outappend : Nat
  errappend : Nat

/-- An argument and the one behind it, in the loop of `dupfile`. -/
def operator (a b : Str) (r : Redirections) : Option Redirections :=
  if a = [0x3C] then some { r with infile := some b }                              -- <
  else if a = [0x3E] then some { r with outfile := some b }                        -- >
  else if a = [0x3E, 0x3E] then
    some { r with outfile := some b, outappend := O_APPEND }                       -- >>
  else if a = [0x32, 0x3E] then some { r with errfile := some b }                  -- 2>
  else if a = [0x32, 0x3E, 0x3E] then
    some { r with errfile := some b, errappend := O_APPEND }                       -- 2>>
  else none

/-- The loop of `dupfile`: an operator becomes `NULL`, the name behind it stays. -/
def redirect : List Str → Redirections → List Arg × Redirections
  | [], r => ([], r)
  | [a], r => ([some a], r)
  | a :: b :: argv, r =>
      match operator a b r with
      | some r =>
          let (args, r) := redirect argv r
          (none :: some b :: args, r)
      | none =>
          let (args, r) := redirect (b :: argv) r
          (some a :: args, r)

/-- One of the three descriptors, if there is a file for it; `none` if it does not open. -/
def dupOpen (k : Kernel F) (slot : Nat) (file : Option Str) (flags : Nat) (sh : Shell F) :
    Option (Option Nat × Shell F) :=
  match file with
  | none => some (none, sh)
  | some name => (openFd k slot name flags sh).map fun (fd, sh) => (some fd, sh)

/-- `dupfile`: the arguments that are left, and the descriptors unless one does not open. -/
def dupfile (k : Kernel F) (argv : List Str) (sh : Shell F) :
    List Arg × Option (Option Nat × Option Nat × Option Nat) × Shell F :=
  let (args, r) := redirect argv ⟨none, none, none, 0, 0⟩
  match dupOpen k 0 r.infile (O_RDONLY ||| r.outappend ||| O_CREAT) sh with
  | none => (args, none, sh)
  | some (infd, sh) =>
      match dupOpen k 1 r.outfile (O_WRONLY ||| r.outappend ||| O_CREAT) sh with
      | none => (args, none, closeFd infd sh)
      | some (outfd, sh) =>
          match dupOpen k 2 r.errfile (O_WRONLY ||| r.errappend ||| O_CREAT) sh with
          | none => (args, none, closeFd outfd (closeFd infd sh))
          | some (errfd, sh) => (args, some (infd, outfd, errfd), sh)

/-! ## `builtin_command` and `builtin_exec` -/

/-- `builtin_command`, in the parent: the process and its group. -/
def builtinCommand (k : Kernel F) (infd outfd errfd : Option Nat) (pgid : Nat) (sh : Shell F) :
    Nat × Nat × Shell F :=
  let (pid, sh) := fork k sh
  let sh := closeFd errfd (closeFd outfd (closeFd infd sh))
  (pid, if pgid = 0 then pid else pgid, sh)

/-- The variables of the loop of `builtin_exec`. -/
structure Stage where
  p : Bool
  infd : Option Nat
  count : Nat
  pgid : Nat

def bar : Str := [0x7C]

/-- `"/bin/%s.out"`. -/
def program (name : Str) : Str := [0x2F, 0x62, 0x69, 0x6E, 0x2F] ++ name ++ [0x2E, 0x6F, 0x75, 0x74]

/-- The loop of `builtin_exec`; `false` where a command is not found. -/
def stages (k : Kernel F) : List Arg → Stage → Shell F → Bool × Stage × Shell F
  | [], st, sh => (true, st, sh)
  | none :: args, st, sh => stages k args st sh
  | some a :: args, st, sh =>
      if ¬ st.p ∧ a = bar then
        let (r, w, sh) := pipe k st.count sh
        let (_, pgid, sh) := builtinCommand k st.infd (some w) none st.pgid sh
        stages k args { p := true, infd := some r, count := st.count + 1, pgid := pgid } sh
      else if ¬ st.p then stages k args st sh
      else if k.stat st.count (program a) then stages k args { st with p := false } sh
      else (false, st, sh)

/-- The loop that waits for so many children, in at most so many turns; `wait` is
    the child `waitpid(-1)` returns when there is one. -/
def waitChildren (wait : List Nat → Nat) : (turns : Nat) → (left : Nat) → Shell F → Res (Shell F)
  | _, 0, sh => .ok sh
  | 0, _ + 1, _ => .error .outOfBounds
  | turns + 1, left + 1, sh =>
      if sh.children = [] then waitChildren wait turns (left + 1) sh
      else waitChildren wait turns left { sh with children := sh.children.erase (wait sh.children) }

/-- `builtin_exec`. -/
def builtinExec (k : Kernel F) (wait : List Nat → Nat) (turns : Nat) (argv : List Str)
    (sh : Shell F) :
    Res (Shell F) :=
  match dupfile k argv sh with
  | (_, none, sh) => .ok sh
  | (args, some (infd, outfd, errfd), sh) =>
      match stages k args { p := true, infd := infd, count := 0, pgid := 0 } sh with
      | (false, _, sh) => .ok sh
      | (true, st, sh) =>
          let (_, _, sh) := builtinCommand k st.infd outfd errfd st.pgid sh
          waitChildren wait turns (st.count + 1) sh

/-! ## What should be left, and when it is -/

/-- `waitpid` returns a child. -/
def Waits (wait : List Nat → Nat) : Prop := ∀ children, children ≠ [] → wait children ∈ children

/-- The descriptors are the old ones, and all children it forked have been waited for. -/
def Clean (k : Kernel F) (argv : List Str) (sh : Shell F) : Prop :=
  ∀ wait, Waits wait → ∀ turns sh', builtinExec k wait turns argv sh = .ok sh' →
    sh'.files = sh.files ∧ ∀ pid ∈ sh'.children, pid ∈ sh.children

/-- The names in the places of commands. -/
def commands : (p : Bool) → List Arg → List Str
  | _, [] => []
  | p, none :: args => commands p args
  | false, some a :: args => if a = bar then commands true args else commands false args
  | true, some a :: args => a :: commands false args

/-- The files among the arguments. -/
def redirections (argv : List Str) : Redirections := (redirect argv ⟨none, none, none, 0, 0⟩).2

/-- The names of the commands among the arguments. -/
def names (argv : List Str) : List Str := commands true (redirect argv ⟨none, none, none, 0, 0⟩).1

/-- The file is opened, if there is one. -/
def Opens (k : Kernel F) (slot : Nat) (file : Option Str) (flags : Nat) : Prop :=
  ∀ name, file = some name → k.openFile slot name flags ≠ none

/-- All files of the redirections open. -/
def Redirected (k : Kernel F) (r : Redirections) : Prop :=
  Opens k 0 r.infile (O_RDONLY ||| r.outappend ||| O_CREAT) ∧
    Opens k 1 r.outfile (O_WRONLY ||| r.outappend ||| O_CREAT) ∧
    Opens k 2 r.errfile (O_WRONLY ||| r.errappend ||| O_CREAT)

/-- The arguments that leave no descriptors and no children behind. -/
def Tidy (k : Kernel F) (argv : List Str) (sh : Shell F) : Prop :=
  ¬ Redirected k (redirections argv) ∨
    (((redirections argv).infile = none ∧ (redirections argv).outfile = none ∧
        (redirections argv).errfile = none) ∧
      ∃ name rest, names argv = name :: rest ∧ ¬ k.stat 0 (program name)) ∨
    (sh.children = [] ∧ ∀ j name, (names argv)[j]? = some name → k.stat j (program name))

variable {k : Kernel F} {base t : Table F} {fds rest : Finset Nat}
    {fd infd outfd errfd : Option Nat}
  {sh sh' : Shell F} {st st' : Stage} {args : List Arg} {argv : List Str} {kids : List Nat}
  {count n : Nat} {f : F}

/-! ## Tables with some more descriptors -/

/-- The table is the old one but for these descriptors, which were not in use. -/
structure Extends (base t : Table F) (fds : Finset Nat) : Prop where
  new : ∀ fd ∈ fds, base.file fd = none ∧ t.file fd ≠ none
  old : ∀ fd, fd ∉ fds → t.file fd = base.file fd

theorem Table.eq_of_file (h : ∀ fd, t.file fd = base.file fd) : t = base := by
  cases t
  cases base
  congr
  exact funext h

theorem Extends.refl (base : Table F) : Extends base base ∅ :=
  ⟨fun fd h => absurd h (Finset.notMem_empty fd), fun _ _ => rfl⟩

theorem Extends.eq_of_empty (h : Extends base t fds) (hfds : fds = ∅) : t = base :=
  Table.eq_of_file fun fd => h.old fd (hfds ▸ Finset.notMem_empty fd)

theorem Extends.ne_of_mem (h : Extends base t fds) {fd : Nat} (hfd : fd ∈ fds) : t ≠ base := by
  rintro rfl
  obtain ⟨hnone, hsome⟩ := h.new fd hfd
  exact hsome hnone

/-- A new descriptor. -/
theorem Extends.put (h : Extends base t fds) (k : Kernel F) (f : F) :
    Extends base (t.put (k.freeFd t) (some f)) (insert (k.freeFd t) fds) ∧ k.freeFd t ∉ fds := by
  have hfree := k.freeFd_unused t
  have hnot : k.freeFd t ∉ fds := fun hmem => (h.new _ hmem).2 hfree
  refine ⟨⟨fun fd hfd => ?_, fun fd hfd => ?_⟩, hnot⟩
  · rcases Finset.mem_insert.mp hfd with rfl | hfd
    · refine ⟨(h.old _ hnot).symm.trans hfree, ?_⟩
      show Function.update t.file (k.freeFd t) (some f) (k.freeFd t) ≠ none
      rw [Function.update_self]
      exact Option.some_ne_none f
    · refine ⟨(h.new fd hfd).1, ?_⟩
      show Function.update t.file (k.freeFd t) (some f) fd ≠ none
      rw [Function.update_of_ne (fun heq : fd = k.freeFd t => hnot (heq ▸ hfd))]
      exact (h.new fd hfd).2
  · rw [Finset.mem_insert, not_or] at hfd
    show Function.update t.file (k.freeFd t) (some f) fd = base.file fd
    rw [Function.update_of_ne hfd.1]
    exact h.old fd hfd.2

/-- A descriptor is closed that was not in use before. -/
theorem Extends.close (h : Extends base sh.files fds) (fd : Option Nat) (hfd : fd.toFinset ⊆ fds) :
    Extends base (closeFd fd sh).files (fds \ fd.toFinset) := by
  cases fd with
  | none =>
      rw [Option.toFinset_none, Finset.sdiff_empty]
      exact h
  | some x =>
      rw [Option.toFinset_some, Finset.singleton_subset_iff] at hfd
      rw [Option.toFinset_some]
      refine ⟨fun y hy => ?_, fun y hy => ?_⟩
      · obtain ⟨hmem, hne⟩ := Finset.mem_sdiff.mp hy
        rw [Finset.mem_singleton] at hne
        refine ⟨(h.new y hmem).1, ?_⟩
        show Function.update sh.files.file x none y ≠ none
        rw [Function.update_of_ne hne]
        exact (h.new y hmem).2
      · show Function.update sh.files.file x none y = base.file y
        by_cases heq : y = x
        · rw [heq, Function.update_self]
          exact (h.new x hfd).1.symm
        · rw [Function.update_of_ne heq]
          refine h.old y fun hmem => hy (Finset.mem_sdiff.mpr ⟨hmem, ?_⟩)
          rwa [Finset.mem_singleton]

theorem closeFd_children (fd : Option Nat) (sh : Shell F) :
    (closeFd fd sh).children = sh.children := by
  cases fd <;> rfl

/-! ## The shell in the middle of a pipeline -/

/-- The shell holds the descriptors for the last command and the one its next command
    reads from; so many children run. -/
structure Holds (base : Table F) (kids : List Nat) (rest : Finset Nat) (infd : Option Nat)
    (count : Nat)
    (sh : Shell F) : Prop where
  files : Extends base sh.files (infd.toFinset ∪ rest)
  apart : Disjoint infd.toFinset rest
  forked : ∃ new, sh.children = new ++ kids ∧ new.length = count ∧ ∀ pid ∈ new, pid ∉ kids

/-- One more child. -/
theorem fork_forked (h : ∃ new, sh.children = new ++ kids ∧ new.length = count ∧ ∀ pid ∈ new, pid ∉ kids) :
    ∃ new, (fork k sh).2.children = new ++ kids ∧ new.length = count + 1 ∧
      ∀ pid ∈ new, pid ∉ kids := by
  obtain ⟨new, heq, hlen, hnew⟩ := h
  refine ⟨k.newPid sh.children :: new, ?_, ?_, fun pid hpid => ?_⟩
  · rw [List.cons_append, ← heq]
    rfl
  · rw [List.length_cons, hlen]
  · rcases List.mem_cons.mp hpid with rfl | hpid
    · intro hmem
      refine k.newPid_unused sh.children ?_
      rw [heq]
      exact List.mem_append_right new (heq ▸ hmem)
    · exact hnew pid hpid

/-- `builtin_command` closes the descriptors it is given. -/
theorem command_files (k : Kernel F) (infd outfd errfd : Option Nat) (pgid : Nat)
    (h : Extends base sh.files fds) (hin : infd.toFinset ⊆ fds)
    (hout : outfd.toFinset ⊆ fds \ infd.toFinset)
    (herr : errfd.toFinset ⊆ (fds \ infd.toFinset) \ outfd.toFinset) :
    Extends base (builtinCommand k infd outfd errfd pgid sh).2.2.files
      (((fds \ infd.toFinset) \ outfd.toFinset) \ errfd.toFinset) := by
  have hfork : Extends base (fork k sh).2.files fds := h
  exact ((hfork.close infd hin).close outfd hout).close errfd herr

theorem command_children {pgid : Nat} :
    (builtinCommand k infd outfd errfd pgid sh).2.2.children = (fork k sh).2.children := by
  show (closeFd errfd (closeFd outfd (closeFd infd _))).children = _
  rw [closeFd_children, closeFd_children, closeFd_children]
  rfl

/-- A command with a pipe behind it: the end that is read from stays. -/
theorem pipe_holds (h : Holds base kids rest infd count sh) {pgid m : Nat} :
    Holds base kids rest (some (pipe k m sh).1) (count + 1)
      (builtinCommand k infd (some (pipe k m sh).2.1) none pgid (pipe k m sh).2.2).2.2 := by
  obtain ⟨r, hr⟩ : ∃ r, r = (pipe k m sh).1 := ⟨_, rfl⟩
  obtain ⟨w, hw⟩ : ∃ w, w = (pipe k m sh).2.1 := ⟨_, rfl⟩
  obtain ⟨hread, hfresh⟩ := h.files.put k (k.pipe m).1
  obtain ⟨hwrite, hfresh'⟩ := hread.put k (k.pipe m).2
  have hpipe : Extends base (pipe k m sh).2.2.files (insert w (insert r (infd.toFinset ∪ rest))) := by
    rw [hr, hw]
    exact hwrite
  have hrnew : r ∉ infd.toFinset ∪ rest := hr ▸ hfresh
  have hwnew : w ∉ insert r (infd.toFinset ∪ rest) := by
    rw [hr, hw]
    exact hfresh'
  rw [← hr, ← hw]
  rw [Finset.mem_insert, not_or] at hwnew
  obtain ⟨hne, hwnew⟩ := hwnew
  rw [Finset.mem_union, not_or] at hrnew hwnew
  have hapart : ∀ x, x ∈ infd.toFinset → x ∉ rest := fun x hx hx' =>
    Finset.disjoint_left.mp h.apart hx hx'
  refine ⟨?_, ?_, ?_⟩
  · have hclosed := command_files k infd (some w) none pgid hpipe ?_ ?_ ?_
    · have hset : ((insert w (insert r (infd.toFinset ∪ rest)) \ infd.toFinset) \ (some w).toFinset) \
          (none : Option Nat).toFinset = (some r).toFinset ∪ rest := by
        ext x
        simp only [Finset.mem_sdiff, Finset.mem_insert, Finset.mem_union, Option.toFinset_some,
          Option.toFinset_none, Finset.mem_singleton, Finset.notMem_empty, not_false_eq_true, and_true]
        constructor
        · rintro ⟨⟨hx | hx | hx | hx, hin⟩, hw⟩
          · exact absurd hx hw
          · exact .inl hx
          · exact absurd hx hin
          · exact .inr hx
        · rintro (rfl | hx)
          · exact ⟨⟨.inr (.inl rfl), hrnew.1⟩, fun heq => hne heq.symm⟩
          · exact ⟨⟨.inr (.inr (.inr hx)), fun hin => hapart x hin hx⟩,
              fun heq => hwnew.2 (heq ▸ hx)⟩
      rw [← hset]
      exact hclosed
    · exact fun x hx => Finset.mem_insert_of_mem (Finset.mem_insert_of_mem (Finset.mem_union_left _ hx))
    · rw [Option.toFinset_some, Finset.singleton_subset_iff, Finset.mem_sdiff]
      exact ⟨Finset.mem_insert_self w _, hwnew.1⟩
    · exact Finset.empty_subset _
  · rw [Option.toFinset_some, Finset.disjoint_singleton_left]
    exact hrnew.2
  · rw [command_children]
    exact fork_forked h.forked

/-- The last command closes what is left. -/
theorem last_holds (h : Holds base kids (outfd.toFinset ∪ errfd.toFinset) infd count sh)
    (hapart : Disjoint outfd.toFinset errfd.toFinset) (k : Kernel F) (pgid : Nat) :
    (builtinCommand k infd outfd errfd pgid sh).2.2.files = base ∧
      ∃ new, (builtinCommand k infd outfd errfd pgid sh).2.2.children = new ++ kids ∧
        new.length = count + 1 ∧ ∀ pid ∈ new, pid ∉ kids := by
  have hin : ∀ x, x ∈ infd.toFinset → x ∉ outfd.toFinset ∪ errfd.toFinset := fun x hx hx' =>
    Finset.disjoint_left.mp h.apart hx hx'
  have hout : ∀ x, x ∈ outfd.toFinset → x ∉ errfd.toFinset := fun x hx hx' =>
    Finset.disjoint_left.mp hapart hx hx'
  refine ⟨?_, ?_⟩
  · refine (command_files k infd outfd errfd pgid h.files Finset.subset_union_left ?_ ?_).eq_of_empty ?_
    · exact fun x hx => Finset.mem_sdiff.mpr ⟨Finset.mem_union_right _ (Finset.mem_union_left _ hx),
        fun hx' => hin x hx' (Finset.mem_union_left _ hx)⟩
    · exact fun x hx => Finset.mem_sdiff.mpr ⟨Finset.mem_sdiff.mpr
        ⟨Finset.mem_union_right _ (Finset.mem_union_right _ hx),
          fun hx' => hin x hx' (Finset.mem_union_right _ hx)⟩, fun hx' => hout x hx' hx⟩
    · ext x
      simp only [Finset.mem_sdiff, Finset.mem_union, Finset.notMem_empty, iff_false]
      rintro ⟨⟨⟨hx | hx | hx, h1⟩, h2⟩, h3⟩
      · exact h1 hx
      · exact h2 hx
      · exact h3 hx
  · rw [command_children]
    exact fork_forked h.forked

/-! ## The stages of a pipeline -/

/-- The number of the stage whose command is looked up next. -/
def Stage.next (st : Stage) : Nat := if st.p then st.count else st.count + 1

/-- What the loop does up to its end, or to a command that is not found. -/
structure Ran (k : Kernel F) (base : Table F) (kids : List Nat) (rest : Finset Nat)
    (names : List Str)
    (st st' : Stage) (found : Bool) (sh : Shell F) : Prop where
  holds : Holds base kids rest st'.infd st'.count sh
  count_le : st.count ≤ st'.count
  reads : st.count < st'.count → st'.infd ≠ none
  same : st.count = st'.count → st'.infd = st.infd
  found_iff : found = true ↔ ∀ j name, names[j]? = some name → k.stat (st.next + j) (program name)
  lost : found = false → st.next ≤ st'.count ∧
    ∃ name, names[st'.count - st.next]? = some name ∧ ¬ k.stat st'.count (program name) ∧
      ∀ j name, j < st'.count - st.next → names[j]? = some name →
        k.stat (st.next + j) (program name)

theorem commands_none (p : Bool) (args : List Arg) :
    commands p (none :: args) = commands p args := by
  cases p <;> rfl

/-- A command is found. -/
theorem Ran.found {names : List Str} {name : Str} {found : Bool} (hp : st.p = true)
    (hname : k.stat st.count (program name))
    (h : Ran k base kids rest names { st with p := false } st' found sh) :
    Ran k base kids rest (name :: names) st st' found sh := by
  have hnext : st.next = st.count := if_pos hp
  have hnext' : Stage.next { st with p := false } = st.count + 1 := rfl
  have hsplit : ∀ m, (∀ j x, j < m + 1 → (name :: names)[j]? = some x → k.stat (st.next + j) (program x)) ↔
      ∀ j x, j < m → names[j]? = some x → k.stat (st.count + 1 + j) (program x) := by
    intro m
    rw [hnext]
    constructor
    · intro hall j x hj hx
      have hstat := hall (j + 1) x (Nat.succ_lt_succ hj) hx
      rwa [← Nat.add_assoc, Nat.add_right_comm] at hstat
    · intro hall j x hj hx
      cases j with
      | zero =>
          obtain rfl : name = x := Option.some.inj hx
          exact hname
      | succ j =>
          have hstat := hall j x (Nat.lt_of_succ_lt_succ hj) hx
          rwa [Nat.add_right_comm, Nat.add_assoc] at hstat
  refine ⟨h.holds, h.count_le, h.reads, h.same, h.found_iff.trans ?_, fun hlost => ?_⟩
  · rw [hnext']
    constructor
    · intro hall j x hx
      exact (hsplit (j + 1)).mpr (fun j x _ hx => hall j x hx) j x (by omega) hx
    · intro hall j x hx
      exact (hsplit (j + 1)).mp (fun j x _ hx => hall j x hx) j x (by omega) hx
  · obtain ⟨hle, x, hx, hstat, hbefore⟩ := h.lost hlost
    rw [hnext'] at hle hx hbefore
    have hindex : st'.count - st.next = st'.count - (st.count + 1) + 1 := by omega
    refine ⟨by omega, x, ?_, hstat, ?_⟩
    · rw [hindex]
      exact hx
    · rw [hindex]
      exact (hsplit _).mpr hbefore

theorem stages_ran (k : Kernel F) (args : List Arg) (st : Stage)
    (h : Holds base kids rest st.infd st.count sh) :
    Ran k base kids rest (commands st.p args) st (stages k args st sh).2.1 (stages k args st sh).1
      (stages k args st sh).2.2 := by
  induction args generalizing st sh with
  | nil =>
      have hnone : ∀ j name, (commands st.p [])[j]? = some name →
          k.stat (st.next + j) (program name) := by
        intro j name hj
        cases st.p <;> exact absurd hj (by rw [commands, List.getElem?_nil]; exact nofun)
      refine ⟨h, Nat.le_refl _, fun hlt => absurd hlt (Nat.lt_irrefl _), fun _ => rfl, ?_,
        fun hlost => ?_⟩
      · exact iff_of_true rfl hnone
      · exact nomatch (show true = false from hlost)
  | cons a args ih =>
      cases a with
      | none =>
          rw [commands_none]
          exact ih st h
      | some a =>
          obtain ⟨p, infd, count, pgid⟩ := st
          cases p with
          | true =>
              by_cases hstat : k.stat count (program a)
              · have hstep : stages k (some a :: args) ⟨true, infd, count, pgid⟩ sh =
                    stages k args ⟨false, infd, count, pgid⟩ sh := by
                  rw [stages, if_neg (fun hx => hx.1 rfl), if_neg (fun hx => hx rfl)]
                  exact if_pos hstat
                rw [hstep]
                exact Ran.found rfl hstat (ih ⟨false, infd, count, pgid⟩ h)
              · have hstep : stages k (some a :: args) ⟨true, infd, count, pgid⟩ sh =
                    (false, ⟨true, infd, count, pgid⟩, sh) := by
                  rw [stages, if_neg (fun hx => hx.1 rfl), if_neg (fun hx => hx rfl)]
                  exact if_neg hstat
                rw [hstep]
                refine ⟨h, Nat.le_refl _, fun hlt => absurd hlt (Nat.lt_irrefl _), fun _ => rfl, ?_,
                  fun _ => ⟨Nat.le_refl _, a, ?_, hstat, fun j x hj => ?_⟩⟩
                · exact iff_of_false Bool.false_ne_true fun hall => hstat (hall 0 a rfl)
                · show (a :: commands false args)[count - count]? = some a
                  rw [Nat.sub_self]
                  rfl
                · have hj' : j < count - count := hj
                  omega
          | false =>
              by_cases hbar : a = bar
              · obtain ⟨r, hr⟩ : ∃ r, r = (pipe k count sh).1 := ⟨_, rfl⟩
                obtain ⟨w, hw⟩ : ∃ w, w = (pipe k count sh).2.1 := ⟨_, rfl⟩
                obtain ⟨sh₁, hsh₁⟩ : ∃ sh₁, sh₁ = builtinCommand k infd (some w) none pgid
                  (pipe k count sh).2.2 := ⟨_, rfl⟩
                have hstep : stages k (some a :: args) ⟨false, infd, count, pgid⟩ sh =
                    stages k args ⟨true, some r, count + 1, sh₁.2.1⟩ sh₁.2.2 := by
                  rw [stages, if_pos ⟨Bool.false_ne_true, hbar⟩, hsh₁, hw, hr]
                have hnames : commands false (some a :: args) = commands true args := if_pos hbar
                have hpiped : Holds base kids rest (some r) (count + 1) sh₁.2.2 := by
                  rw [hsh₁, hw, hr]
                  exact pipe_holds h
                have hran := ih ⟨true, some r, count + 1, sh₁.2.1⟩ hpiped
                rw [hstep, hnames]
                have hle := hran.count_le
                refine ⟨hran.holds, Nat.le_of_succ_le hle, fun _ => ?_, fun heq => ?_,
                  hran.found_iff,
                  hran.lost⟩
                · -- the end of the pipe that is read from, or of a later one
                  rcases Nat.lt_or_eq_of_le hle with hlt | heq
                  · exact hran.reads hlt
                  · rw [hran.same heq]
                    exact Option.some_ne_none r
                · exact absurd (heq ▸ hle) (Nat.not_succ_le_self _)
              · have hstep : stages k (some a :: args) ⟨false, infd, count, pgid⟩ sh =
                    stages k args ⟨false, infd, count, pgid⟩ sh := by
                  rw [stages, if_neg (fun hx => hbar hx.2)]
                  exact if_pos Bool.false_ne_true
                have hnames : commands false (some a :: args) = commands false args := if_neg hbar
                rw [hstep, hnames]
                exact ih ⟨false, infd, count, pgid⟩ h

/-! ## The files of the redirections -/

theorem dupOpen_none {slot flags : Nat} {file : Option Str} :
    dupOpen k slot file flags sh = none ↔ ¬ Opens k slot file flags := by
  cases file with
  | none => exact iff_of_false (Option.some_ne_none _) fun h => h fun name hname => nomatch hname
  | some name =>
      cases hopen : k.openFile slot name flags with
      | none =>
          have hfail : dupOpen k slot (some name) flags sh = none := by
            rw [dupOpen, openFd, hopen]
            rfl
          exact iff_of_true hfail fun h => h name rfl hopen
      | some f =>
          have hdone : dupOpen k slot (some name) flags sh ≠ none := by
            rw [dupOpen, openFd, hopen]
            exact Option.some_ne_none _
          refine iff_of_false hdone fun h => h fun name' hname => ?_
          rw [← Option.some.inj hname, hopen]
          exact Option.some_ne_none f

theorem dupOpen_opens {slot flags : Nat} {file : Option Str} {x : Option Nat × Shell F}
    (h : dupOpen k slot file flags sh = some x) : Opens k slot file flags := by
  by_contra hx
  rw [dupOpen_none.mpr hx] at h
  cases h

/-- A file that opens. -/
theorem dupOpen_some {slot flags : Nat} {file : Option Str} (h : Extends base sh.files fds)
    (hopen : dupOpen k slot file flags sh = some (fd, sh')) :
    Extends base sh'.files (fd.toFinset ∪ fds) ∧ Disjoint fd.toFinset fds ∧
      sh'.children = sh.children ∧ (fd = none ↔ file = none) := by
  cases file with
  | none =>
      obtain ⟨rfl, rfl⟩ := Prod.mk.inj (Option.some.inj hopen)
      rw [Option.toFinset_none, Finset.empty_union]
      exact ⟨h, Finset.disjoint_empty_left fds, rfl, iff_of_true rfl rfl⟩
  | some name =>
      rw [dupOpen, openFd] at hopen
      cases hfile : k.openFile slot name flags with
      | none =>
          rw [hfile] at hopen
          cases hopen
      | some f =>
          rw [hfile] at hopen
          obtain ⟨rfl, rfl⟩ := Prod.mk.inj (Option.some.inj hopen)
          obtain ⟨hput, hnot⟩ := h.put k f
          rw [Option.toFinset_some, Finset.singleton_union]
          exact ⟨hput, Finset.disjoint_singleton_left.mpr hnot, rfl,
            iff_of_false (Option.some_ne_none _) (Option.some_ne_none _)⟩

/-- A file does not open, and the ones that did are closed again. -/
theorem dupfile_refused (sh : Shell F) (h : ¬ Redirected k (redirections argv)) :
    ∃ sh', dupfile k argv sh = ((redirect argv ⟨none, none, none, 0, 0⟩).1, none, sh') ∧
      sh'.files = sh.files ∧ sh'.children = sh.children := by
  obtain ⟨⟨args, r⟩, hargs⟩ : ∃ x, x = redirect argv ⟨none, none, none, 0, 0⟩ := ⟨_, rfl⟩
  rw [redirections, ← hargs] at h
  rw [dupfile, ← hargs]
  have hstart : Extends sh.files sh.files ∅ := Extends.refl sh.files
  cases hin : dupOpen k 0 r.infile (O_RDONLY ||| r.outappend ||| O_CREAT) sh with
  | none => exact ⟨sh, by simp only [hin], rfl, rfl⟩
  | some x =>
    obtain ⟨infd, sh₁⟩ := x
    obtain ⟨hfiles₁, -, hkids₁, -⟩ := dupOpen_some hstart hin
    cases hout : dupOpen k 1 r.outfile (O_WRONLY ||| r.outappend ||| O_CREAT) sh₁ with
    | none =>
        refine ⟨closeFd infd sh₁, by simp only [hin, hout], ?_, ?_⟩
        · refine (hfiles₁.close infd Finset.subset_union_left).eq_of_empty ?_
          rw [Finset.union_empty, Finset.sdiff_self]
        · rw [closeFd_children, hkids₁]
    | some x =>
      obtain ⟨outfd, sh₂⟩ := x
      obtain ⟨hfiles₂, hapart, hkids₂, -⟩ := dupOpen_some hfiles₁ hout
      rw [Finset.union_empty] at hfiles₂ hapart
      cases herr : dupOpen k 2 r.errfile (O_WRONLY ||| r.errappend ||| O_CREAT) sh₂ with
      | none =>
          refine ⟨closeFd outfd (closeFd infd sh₂), by simp only [hin, hout, herr], ?_, ?_⟩
          · have hclosed := hfiles₂.close infd Finset.subset_union_right
            rw [Finset.union_sdiff_cancel_right hapart] at hclosed
            exact (hclosed.close outfd (Finset.Subset.refl _)).eq_of_empty (Finset.sdiff_self _)
          · rw [closeFd_children, closeFd_children, hkids₂, hkids₁]
      | some x =>
          -- all three open
          refine absurd ⟨?_, ?_, ?_⟩ h
          · exact dupOpen_opens hin
          · exact dupOpen_opens hout
          · exact dupOpen_opens herr

/-- All files open. -/
theorem dupfile_opened (sh : Shell F) (h : Redirected k (redirections argv)) :
    ∃ infd outfd errfd sh', dupfile k argv sh =
        ((redirect argv ⟨none, none, none, 0, 0⟩).1, some (infd, outfd, errfd), sh') ∧
      Holds sh.files sh.children (outfd.toFinset ∪ errfd.toFinset) infd 0 sh' ∧
      Disjoint outfd.toFinset errfd.toFinset ∧ (infd = none ↔ (redirections argv).infile = none) ∧
      (outfd = none ↔ (redirections argv).outfile = none) ∧
      (errfd = none ↔ (redirections argv).errfile = none) := by
  obtain ⟨⟨args, r⟩, hargs⟩ : ∃ x, x = redirect argv ⟨none, none, none, 0, 0⟩ := ⟨_, rfl⟩
  rw [redirections, ← hargs] at h ⊢
  obtain ⟨hin', hout', herr'⟩ := h
  rw [dupfile, ← hargs]
  have hstart : Extends sh.files sh.files ∅ := Extends.refl sh.files
  cases hin : dupOpen k 0 r.infile (O_RDONLY ||| r.outappend ||| O_CREAT) sh with
  | none => exact absurd hin' (dupOpen_none.mp hin)
  | some x =>
    obtain ⟨infd, sh₁⟩ := x
    obtain ⟨hfiles₁, -, hkids₁, hnone₁⟩ := dupOpen_some hstart hin
    cases hout : dupOpen k 1 r.outfile (O_WRONLY ||| r.outappend ||| O_CREAT) sh₁ with
    | none => exact absurd hout' (dupOpen_none.mp hout)
    | some x =>
      obtain ⟨outfd, sh₂⟩ := x
      obtain ⟨hfiles₂, hapart₂, hkids₂, hnone₂⟩ := dupOpen_some hfiles₁ hout
      cases herr : dupOpen k 2 r.errfile (O_WRONLY ||| r.errappend ||| O_CREAT) sh₂ with
      | none => exact absurd herr' (dupOpen_none.mp herr)
      | some x =>
        obtain ⟨errfd, sh₃⟩ := x
        obtain ⟨hfiles₃, hapart₃, hkids₃, hnone₃⟩ := dupOpen_some hfiles₂ herr
        rw [Finset.union_empty] at hfiles₃ hapart₂ hapart₃
        obtain ⟨hapart₃₂, hapart₃₁⟩ := Finset.disjoint_union_right.mp hapart₃
        refine ⟨infd, outfd, errfd, sh₃, by simp only [hin, hout, herr], ⟨?_, ?_, ?_⟩,
          hapart₃₂.symm,
          hnone₁, hnone₂, hnone₃⟩
        · have hset : infd.toFinset ∪ (outfd.toFinset ∪ errfd.toFinset) =
              errfd.toFinset ∪ (outfd.toFinset ∪ infd.toFinset) := by
            rw [Finset.union_comm, Finset.union_comm outfd.toFinset, Finset.union_assoc]
          rw [hset]
          exact hfiles₃
        · exact Finset.disjoint_union_right.mpr ⟨hapart₂.symm, hapart₃₁.symm⟩
        · exact ⟨[], by rw [hkids₃, hkids₂, hkids₁]; rfl, rfl, fun pid hpid => nomatch hpid⟩

/-! ## Waiting -/

/-- The children there are when all waits are done. -/
theorem waitChildren_some {wait : List Nat → Nat} (hwait : Waits wait) {turns left : Nat}
    (hleft : left ≤ sh.children.length) (hok : waitChildren wait turns left sh = .ok sh') :
    sh'.files = sh.files ∧ sh'.children.length + left = sh.children.length ∧
      ∀ pid ∈ sh'.children, pid ∈ sh.children := by
  induction turns generalizing left sh with
  | zero =>
      cases left with
      | zero =>
          obtain rfl := Except.ok.inj hok
          exact ⟨rfl, rfl, fun _ h => h⟩
      | succ left => cases hok
  | succ turns ih =>
      cases left with
      | zero =>
          obtain rfl := Except.ok.inj hok
          exact ⟨rfl, rfl, fun _ h => h⟩
      | succ left =>
          have hne : sh.children ≠ [] := by
            intro hnil
            rw [hnil] at hleft
            exact Nat.not_succ_le_zero _ hleft
          rw [waitChildren, if_neg hne] at hok
          have herase := List.length_erase_of_mem (hwait _ hne)
          have hpos := List.length_pos_of_ne_nil hne
          obtain ⟨hfiles, hlen, hmem⟩ := ih (by
            show left ≤ (sh.children.erase (wait sh.children)).length
            omega) hok
          refine ⟨hfiles, ?_, fun pid hpid => List.mem_of_mem_erase (hmem pid hpid)⟩
          have hlen' : sh'.children.length + left =
              (sh.children.erase (wait sh.children)).length := hlen
          omega

/-- With enough children the loop ends. -/
theorem waitChildren_returns {wait : List Nat → Nat} (hwait : Waits wait) {left : Nat}
    (sh : Shell F) (hleft : left ≤ sh.children.length) :
    ∃ sh', waitChildren wait left left sh = .ok sh' := by
  induction left generalizing sh with
  | zero => exact ⟨sh, rfl⟩
  | succ left ih =>
      have hne : sh.children ≠ [] := by
        intro hnil
        rw [hnil] at hleft
        exact Nat.not_succ_le_zero _ hleft
      have herase := List.length_erase_of_mem (hwait _ hne)
      have hpos := List.length_pos_of_ne_nil hne
      obtain ⟨sh', hsh'⟩ := ih { sh with
        children := sh.children.erase (wait sh.children) } (by
          show left ≤ (sh.children.erase (wait sh.children)).length
          omega)
      exact ⟨sh', by rw [waitChildren, if_neg hne, hsh']⟩

/-- A wait takes at most one of the children that are counted. -/
theorem waitChildren_countP {wait : List Nat → Nat} (counted : Nat → Bool) {turns left : Nat}
    (hok : waitChildren wait turns left sh = .ok sh') :
    sh.children.countP counted ≤ sh'.children.countP counted + left := by
  induction turns generalizing left sh with
  | zero =>
      cases left with
      | zero =>
          obtain rfl := Except.ok.inj hok
          exact Nat.le_refl _
      | succ left => cases hok
  | succ turns ih =>
      cases left with
      | zero =>
          obtain rfl := Except.ok.inj hok
          exact Nat.le_refl _
      | succ left =>
          rw [waitChildren] at hok
          split at hok
          · exact ih hok
          · have hrest := ih hok
            have herase := List.countP_erase counted sh.children (wait sh.children)
            have hrest' : (sh.children.erase (wait sh.children)).countP counted ≤
                sh'.children.countP counted + left := hrest
            rw [herase] at hrest'
            split at hrest'
            · omega
            · omega

/-- The schedule on which an old child dies first. -/
def oldFirst (old : Nat) (children : List Nat) : Nat :=
  if old ∈ children then old else children.headD 0

theorem oldFirst_waits (old : Nat) : Waits (oldFirst old) := by
  intro children hne
  rw [oldFirst]
  split
  · assumption
  · cases children with
    | nil => exact absurd rfl hne
    | cons pid children => exact List.mem_cons_self

/-- An old child takes the place of one of the new ones. -/
theorem oldFirst_leaves {new : List Nat} {old turns : Nat} (hold : old ∈ kids)
    (hchildren : sh.children = new ++ kids) (hnew : ∀ pid ∈ new, pid ∉ kids) (hpos : 0 < new.length)
    (hok : waitChildren (oldFirst old) turns new.length sh = .ok sh') :
    ∃ pid ∈ sh'.children, pid ∉ kids := by
  have hmem : old ∈ sh.children := hchildren ▸ List.mem_append_right new hold
  have hcount : ∀ l : List Nat, (new ++ l).countP (fun pid => decide (pid ∉ kids)) ≥ new.length := by
    intro l
    rw [List.countP_append]
    have hall : new.countP (fun pid => decide (pid ∉ kids)) = new.length :=
      List.countP_eq_length.mpr fun pid hpid => decide_eq_true (hnew pid hpid)
    omega
  obtain ⟨m, hm⟩ := Nat.exists_eq_succ_of_ne_zero (Nat.ne_of_gt hpos)
  cases turns with
  | zero =>
      rw [hm] at hok
      cases hok
  | succ turns =>
      have hne : sh.children ≠ [] := List.ne_nil_of_mem hmem
      have hfirst : oldFirst old sh.children = old := if_pos hmem
      rw [hm, waitChildren, if_neg hne, hfirst] at hok
      have hleft := waitChildren_countP (fun pid => decide (pid ∉ kids)) hok
      have herase : sh.children.erase old = new ++ kids.erase old := by
        rw [hchildren]
        exact List.erase_append_right kids fun hin => hnew old hin hold
      have hleft' : (sh.children.erase old).countP (fun pid => decide (pid ∉ kids)) ≤
          sh'.children.countP (fun pid => decide (pid ∉ kids)) + m := hleft
      rw [herase] at hleft'
      have hmany := hcount (kids.erase old)
      obtain ⟨pid, hpid, hnot⟩ := List.countP_pos_iff.mp (show 0 <
        sh'.children.countP (fun pid => decide (pid ∉ kids)) by omega)
      exact ⟨pid, hpid, of_decide_eq_true hnot⟩

/-! ## The whole call -/

/-- A file of a redirection does not open. -/
theorem exec_refused (sh : Shell F) (wait : List Nat → Nat) (turns : Nat)
    (h : ¬ Redirected k (redirections argv)) :
    ∃ sh', builtinExec k wait turns argv sh = .ok sh' ∧ sh'.files = sh.files ∧
      sh'.children = sh.children := by
  obtain ⟨sh', hdup, hfiles, hkids⟩ := dupfile_refused sh h
  exact ⟨sh', by rw [builtinExec, hdup], hfiles, hkids⟩

/-- The call behind `dupfile`: it returns at a command that is not found, or waits. -/
theorem exec_opened (sh : Shell F) (h : Redirected k (redirections argv)) :
    ∃ infd outfd errfd sh₁ st found sh₂,
      Ran k sh.files sh.children (outfd.toFinset ∪ errfd.toFinset) (names argv) ⟨true, infd, 0, 0⟩ st found
        sh₁ ∧
      (infd = none ↔ (redirections argv).infile = none) ∧
      (outfd = none ↔ (redirections argv).outfile = none) ∧
      (errfd = none ↔ (redirections argv).errfile = none) ∧
      (found = false → ∀ wait turns, builtinExec k wait turns argv sh = .ok sh₁) ∧
      (found = true → sh₂.files = sh.files ∧
        (∃ new, sh₂.children = new ++ sh.children ∧ new.length = st.count + 1 ∧
          ∀ pid ∈ new, pid ∉ sh.children) ∧
        ∀ wait turns, builtinExec k wait turns argv sh =
          waitChildren wait turns (st.count + 1) sh₂) := by
  obtain ⟨infd, outfd, errfd, sh', hdup, hholds, hapart, hin, hout, herr⟩ := dupfile_opened sh h
  obtain ⟨args, hargs⟩ : ∃ args, args = (redirect argv ⟨none, none, none, 0, 0⟩).1 := ⟨_, rfl⟩
  rw [← hargs] at hdup
  have hran := stages_ran k args ⟨true, infd, 0, 0⟩ hholds
  have hnames : commands true args = names argv := by rw [names, hargs]
  obtain ⟨⟨found, st, sh₁⟩, hstages⟩ : ∃ x, x = stages k args ⟨true, infd, 0, 0⟩ sh' := ⟨_, rfl⟩
  rw [← hstages, hnames] at hran
  refine ⟨infd, outfd, errfd, sh₁, st, found,
    (builtinCommand k st.infd outfd errfd st.pgid sh₁).2.2, hran, hin, hout, herr, ?_, ?_⟩
  · rintro rfl wait turns
    simp only [builtinExec, hdup, ← hstages]
  · rintro rfl
    obtain ⟨hfiles, hforked⟩ := last_holds hran.holds hapart k st.pgid
    refine ⟨hfiles, hforked, fun wait turns => ?_⟩
    simp only [builtinExec, hdup, ← hstages]

theorem toFinset_eq_empty {x : Option Nat} : x.toFinset = ∅ ↔ x = none := by
  cases x with
  | none => exact iff_of_true Option.toFinset_none rfl
  | some fd =>
      rw [Option.toFinset_some]
      exact iff_of_false (Finset.singleton_ne_empty fd) (Option.some_ne_none fd)

/-- A table with no more descriptors than before. -/
theorem Extends.eq_iff (h : Extends base t fds) : t = base ↔ fds = ∅ := by
  refine ⟨fun heq => ?_, h.eq_of_empty⟩
  by_contra hne
  obtain ⟨fd, hfd⟩ := Finset.nonempty_iff_ne_empty.mpr hne
  exact h.ne_of_mem hfd heq

/-- At a command that is not found nothing is open or running where it is the first
    one and there are no redirections. -/
theorem lost_clean {names : List Str} (h : Ran k base kids (outfd.toFinset ∪ errfd.toFinset) names
      ⟨true, infd, 0, 0⟩ st false sh) :
    (sh.files = base ∧ ∀ pid ∈ sh.children, pid ∈ kids) ↔
      (infd = none ∧ outfd = none ∧ errfd = none) ∧
        ∃ name rest, names = name :: rest ∧ ¬ k.stat 0 (program name) := by
  obtain ⟨-, name, hname, hstat, hbefore⟩ := h.lost rfl
  have hnext : Stage.next ⟨true, infd, 0, 0⟩ = 0 := rfl
  rw [hnext, Nat.sub_zero] at hname hbefore
  rw [h.holds.files.eq_iff, Finset.union_eq_empty, Finset.union_eq_empty, toFinset_eq_empty,
    toFinset_eq_empty, toFinset_eq_empty]
  constructor
  · rintro ⟨⟨hread, hout, herr⟩, -⟩
    have hzero : st.count = 0 := by
      by_contra hne
      exact h.reads (Nat.pos_of_ne_zero hne) hread
    have hin : infd = none := (h.same hzero.symm).symm.trans hread
    rw [hzero] at hname hstat
    cases names with
    | nil => cases hname
    | cons first rest =>
        obtain rfl : first = name := Option.some.inj hname
        exact ⟨⟨hin, hout, herr⟩, first, rest, rfl, hstat⟩
  · rintro ⟨⟨hin, hout, herr⟩, first, rest, rfl, hfirst⟩
    have hzero : st.count = 0 := by
      by_contra hne
      have hknown := hbefore 0 first (Nat.pos_of_ne_zero hne) rfl
      exact hfirst hknown
    refine ⟨⟨(h.same hzero.symm).trans hin, hout, herr⟩, fun pid hpid => ?_⟩
    obtain ⟨new, hnew, hlen, -⟩ := h.holds.forked
    rw [hzero] at hlen
    rw [hnew, List.length_eq_zero_iff.mp hlen] at hpid
    exact hpid

/-- The call leaves no descriptors and no children behind exactly for these arguments,
    and it returns. -/
theorem exec_clean (k : Kernel F) (argv : List Str) (sh : Shell F) :
    (Clean k argv sh ↔ Tidy k argv sh) ∧
      ∀ wait, Waits wait → ∃ turns sh', builtinExec k wait turns argv sh = .ok sh' := by
  by_cases hredirected : Redirected k (redirections argv)
  · obtain ⟨infd, outfd, errfd, sh₁, st, found, sh₂, hran, hin, hout, herr, hlost, hfound⟩ :=
      exec_opened sh hredirected
    have hstat := hran.found_iff
    have hnext : Stage.next ⟨true, infd, 0, 0⟩ = 0 := rfl
    simp only [hnext, Nat.zero_add] at hstat
    cases found with
    | false =>
        have hclean := lost_clean hran
        rw [hin, hout, herr] at hclean
        have hrun := hlost rfl
        refine ⟨⟨fun h => .inr (.inl (hclean.mp ?_)), fun h => ?_⟩,
          fun wait _ => ⟨0, sh₁, hrun wait 0⟩⟩
        · exact h (oldFirst 0) (oldFirst_waits 0) 0 sh₁ (hrun _ 0)
        · rcases h with h | h | ⟨-, h⟩
          · exact absurd hredirected h
          · intro wait _ turns sh' hok
            obtain rfl := Except.ok.inj ((hrun wait turns).symm.trans hok)
            exact hclean.mpr h
          · exact absurd (hstat.mpr h) Bool.false_ne_true
    | true =>
        obtain ⟨hfiles, ⟨new, hnew, hlen, hkids⟩, hrun⟩ := hfound rfl
        have hmany : st.count + 1 ≤ sh₂.children.length := by
          rw [hnew, List.length_append, hlen]
          exact Nat.le_add_right _ _
        have hreturns : ∀ wait, Waits wait →
            ∃ sh', builtinExec k wait (st.count + 1) argv sh = .ok sh' :=
          fun wait hwait => by
            rw [hrun]
            exact waitChildren_returns hwait sh₂ hmany
        refine ⟨⟨fun h => .inr (.inr ⟨?_, hstat.mp rfl⟩), fun h => ?_⟩, fun wait hwait =>
          ⟨_, hreturns wait hwait⟩⟩
        · -- an old child could be the one that is waited for
          by_contra hne
          obtain ⟨old, kids, hold⟩ := List.exists_cons_of_ne_nil hne
          obtain ⟨sh', hok⟩ := hreturns (oldFirst old) (oldFirst_waits old)
          have hmem : old ∈ sh.children := hold ▸ List.mem_cons_self
          have hok' := hok
          rw [hrun, ← hlen] at hok'
          obtain ⟨pid, hpid, hnot⟩ := oldFirst_leaves hmem hnew hkids (by omega) hok'
          exact hnot ((h _ (oldFirst_waits old) _ sh' hok).2 pid hpid)
        · rcases h with h | ⟨-, name, rest, hname, hunknown⟩ | ⟨hnone, -⟩
          · exact absurd hredirected h
          · exact absurd (hstat.mp rfl 0 name (by rw [hname]; rfl)) hunknown
          · intro wait hwait turns sh' hok
            rw [hrun] at hok
            obtain ⟨hsame, hleft, -⟩ := waitChildren_some hwait hmany hok
            refine ⟨hsame.trans hfiles, fun pid hpid => ?_⟩
            rw [hnew, hnone, List.append_nil, hlen] at hleft
            rw [List.length_eq_zero_iff.mp (show sh'.children.length = 0 by omega)] at hpid
            exact absurd hpid List.not_mem_nil
  · refine ⟨iff_of_true (fun wait _ turns sh' hok => ?_) (.inl hredirected), fun wait _ => ?_⟩
    · obtain ⟨sh₁, hrun, hfiles, hkids⟩ := exec_refused sh wait turns hredirected
      obtain rfl := Except.ok.inj (hrun.symm.trans hok)
      exact ⟨hfiles, fun pid hpid => hkids ▸ hpid⟩
    · obtain ⟨sh₁, hrun, -⟩ := exec_refused sh wait 0 hredirected
      exact ⟨0, sh₁, hrun⟩

/-! ## A pipeline into a command that is not found -/

/-- A new process number. -/
def largest (children : List Nat) : Nat := children.foldr max 0 + 1

theorem largest_unused (children : List Nat) : largest children ∉ children := by
  have hle : ∀ pid ∈ children, pid ≤ children.foldr max 0 := by
    intro pid hpid
    induction children with
    | nil => cases hpid
    | cons c children ih =>
        rcases List.mem_cons.mp hpid with rfl | hpid
        · exact Nat.le_max_left _ _
        · exact Nat.le_trans (ih hpid) (Nat.le_max_right _ _)
  exact fun hmem => absurd (hle _ hmem) (Nat.not_succ_le_self _)

/-- A kernel where everything opens and `/bin/a.out` is the only program. -/
def oneProgram : Kernel Unit where
  openFile _ _ _ := some ()
  stat _ name := name = program [0x61]
  pipe _ := ((), ())
  freeFd t := Nat.find (p := fun fd => t.file fd = none) (t.finite.imp fun n hn => hn n (Nat.le_refl n))
  newPid := largest
  freeFd_unused t := Nat.find_spec (p := fun fd => t.file fd = none)
    (t.finite.imp fun n hn => hn n (Nat.le_refl n))
  newPid_unused := largest_unused

/-- A shell without children and with no descriptors. -/
def freshShell : Shell Unit := ⟨⟨fun _ => none, ⟨0, fun _ _ => rfl⟩⟩, []⟩

/-- `a | b`, where there is no program `b`. -/
theorem pipe_leaked : ¬ Clean oneProgram [[0x61], bar, [0x62]] freshShell := by
  intro h
  obtain ⟨sh', hrun, hchildren⟩ : ∃ sh',
      builtinExec oneProgram (oldFirst 0) 0 [[0x61], bar, [0x62]] freshShell = .ok sh' ∧
        sh'.children = [1] := ⟨_, rfl, rfl⟩
  obtain ⟨-, hwaited⟩ := h (oldFirst 0) (oldFirst_waits 0) 0 sh' hrun
  exact absurd (hwaited 1 (hchildren ▸ List.mem_cons_self)) List.not_mem_nil

end NeonixShell
