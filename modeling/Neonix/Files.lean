import Neonix.Namei
import Neonix.Runs

/-! # Descriptors, and the calls of tasks on the file system

    `fs/file.c`, `sys_pipe`, `sys_stat`, and what `task_fork`, `task_exit` and
    `sys_execve` do to the tables of the file system.  `system` runs completed
    calls one after the other, each by any task. -/

namespace NeonixFiles

open NeonixMachine NeonixCalls NeonixFileSystem NeonixNamei NeonixRuns

/-- `get_file`. -/
def getFile : Fs Nat := do
  let s ← get
  match (List.range' 3 (FILE_NR - 3)).find? fun k => (s.file_table k).count = 0 with
  | none => halt .panic
  | some k =>
      modify fun s => s.setFile k fun file => { file with count := file.count + 1 }
      return k

/-- `put_file`. -/
def putFile (k : Nat) : Fs Unit := do
  assert (((← get).file_table k).count > 0)
  modify fun s => s.setFile k fun file => { file with count := file.count - 1 }
  let file := (← get).file_table k
  onlyIf (file.count = 0) (iput file.inode)

/-- `task_get_fd` of the running task. -/
def taskGetFd : Fs Nat := do
  let task ← runningTask
  match (List.range' 3 (TASK_FILE_NR - 3)).find? fun fd => task.files fd = none with
  | none => halt .panic
  | some fd => return fd

/-- `task->files[fd] = file` of the running task. -/
def setFd (fd : Nat) (file : Option Nat) : Fs Unit :=
  modify fun s => s.setTask fun task => { task with files := Function.update task.files fd file }

/-- `sys_open`. -/
def sysOpen (filename : Str) (flags mode : BitVec 32) : Fs Int := do
  match ← inodeOpen filename flags mode with
  | none => return EOF
  | some inode =>
      let fd ← taskGetFd
      let file ← getFile
      assert ((← runningTask).files fd = none)
      setFd fd (some file)
      modify fun s => s.setFile file fun _ =>
        { inode := some inode, count := 1, offset := 0, flags := flags, mode := s.mode inode }
      onlyIf (flags &&& O_APPEND ≠ 0) do
        modify fun s => s.setFile file fun file =>
          { file with offset := (BitVec.ofNat 32 (s.size inode)).toInt }
      return fd

/-- `sys_creat`. -/
def sysCreat (filename : Str) (mode : BitVec 32) : Fs Int :=
  sysOpen filename (O_CREAT ||| O_TRUNC) mode

/-- `task->files[fd]` of the running task, for an `fd` below the length. -/
def getFd (fd : Int) : Fs (Option Nat) := do
  if fd < 0 then halt .outOfBounds
  else
    let task ← runningTask
    return task.files fd.toNat

/-- `sys_close`. -/
def sysClose (fd : Int) : Fs Unit := do
  assert (fd < TASK_FILE_NR)
  match ← getFd fd with
  | none => return ()
  | some file =>
      assert (((← get).file_table file).inode.isSome)
      putFile file
      setFd fd.toNat none

/-- `dupfd`. -/
def dupfd (fd arg : Int) : Fs Int := do
  if fd ≥ TASK_FILE_NR then return EOF
  else
    match ← getFd fd with
    | none => return EOF
    | some file =>
        if arg ≥ TASK_FILE_NR then return EOF
        else if arg < 0 then halt .outOfBounds
        else
          let task ← runningTask
          match (List.range' arg.toNat (TASK_FILE_NR - arg.toNat)).find? fun fd =>
              task.files fd = none with
          | none => return EOF
          | some arg =>
              setFd arg (some file)
              modify fun s => s.setFile file fun file => { file with count := file.count + 1 }
              return arg

/-- `sys_dup`. -/
def sysDup (oldfd : Int) : Fs Int := dupfd oldfd 0

/-- `sys_dup2`. -/
def sysDup2 (oldfd newfd : Int) : Fs Int := do
  sysClose newfd
  dupfd oldfd newfd

/-- `sys_pipe`. -/
def sysPipe : Fs Int := do
  let inode ← getPipeInode
  let fd0 ← taskGetFd
  let file0 ← getFile
  setFd fd0 (some file0)
  let fd1 ← taskGetFd
  let file1 ← getFile
  setFd fd1 (some file1)
  modify fun s => s.setFile file0 fun file =>
    { file with inode := some inode, flags := O_RDONLY }
  modify fun s => s.setFile file1 fun file =>
    { file with inode := some inode, flags := O_WRONLY }
  return 0

/-- `sys_stat`, less the copy to the caller. -/
def sysStat (filename : Str) : Fs Int := do
  match ← namei filename with
  | none => return EOF
  | some inode =>
      iput (some inode)
      return 0

/-- `sys_execve`, less what it does to the address space; `loaded` says whether
    `load_elf` finds a program. -/
def sysExecve (filename : Str) (loaded : Bool) : Fs Int := do
  match ← namei filename with
  | none => rollback []
  | some inode =>
      if ¬ ISFILE ((← get).mode inode) then rollback [inode]
      else if ¬ (← permission inode P_EXEC) then rollback [inode]
      else if loaded = false then rollback [inode]
      else
        let task ← runningTask
        iput task.iexec
        modify fun s => s.setTask fun task => { task with iexec := some inode }
        return 0

/-- `if (task->iexec) task->iexec->count++;` -/
def shareExec : Option Nat → Fs Unit
  | none => return ()
  | some iexec => modify fun s => s.hold iexec

/-- The references a child takes to the files of its father. -/
def shareFile (task : Task) (fd : Nat) : Fs Unit :=
  match task.files fd with
  | none => return ()
  | some file => modify fun s => s.setFile file fun file => { file with count := file.count + 1 }

/-- `task_fork`; the slot of the child is filled when the copy is complete. -/
def taskFork : Fs Int := do
  let task ← runningTask
  assert (task.died = false)
  let s ← get
  match (List.range TASK_NR).find? fun i => (s.task_table i).isNone with
  | none => halt .panic
  | some child =>
      modify fun s => s.hold task.ipwd
      modify fun s => s.hold task.iroot
      shareExec task.iexec
      loop (shareFile task) 0 TASK_FILE_NR
      modify fun s => s.putTask child (some task)
      return child

/-- `close(i)` of a dying task, if the descriptor is used. -/
def closeFd (fd : Nat) : Fs Unit := do
  match (← runningTask).files fd with
  | none => return ()
  | some _ => sysClose fd

/-- `task_exit`, from `state = TASK_DIED` to the last `close`. -/
def taskExit : Fs Unit := do
  let task ← runningTask
  assert (task.died = false)
  modify fun s => s.setTask fun task => { task with died := true }
  iput (some task.ipwd)
  iput (some task.iroot)
  iput task.iexec
  loop closeFd 0 TASK_FILE_NR

/-- A call of a task. -/
inductive Syscall where
  | open (filename : Str) (flags mode : BitVec 32)
  | creat (filename : Str) (mode : BitVec 32)
  | pipe
  | dup (oldfd : Int)
  | dup2 (oldfd newfd : Int)
  | close (fd : Int)
  | fork
  | exit
  | chdir (pathname : Str)
  | chroot (pathname : Str)
  | execve (filename : Str) (loaded : Bool)
  | stat (filename : Str)
  | mkdir (pathname : Str) (mode : BitVec 32)
  | rmdir (pathname : Str)
  | link (oldname newname : Str)
  | unlink (filename : Str)
  | mknod (filename : Str) (mode dev : BitVec 32)

/-- What a call runs. -/
def perform : Syscall → Fs Unit
  | .open filename flags mode => do let _ ← sysOpen filename flags mode
  | .creat filename mode => do let _ ← sysCreat filename mode
  | .pipe => do let _ ← sysPipe
  | .dup oldfd => do let _ ← sysDup oldfd
  | .dup2 oldfd newfd => do let _ ← sysDup2 oldfd newfd
  | .close fd => sysClose fd
  | .fork => do let _ ← taskFork
  | .exit => taskExit
  | .chdir pathname => do let _ ← sysChdir pathname
  | .chroot pathname => do let _ ← sysChroot pathname
  | .execve filename loaded => do let _ ← sysExecve filename loaded
  | .stat filename => do let _ ← sysStat filename
  | .mkdir pathname mode => do let _ ← sysMkdir pathname mode
  | .rmdir pathname => do let _ ← sysRmdir pathname
  | .link oldname newname => do let _ ← sysLink oldname newname
  | .unlink filename => do let _ ← sysUnlink filename
  | .mknod filename mode dev => do let _ ← sysMknod filename mode dev

/-- A step: a task completes a call, whose unbounded loops take at most `fuel`
    turns; or a dead task is waited for. -/
inductive Event where
  | call (task fuel : Nat) (time : BitVec 32) (syscall : Syscall)
  | reap (task : Nat)

/-- The step of an event that can happen. -/
def exec (s : Kernel) : Event → Except Halt Kernel
  | .call task fuel time syscall => do
      let (_, s) ← perform syscall fuel { s with current := task, time := time }
      return s
  | .reap task => return s.putTask task none

/-- When an event can happen: a live task calls, a dead task is waited for. -/
def Enabled (s : Kernel) : Event → Prop
  | .call task _ _ _ => ((s.task_table task).any fun t => !t.died) = true
  | .reap task => ((s.task_table task).any fun t => t.died) = true

instance (s : Kernel) : (e : Event) → Decidable (Enabled s e)
  | .call _ _ _ _ | .reap _ => inferInstanceAs (Decidable (_ = _))

end NeonixFiles
