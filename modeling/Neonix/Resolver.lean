import Neonix.Directories

/-! # The reference for path walks

    A path is resolved component by component, over inodes as pairs of a device
    and a number, without in-memory inodes, pointers into the path or buffers.
    `resolveParent` is the directory before the last component and that component,
    `resolve` the inode of the path. -/

namespace NeonixResolver

open NeonixMachine NeonixByteBits NeonixWords NeonixVolume NeonixFileSystem NeonixNamei
  NeonixComponents NeonixDirectories

/-- An inode of a device. -/
structure Node where
  dev : Dev
  nr : Nat
  deriving DecidableEq

/-- The inode in a slot of the inode table. -/
def slotNode (s : Kernel) (i : Nat) : Node where
  dev := (s.inode_table i).dev
  nr := (s.inode_table i).nr

/-- Where the descriptor of an inode is. -/
def descOf (s : Kernel) (n : Node) : Option Place :=
  (getSuper s n.dev).map fun k => inodeDesc (s.super_table k).desc n.dev n.nr

/-- Where the file system of an inode is mounted. -/
def mountedAt (s : Kernel) (n : Node) : Option Node := do
  let k ← getSuper s n.dev
  let m ← (s.super_table k).imount
  return slotNode s m

/-- The in-memory inode is a mount point: the root directory mounted there. -/
def mounted (s : Kernel) (n : Node) : Node :=
  match (List.range INODE_NR).find? fun i => slotNode s i = n with
  | none => n
  | some i =>
      if (s.inode_table i).mount = 0 then n else { dev := (s.inode_table i).mount, nr := 1 }

/-- The directory a name is looked up in: `..` leads out of the root directory of a
    file system to where that is mounted. -/
def dirOf (s : Kernel) (n : Node) (name : Str) : Option Node :=
  if name = dotdot ∧ n.nr = 1 then mountedAt s n else some n

/-- The inode of a name in a directory. -/
def step (s : Kernel) (n : Node) (name : Str) : Option Node :=
  if name = [] then none
  else do
    let d ← dirOf s n name
    let desc ← descOf s d
    let e ← lookup s desc name
    return mounted s { dev := d.dev, nr := s.entryNr (entryPlace s desc e) }

/-- What `permission` answers for the inode with a descriptor. -/
def permits (s : Kernel) (task : Task) (desc : Place) (mask : BitVec 16) : Prop :=
  s.bytes desc 13 ≠ 0 ∧
    (task.uid = KERNEL_USER ∨
      (if task.uid = (u16At (s.bytes desc) 2).toNat then u16At (s.bytes desc) 0 >>> 6
        else if task.gid = (s.bytes desc 12).toNat then u16At (s.bytes desc) 0 >>> 3
        else u16At (s.bytes desc) 0) &&& mask &&& 0b111 = mask)

instance (s : Kernel) (task : Task) (desc : Place) (mask : BitVec 16) :
    Decidable (permits s task desc mask) := inferInstanceAs (Decidable (_ ∧ _))

/-- A directory with execute permission. -/
def Searchable (s : Kernel) (task : Task) (n : Node) : Prop :=
  ∃ desc ∈ descOf s n, ISDIR (u16At (s.bytes desc) 0) ∧ permits s task desc P_EXEC

instance (s : Kernel) (task : Task) (n : Node) : Decidable (Searchable s task n) :=
  match h : descOf s n with
  | none => .isFalse fun ⟨_, hd, _⟩ => by rw [h] at hd; cases hd
  | some desc =>
      decidable_of_iff (ISDIR (u16At (s.bytes desc) 0) ∧ permits s task desc P_EXEC)
        ⟨fun hp => ⟨desc, h, hp⟩, fun ⟨_, hd, hp⟩ => by
          rw [h] at hd
          rw [Option.mem_some_iff.mp hd]
          exact hp⟩

/-- From a directory through all components but the last. -/
def parent (s : Kernel) (task : Task) : Node → List Str → Option (Node × Str)
  | _, [] => none
  | n, [last] => some (n, last)
  | n, name :: next :: names => do
      let m ← step s n name
      if Searchable s task m then parent s task m (next :: names) else none

/-- Where a path starts, and the rest of it. -/
def startOf (s : Kernel) (task : Task) : Str → Option (Node × Str)
  | [] => none
  | c :: path =>
      if isSeparator c then some (slotNode s task.iroot, path)
      else some (slotNode s task.ipwd, c :: path)

/-- The directory before the last component, and that component. -/
def resolveParent (s : Kernel) (task : Task) (path : Str) : Option (Node × Str) := do
  let (n, path) ← startOf s task path
  parent s task n (components path)

/-- The inode of a path. -/
def resolve (s : Kernel) (task : Task) (path : Str) : Option Node := do
  let (n, last) ← resolveParent s task path
  if last = [] then some n else step s n last

end NeonixResolver
