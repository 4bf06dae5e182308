import Neonix.Namei

/-! # What a file system call leaves alone

    `Keeps P x` says that the call `x` keeps the property `P` of the state.  Most
    of a call reads and writes blocks: a property that does not look at their
    contents (`DiskFree`) is kept, whatever the blocks hold.  A path walk takes
    and drops in-memory inodes besides: what does not look at these either
    (`Fixed`) is kept by the walk. -/

namespace NeonixFrames

open NeonixMachine NeonixOutcome NeonixByteBits NeonixVolume NeonixCalls NeonixFileSystem
  NeonixNamei

/-- Partial correctness: no reason to stop is bad. -/
def never : Halt → Prop := fun _ => False

/-- The call keeps the property. -/
def Keeps {α : Type} (P : Kernel → Prop) (x : Fs α) : Prop := Triple never P x fun _ s => P s

/-- The property does not depend on the contents of the blocks. -/
def DiskFree (P : Kernel → Prop) : Prop := ∀ s d, P s → P { s with disk := d }

variable {P : Kernel → Prop} {α β : Type} {x : Fs α} {f : α → Fs β}

/-- Past an assertion it holds. -/
theorem from_assert {s : Kernel} {p : Prop} [Decidable p] {f : Unit → Fs β}
    {R : β → Kernel → Prop} (h : p → From never s (f ()) R) :
    From never s (assert p >>= f) R := by
  rw [assert]
  by_cases hp : p
  · rw [if_pos hp]
    exact h hp
  · rw [if_neg hp]
    exact fun _ _ _ => not_false

theorem getSuper_some {s : Kernel} {dev : Dev} {k : Nat} (h : getSuper s dev = some k) :
    k < SUPER_NR ∧ (s.super_table k).dev = dev := by
  have hdev := List.find?_some h
  exact ⟨List.mem_range.mp (List.mem_of_find?_eq_some h), of_decide_eq_true hdev⟩

theorem theSuper_spec {s : Kernel} {dev : Dev} :
    From never s (theSuper dev) fun k t => t = s ∧ getSuper s dev = some k := by
  refine From.get ?_
  cases hk : getSuper s dev with
  | none => exact From.stop not_false
  | some k => exact From.pure ⟨rfl, rfl⟩

theorem findInode_spec {s : Kernel} {dev : Dev} {nr : Nat} :
    From never s (findInode dev nr) fun found t => t = s ∧ ∃ k, getSuper s dev = some k ∧
      found = (s.super_table k).inode_list.find? fun i => (s.inode_table i).nr = nr := by
  refine From.bind theSuper_spec ?_
  rintro k _ ⟨rfl, hk⟩
  exact From.get (From.pure ⟨rfl, k, hk, rfl⟩)

theorem getFreeInode_spec {s : Kernel} :
    From never s getFreeInode fun i t => t = s ∧ i < INODE_NR ∧ (s.inode_table i).dev = EOF := by
  refine From.get ?_
  cases hi : (List.range INODE_NR).find? fun i => (s.inode_table i).dev = EOF with
  | none => exact From.stop not_false
  | some i =>
      have hdev := List.find?_some hi
      exact From.pure ⟨rfl, List.mem_range.mp (List.mem_of_find?_eq_some hi),
        of_decide_eq_true hdev⟩

/-- Past a function that reads no state its result is known. -/
theorem from_ofRes {s : Kernel} {r : Res α} {R : β → Kernel → Prop}
    (h : ∀ a, r = .ok a → From never s (f a) R) : From never s (ofRes r >>= f) R := by
  cases r with
  | error e => exact fun _ _ _ => not_false
  | ok a => exact h a rfl

/-- Past a dereference the pointer is not null. -/
theorem from_deref {s : Kernel} {p : Option α} {R : β → Kernel → Prop}
    (h : ∀ a, p = some a → From never s (f a) R) : From never s (deref p >>= f) R := by
  cases p with
  | none => exact fun _ _ _ => not_false
  | some a => exact h a rfl

theorem Keeps.bind (hx : Keeps P x) (hf : ∀ a, Keeps P (f a)) : Keeps P (x >>= f) :=
  Triple.bind hx hf

theorem Keeps.pure {a : α} : Keeps P (Pure.pure a : Fs α) := fun _ _ hs => hs

theorem Keeps.stop {e : Halt} : Keeps P (NeonixCalls.stop e : Fs α) := Triple.stop not_false

theorem Keeps.get : Keeps P (get : Fs Kernel) := fun _ _ hs => hs

theorem Keeps.fuel : Keeps P (fuel : Fs Nat) := fun _ _ hs => hs

theorem Keeps.ite {p : Prop} [Decidable p] {y : Fs α} (ht : Keeps P x) (he : Keeps P y) :
    Keeps P (if p then x else y) :=
  Triple.ite (fun _ => ht) fun _ => he

theorem Keeps.onlyIf {p : Prop} [Decidable p] {x : Fs Unit} (h : Keeps P x) :
    Keeps P (onlyIf p x) :=
  .ite h .pure

theorem Keeps.assert {p : Prop} [Decidable p] : Keeps P (assert p) := .ite .pure .stop

theorem Keeps.deref {a : Option α} : Keeps P (deref a) := by
  cases a with
  | none => exact .stop
  | some a => exact .pure

theorem Keeps.loop {f : Nat → Fs Unit} (hf : ∀ i, Keeps P (f i)) (lo n : Nat) :
    Keeps P (loop f lo n) :=
  Triple.loop (I := fun _ => P) lo n fun i _ _ => hf i

theorem keeps_runningTask : Keeps P runningTask := .bind .get fun _ => .deref

theorem keeps_theSuper {dev : Dev} : Keeps P (theSuper dev) := by
  refine .bind .get fun s => ?_
  cases getSuper s dev with
  | none => exact .stop
  | some k => exact .pure

theorem keeps_findInode {dev : Dev} {nr : Nat} : Keeps P (findInode dev nr) :=
  .bind keeps_theSuper fun _ => .bind .get fun _ => .pure

theorem keeps_permission {inode : Nat} {mask : BitVec 16} : Keeps P (permission inode mask) :=
  .bind .get fun _ => .ite .pure <| .bind keeps_runningTask fun _ => .ite .pure .pure

theorem keeps_ofRes {r : Res α} : Keeps P (ofRes r) := by
  cases r with
  | error e => exact .stop
  | ok a => exact .pure

theorem keeps_matchEntry {name : Str} {entry : Place} : Keeps P (matchEntry name entry) :=
  .bind .get fun _ => keeps_ofRes

section Disk

variable (hP : DiskFree P)
include hP

/-- A store to the contents of the blocks. -/
theorem keeps_modifyDisk {g : Kernel → Dev → Nat → Bytes} :
    Keeps P (modify fun s => { s with disk := g s }) :=
  fun _ s hs => hP s _ hs

theorem keeps_onVolume {dev : Dev} {f : Volume → Res (α × Volume)} : Keeps P (onVolume dev f) := by
  intro n s hs
  have hget : (get : Fs Kernel) n s = .ok (s, s) := rfl
  rw [onVolume, bind_run hget]
  cases getSuper s dev with
  | none => exact not_false
  | some k =>
      dsimp only
      cases f { desc := (s.super_table k).desc, disk := s.disk dev } with
      | error e => exact not_false
      | ok r => exact hP s _ hs

theorem keeps_ialloc {dev : Dev} : Keeps P (ialloc dev) := .bind (keeps_onVolume hP) fun _ => .pure

theorem keeps_slot {dev : Dev} {create : Bool} {array : Place} {index : Nat} :
    Keeps P (slot dev create array index) := by
  refine .bind .get fun s => .bind (.onlyIf ?_) fun _ => .bind .get fun _ => .pure
  exact .bind (.bind (keeps_onVolume hP) fun _ => .pure) fun _ => keeps_modifyDisk hP

theorem keeps_reckon {dev : Dev} {create : Bool} {level index block divider : Nat}
    {array : Place} : Keeps P (reckon dev create level array index block divider) := by
  induction level generalizing array index block divider with
  | zero => exact keeps_slot hP
  | succ level ih => exact .bind (keeps_slot hP) fun _ => .ite .pure ih

theorem keeps_bmap {inode block : Nat} {create : Bool} : Keeps P (bmap inode block create) := by
  refine Keeps.bind Keeps.assert fun _ => Keeps.bind Keeps.get fun s => ?_
  refine Keeps.ite ?_ ?_
  · exact keeps_reckon hP
  refine Keeps.ite ?_ ?_
  · exact keeps_reckon hP
  refine Keeps.bind ?_ ?_
  · exact Keeps.assert
  · intro _
    exact keeps_reckon hP

theorem keeps_inodeBfree {dev : Dev} {level index : Nat} {array : Place} :
    Keeps P (inodeBfree dev level array index) := by
  induction level generalizing array index with
  | zero => exact .bind .get fun _ => .ite .pure (keeps_onVolume hP)
  | succ level ih =>
      refine .bind .get fun _ => .ite .pure ?_
      exact .bind (.loop (fun _ => ih) _ _) fun _ => .bind .get fun _ => keeps_onVolume hP

theorem keeps_releaseZone {dev : Dev} {zone : Place} {level i : Nat} :
    Keeps P (releaseZone dev zone level i) :=
  .bind (keeps_inodeBfree hP) fun _ => keeps_modifyDisk hP

theorem keeps_inodeTruncate {inode : Nat} : Keeps P (inodeTruncate inode) := by
  refine .bind .get fun s => .ite .pure ?_
  refine .bind (.loop (fun _ => keeps_releaseZone hP) _ _) fun _ => ?_
  refine .bind (keeps_releaseZone hP) fun _ => .bind (keeps_releaseZone hP) fun _ => ?_
  exact .bind (keeps_modifyDisk hP) fun _ => keeps_modifyDisk hP

theorem keeps_entryAt {dir i : Nat} {create : Bool} {entry : Option Place} :
    Keeps P (entryAt dir i create entry) := by
  rw [entryAt]
  cases entry.filter fun entry => entry.off < BLOCK_SIZE with
  | none =>
      exact .bind (keeps_bmap hP) fun _ => .bind .assert fun _ => .bind .get fun _ => .pure
  | some entry => exact .pure

theorem keeps_findLoop {dir left i : Nat} {name next : Str} {entry : Option Place} :
    Keeps P (findLoop dir name left i entry next) := by
  induction left generalizing i entry next with
  | zero => exact .pure
  | succ left ih =>
      refine .bind (keeps_entryAt hP) fun _ => .bind keeps_matchEntry fun _ =>
        .bind .get fun _ => ?_
      exact .ite .pure ih

theorem keeps_addLoop {dir fuel i : Nat} {name : Str} {entry : Option Place} :
    Keeps P (addLoop dir name fuel i entry) := by
  induction fuel generalizing i entry with
  | zero => exact .stop
  | succ fuel ih =>
      refine .bind (keeps_entryAt hP) fun _ => .bind .get fun _ => .bind (.onlyIf ?_) fun _ =>
        .bind .get fun _ => .ite ih ?_
      · exact .bind (keeps_modifyDisk hP) fun _ => keeps_modifyDisk hP
      · exact .bind (keeps_modifyDisk hP) fun _ => .bind (keeps_modifyDisk hP) fun _ => .pure

theorem keeps_countLoop {inode left i count : Nat} {entry : Option Place} :
    Keeps P (countLoop inode left i entry count) := by
  induction left generalizing i entry count with
  | zero => exact .pure
  | succ left ih => exact .bind (keeps_entryAt hP) fun _ => .bind .get fun _ => ih

theorem keeps_isEmpty {inode : Nat} : Keeps P (isEmpty inode) :=
  .bind .get fun _ => .bind .assert fun _ => .bind .get fun _ => .ite .pure <|
    .bind (keeps_countLoop hP) fun _ => .pure

end Disk

/-! ## Path walks -/

/-- The property depends on the mounts, the open files and the tasks only. -/
def Fixed (P : Kernel → Prop) : Prop :=
  ∀ s t : Kernel, t.file_table = s.file_table → t.task_table = s.task_table →
    t.current = s.current → t.time = s.time →
    (∀ k, (t.super_table k).dev = (s.super_table k).dev ∧
      (t.super_table k).desc = (s.super_table k).desc ∧
      (t.super_table k).count = (s.super_table k).count ∧
      (t.super_table k).iroot = (s.super_table k).iroot ∧
      (t.super_table k).imount = (s.super_table k).imount) → P s → P t

theorem Fixed.diskFree (hP : Fixed P) : DiskFree P :=
  fun s _ hs => hP s _ rfl rfl rfl rfl (fun _ => ⟨rfl, rfl, rfl, rfl, rfl⟩) hs

theorem keeps_getFreeInode : Keeps P getFreeInode := by
  refine .bind .get fun s => ?_
  cases (List.range INODE_NR).find? fun i => (s.inode_table i).dev = EOF with
  | none => exact .stop
  | some i => exact .pure

section Walk

variable (hP : Fixed P)
include hP

/-- A store to one in-memory inode. -/
theorem keeps_setInode {g : Kernel → Nat} {f : Kernel → Inode → Inode} :
    Keeps P (modify fun s => s.setInode (g s) (f s)) :=
  fun _ s hs => hP s _ rfl rfl rfl rfl (fun _ => ⟨rfl, rfl, rfl, rfl, rfl⟩) hs

theorem keeps_putFreeInode {i : Nat} : Keeps P (putFreeInode i) :=
  .bind .assert fun _ => .bind .get fun _ => .bind .assert fun _ => keeps_setInode hP

theorem keeps_listRemove {i : Nat} : Keeps P (listRemove i) := by
  refine .bind .get fun s => .bind .assert fun _ => ?_
  exact fun _ s hs => hP s _ rfl rfl rfl rfl (fun _ => ⟨rfl, rfl, rfl, rfl, rfl⟩) hs

theorem keeps_putPipeInode {i : Nat} : Keeps P (putPipeInode i) :=
  .bind (keeps_setInode hP) fun _ => .bind .get fun _ => .ite .pure <|
    .bind (keeps_setInode hP) fun _ => keeps_putFreeInode hP

theorem keeps_iput {i : Option Nat} : Keeps P (iput i) := by
  cases i with
  | none => exact .pure
  | some i =>
      refine .bind .get fun _ => .ite (keeps_putPipeInode hP) ?_
      refine .bind (keeps_setInode hP) fun _ => .bind .get fun _ => .ite .pure ?_
      exact .bind (keeps_listRemove hP) fun _ => keeps_putFreeInode hP

theorem keeps_fitInode {i : Nat} : Keeps P (fitInode i) := by
  refine .bind .get fun _ => .ite .pure (.bind keeps_theSuper fun _ => ?_)
  refine .bind (keeps_iput hP) fun _ => .bind .get fun _ => .bind .deref fun _ => ?_
  exact .bind (keeps_setInode hP) fun _ => .pure

theorem keeps_pushList {k i : Nat} : Keeps P (modify fun s =>
    s.setSuper k fun sb => { sb with inode_list := i :: sb.inode_list }) := by
  intro _ s hs
  refine hP s _ rfl rfl rfl rfl (fun j => ?_) hs
  by_cases hj : j = k
  · subst hj
    simp only [Kernel.setSuper, Function.update_self, and_self]
  · simp only [Kernel.setSuper, Function.update_of_ne hj, and_self]

theorem keeps_iget {dev : Dev} {nr : Nat} : Keeps P (iget dev nr) := by
  refine .bind keeps_findInode fun found => ?_
  cases found with
  | some i => exact .bind (keeps_setInode hP) fun _ => keeps_fitInode hP
  | none =>
      refine .bind keeps_theSuper fun _ => .bind .get fun _ => .bind .assert fun _ => ?_
      refine .bind keeps_getFreeInode fun _ => .bind (keeps_setInode hP) fun _ => ?_
      refine .bind .get fun _ => .bind .assert fun _ => .bind (keeps_pushList hP) fun _ => ?_
      exact .bind (keeps_setInode hP) fun _ => .pure

end Walk

/-- The property is kept by the calls a path walk is made of. -/
structure Stable (P : Kernel → Prop) : Prop where
  diskFree : DiskFree P
  hold : ∀ g : Kernel → Nat, Keeps P (modify fun s => s.hold (g s))
  iput : ∀ i, Keeps P (iput i)
  iget : ∀ dev nr, Keeps P (iget dev nr)

theorem Fixed.stable (hP : Fixed P) : Stable P where
  diskFree := hP.diskFree
  hold := fun _ => keeps_setInode hP
  iput := fun _ => keeps_iput hP
  iget := fun _ _ => keeps_iget hP

section Stable

variable (hP : Stable P)
include hP

theorem keeps_crossUp {dir : Nat} : Keeps P (crossUp dir) := by
  refine .bind .get fun _ => .bind .get fun _ => .bind .deref fun _ => .bind .get fun _ => ?_
  refine .bind .deref fun _ => .bind (hP.hold _) fun _ => ?_
  exact .bind (hP.iput _) fun _ => .pure

theorem keeps_startDir {dir : Nat} {up : Bool} : Keeps P (startDir dir up) :=
  .bind .get fun _ => .ite (keeps_crossUp hP) .pure

theorem keeps_findEntry {dir : Nat} {name next : Str} : Keeps P (findEntry dir name next) := by
  refine .bind .get fun _ => .bind .assert fun _ => .bind keeps_ofRes fun _ => ?_
  refine .bind (keeps_startDir hP) fun _ => .bind .get fun _ => ?_
  exact .bind (keeps_findLoop hP.diskFree) fun _ => .pure

theorem keeps_addEntry {dir : Nat} {name : Str} : Keeps P (addEntry dir name) := by
  refine .bind (keeps_findEntry hP) fun r => ?_
  obtain ⟨entry, dir', next⟩ := r
  cases entry with
  | some entry => exact .pure
  | none =>
      exact .bind .assert fun _ => .bind .fuel fun _ => keeps_addLoop hP.diskFree

theorem keeps_namedLoop {fuel inode : Nat} {right left next : Str} :
    Keeps P (namedLoop right fuel inode left next) := by
  induction fuel generalizing inode left next with
  | zero => exact .stop
  | succ fuel ih =>
      refine .bind (keeps_findEntry hP) fun r => ?_
      obtain ⟨entry, inode', next'⟩ := r
      cases entry with
      | none => exact .bind (hP.iput _) fun _ => .pure
      | some entry =>
          refine .bind .get fun _ => .bind (hP.iput _) fun _ => .bind .get fun _ => ?_
          refine .bind (hP.iget _ _) fun _ => .bind .get fun _ => .ite ?_ ?_
          · exact .bind (hP.iput _) fun _ => .pure
          · refine .bind keeps_permission fun _ => .ite ?_ (.ite .pure ih)
            exact .bind (hP.iput _) fun _ => .pure

theorem keeps_namedFrom {inode : Nat} {left : Str} : Keeps P (namedFrom inode left) := by
  refine .bind (hP.hold _) fun _ => .ite .pure ?_
  cases strrsep left with
  | none => exact .pure
  | some right => exact .bind .fuel fun _ => keeps_namedLoop hP

theorem keeps_named {pathname : Str} : Keeps P (named pathname) := by
  refine .bind keeps_runningTask fun task => ?_
  cases pathname with
  | nil => exact .pure
  | cons c rest => exact .ite (keeps_namedFrom hP) (keeps_namedFrom hP)

theorem keeps_namei {pathname : Str} : Keeps P (namei pathname) := by
  refine .bind (keeps_named hP) fun r => ?_
  rcases r with ⟨_ | dir, _ | ⟨c, next⟩⟩
  · exact .pure
  · exact .pure
  · exact .pure
  · refine .bind (keeps_findEntry hP) fun r => ?_
    obtain ⟨entry, dir', _⟩ := r
    cases entry with
    | none => exact .bind (hP.iput _) fun _ => .pure
    | some entry =>
        refine .bind .get fun _ => .bind (hP.iget _ _) fun _ => ?_
        exact .bind (hP.iput _) fun _ => .pure

theorem keeps_newInode {dev : Dev} {nr : Nat} : Keeps P (newInode dev nr) := by
  have hd := hP.diskFree
  refine .bind keeps_runningTask fun _ => .bind (hP.iget _ _) fun _ => ?_
  refine .bind (keeps_modifyDisk hd) fun _ => .bind (keeps_modifyDisk hd) fun _ => ?_
  refine .bind (keeps_modifyDisk hd) fun _ => .bind (keeps_modifyDisk hd) fun _ => ?_
  exact .bind (keeps_modifyDisk hd) fun _ => .bind (keeps_modifyDisk hd) fun _ => .pure

theorem keeps_makeup {dir inode : Nat} {flag : BitVec 32} : Keeps P (makeup dir inode flag) := by
  have hfail : Keeps P (do iput (some dir); iput (some inode); return none : Fs (Option Nat)) :=
    .bind (hP.iput _) fun _ => .bind (hP.iput _) fun _ => .pure
  refine .bind keeps_permission fun _ => .ite hfail (.bind .get fun _ => .ite hfail ?_)
  refine .bind (.onlyIf (keeps_inodeTruncate hP.diskFree)) fun _ => ?_
  exact .bind (hP.iput _) fun _ => .pure

theorem keeps_inodeOpen {pathname : Str} {flag mode : BitVec 32} :
    Keeps P (inodeOpen pathname flag mode) := by
  have hd := hP.diskFree
  refine .bind (keeps_named hP) fun r => ?_
  rcases r with ⟨_ | dir, _ | ⟨c, next⟩⟩
  · exact .pure
  · exact .pure
  · exact .pure
  refine .bind (keeps_findEntry hP) fun r => ?_
  obtain ⟨entry, dir', _⟩ := r
  cases entry with
  | some entry =>
      exact .bind .get fun _ => .bind (hP.iget _ _) fun _ => keeps_makeup hP
  | none =>
      have hfail : Keeps P (do iput (some dir'); return none : Fs (Option Nat)) :=
        .bind (hP.iput _) fun _ => .pure
      refine .ite hfail (.bind keeps_permission fun _ => .ite hfail ?_)
      refine .bind (keeps_addEntry hP) fun _ => .bind .get fun _ =>
        .bind (keeps_ialloc hd) fun _ => ?_
      refine .bind (keeps_modifyDisk hd) fun _ => .bind .get fun _ => ?_
      refine .bind (keeps_newInode hP) fun _ => .bind keeps_runningTask fun _ => ?_
      exact .bind (keeps_modifyDisk hd) fun _ => keeps_makeup hP

theorem keeps_rollback {L : List Nat} : Keeps P (rollback L) := by
  induction L with
  | nil => exact .pure
  | cons i L ih => exact .bind (hP.iput _) fun _ => ih

end Stable

end NeonixFrames
