import Neonix.PathResolution
import Neonix.CreatedNames

/-! # Calls that do not look at the disks

    `iget` and `iput` work on the tables alone: a `Blind` call does the same
    whatever the blocks hold, and leaves them as they are.  So what is known of
    these calls along a path walk still holds where the walk's caller has written
    to blocks meanwhile (`Over`). -/

namespace NeonixBlindCalls

open NeonixMachine NeonixOutcome NeonixByteBits NeonixVolume NeonixCalls NeonixFileSystem
  NeonixNamei NeonixFrames NeonixInodeRefs NeonixPathRefs NeonixResolver NeonixWalks
  NeonixPathResolution NeonixBlockTrees

/-- The same tables over other blocks. -/
def onDisk (s : Kernel) (disk : Dev → Nat → Bytes) : Kernel := { s with disk := disk }

/-- The call does the same over any blocks, and leaves them. -/
def Blind {α : Type} (x : Fs α) : Prop :=
  ∀ n s disk, x n (onDisk s disk) = (x n s).map fun r => (r.1, onDisk r.2 disk)

variable {α β : Type} {bad : Halt → Prop} {s t u : Kernel} {x y : Fs α} {f : α → Fs β}
  {L : List Nat} {i j k : Nat}

theorem Blind.pure {a : α} : Blind (Pure.pure a : Fs α) := fun _ _ _ => rfl

theorem Blind.stop {e : Halt} : Blind (NeonixCalls.stop e : Fs α) := fun _ _ _ => rfl

theorem Blind.bind (hx : Blind x) (hf : ∀ a, Blind (f a)) : Blind (x >>= f) := by
  intro n s disk
  show (x n (onDisk s disk) >>= fun r => f r.1 n r.2) = (x n s >>= fun r => f r.1 n r.2).map _
  rw [hx]
  cases x n s with
  | error e => rfl
  | ok r => exact hf r.1 n r.2 disk

/-- The state is read for its tables. -/
theorem Blind.get {f : Kernel → Fs β} (h : ∀ s disk, f (onDisk s disk) = f s)
    (hf : ∀ s, Blind (f s)) : Blind (get >>= f) := by
  intro n s disk
  show f (onDisk s disk) n (onDisk s disk) = (f s n s).map _
  rw [h]
  exact hf s n s disk

/-- A store to the tables. -/
theorem Blind.modify {g : Kernel → Kernel} (h : ∀ s disk, g (onDisk s disk) = onDisk (g s) disk) :
    Blind (modify g : Fs PUnit) := by
  intro n s disk
  show Except.ok (PUnit.unit, g (onDisk s disk)) = _
  rw [h]
  rfl

theorem Blind.ite {p : Prop} [Decidable p] (ht : Blind x) (he : Blind y) :
    Blind (if p then x else y) := by
  by_cases h : p
  · rw [if_pos h]
    exact ht
  · rw [if_neg h]
    exact he

theorem Blind.assert {p : Prop} [Decidable p] : Blind (assert p) := .ite .pure .stop

theorem Blind.deref {a : Option α} : Blind (deref a) := by
  cases a with
  | none => exact .stop
  | some a => exact .pure

/-- What holds of the call holds of it over other blocks. -/
theorem Blind.from (h : Blind x) {Q : α → Kernel → Prop} (hx : From bad (onDisk t s.disk) x Q) :
    From bad t x fun a u => u.disk = t.disk ∧ Q a (onDisk u s.disk) := by
  rintro n t rfl
  have hend := hx n _ rfl
  have hown := h n t t.disk
  rw [h] at hend
  cases hr : x n t with
  | error e =>
      rw [hr] at hend
      exact hend
  | ok r =>
      rw [hr] at hend
      change x n t = (x n t).map _ at hown
      rw [hr] at hown
      refine ⟨?_, hend⟩
      rw [(Prod.mk.inj (Except.ok.inj hown)).2]
      rfl

/-! ## Of the inode table -/

theorem blind_runningTask : Blind runningTask := .get (fun _ _ => rfl) fun _ => .deref

theorem blind_theSuper {dev : Dev} : Blind (theSuper dev) := by
  refine .get (fun _ _ => rfl) fun s => ?_
  cases getSuper s dev with
  | none => exact .stop
  | some k => exact .pure

theorem blind_findInode {dev : Dev} {nr : Nat} : Blind (findInode dev nr) :=
  .bind blind_theSuper fun _ => .get (fun _ _ => rfl) fun _ => .pure

theorem blind_getFreeInode : Blind getFreeInode := by
  refine .get (fun _ _ => rfl) fun s => ?_
  cases (List.range INODE_NR).find? fun i => (s.inode_table i).dev = EOF with
  | none => exact .stop
  | some i => exact .pure

theorem blind_putFreeInode : Blind (putFreeInode i) :=
  .bind .assert fun _ => .get (fun _ _ => rfl) fun _ => .bind .assert fun _ =>
  .modify fun _ _ => rfl

theorem blind_putPipeInode : Blind (putPipeInode i) :=
  .bind (.modify fun _ _ => rfl) fun _ => .get (fun _ _ => rfl) fun _ => .ite .pure <|
    .bind (.modify fun _ _ => rfl) fun _ => blind_putFreeInode

theorem blind_listRemove : Blind (listRemove i) :=
  .get (fun _ _ => rfl) fun _ => .bind .assert fun _ => .modify fun _ _ => rfl

theorem blind_iput {i : Option Nat} : Blind (iput i) := by
  cases i with
  | none => exact .pure
  | some i =>
      refine .get (fun _ _ => rfl) fun _ => .ite blind_putPipeInode ?_
      refine .bind (.modify fun _ _ => rfl) fun _ => .get (fun _ _ => rfl) fun _ => .ite .pure ?_
      exact .bind blind_listRemove fun _ => blind_putFreeInode

theorem blind_fitInode : Blind (fitInode i) := by
  refine .get (fun _ _ => rfl) fun _ => .ite .pure (.bind blind_theSuper fun _ => ?_)
  refine .bind blind_iput fun _ => .get (fun _ _ => rfl) fun _ => .bind .deref fun _ => ?_
  exact .bind (.modify fun _ _ => rfl) fun _ => .pure

theorem blind_iget {dev : Dev} {nr : Nat} : Blind (iget dev nr) := by
  refine .bind blind_findInode fun found => ?_
  cases found with
  | some i => exact .bind (.modify fun _ _ => rfl) fun _ => blind_fitInode
  | none =>
      refine .bind blind_theSuper fun _ => .get (fun _ _ => rfl) fun _ => .bind .assert fun _ => ?_
      refine .bind blind_getFreeInode fun _ => .bind (.modify fun _ _ => rfl) fun _ => ?_
      refine .get (fun _ _ => rfl) fun _ => .bind .assert fun _ => ?_
      exact .bind (.modify fun _ _ => rfl) fun _ => .bind (.modify fun _ _ => rfl) fun _ => .pure

/-! ## Walks over other blocks -/

/-- The tables are those of a walk from `s` that holds `L`; the blocks may be others. -/
def Over (s : Kernel) (L : List Nat) (u : Kernel) : Prop := Walk s L (onDisk u s.disk)

theorem over_of_walk (h : Walk s L t) : Over s L t := by
  have hdisk : s.disk = t.disk := by rw [h.frame]
  rw [Over, hdisk]
  exact h

theorem Over.within {dev : Dev} {W : Nat → Nat → Prop} (h : Over s L u) (hw : Within dev W u t) :
    Over s L t := by
  rw [Over, hw.tables]
  exact h

/-- The descriptor of a slot is that of its inode. -/
theorem Over.desc (h : Over s L u) (hi : i ∈ L) :
    descOf s (slotNode u i) = some (u.desc i) := by
  have hw : Walk s L (onDisk u s.disk) := h
  exact hw.desc (Or.inr hi) (hw.plain i hi)

theorem iput_over (hs : Tree s) (h : Over s (i :: L) t) :
    From bad t (iput (some i)) fun _ u => u.disk = t.disk ∧ Over s L u ∧ ∀ j ∈ L, SameSlot t u j :=
  blind_iput.from (iput_same hs h)

theorem iget_over {n : Node} {m : Nat} (hs : Tree s) (h : Over s L t) (hstop : MayStop bad s m)
    (hL : L.length ≤ m) (hk : getSuper s n.dev = some k)
    (hnr : 1 ≤ n.nr ∧ n.nr ≤ (s.super_table k).desc.inodes) (hn : n.dev ≠ EOF) :
    From bad t (iget n.dev n.nr) fun r u =>
      u.disk = t.disk ∧ Over s (r :: L) u ∧ slotNode u r = NeonixResolver.mounted s n ∧
        ∀ j ∈ L, SameSlot t u j :=
  blind_iget.from (iget_same hs h hstop hL hk hnr hn)

end NeonixBlindCalls
