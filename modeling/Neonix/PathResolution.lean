import Neonix.ReferenceCounts
import Neonix.Walks

/-! # Path walks find what the reference does

    `findEntry_walk` is one step of a walk: the directory it looks in and the entry
    it finds are those of the reference.  By induction on the components the loop
    of `named` is `parent`, so `named` and `namei` return the slots that hold what
    `resolveParent` and `resolve` name. -/

namespace NeonixPathResolution

open NeonixMachine NeonixOutcome NeonixByteBits NeonixWords NeonixVolume NeonixCalls
  NeonixFileSystem NeonixNamei NeonixFrames NeonixInodeRefs NeonixPathRefs NeonixComponents
  NeonixDirectories NeonixResolver NeonixReferenceCounts NeonixWalks

variable {bad : Halt → Prop} {s t u : Kernel} {L : List Nat} {i k dir : Nat} {path next : Str}

/-! ## One step -/

/-- `..` leaves the root directory of a file system. -/
theorem crossUp_walk (hs : Tree s) (h : Walk s (dir :: L) t) :
    From bad t (crossUp dir) fun m u => Walk s (m :: L) u ∧ DirSlot u m ∧
      mountedAt s (slotNode t dir) = some (slotNode u m) := by
  have hdev := h.used (Or.inr (List.mem_cons_self (a := dir) (l := L)))
  have hpipe := h.plain dir List.mem_cons_self
  obtain ⟨k, hk, -⟩ := h.slots.onList dir hdev hpipe
  rw [h.getSuper] at hk
  obtain ⟨hkn, hkd⟩ := getSuper_some hk
  have hkdev : (s.super_table k).dev ≠ EOF := by
    rw [hkd]
    exact hdev
  obtain ⟨m, hm, hmdir⟩ := hs.imounts k hkn hkdev
  have hmrefs := imount_refs hkn hkdev hm
  refine From.get (From.get ?_)
  rw [h.getSuper, hk]
  refine past_deref (From.get ?_)
  rw [(h.supers k).2.2.2.2, hm]
  have hhold := h.hold (h.used (Or.inl hmrefs)) (h.dirSlot hmrefs hmdir).1
  refine past_deref (From.set (From.bind (iput_walk hs hhold.swap) fun _ u hu => From.pure ?_))
  refine ⟨hu, hu.dirSlot hmrefs hmdir, ?_⟩
  rw [mountedAt, slotNode, hk, Option.bind_eq_bind, Option.bind_some, hm]
  exact congrArg some (hu.kept m hmrefs).1.symm

theorem startDir_walk (hs : Tree s) (h : Walk s (dir :: L) t) (hd : DirSlot t dir) :
    From bad t (startDir dir (decide (first path = dotdot))) fun d u =>
      Walk s (d :: L) u ∧ DirSlot u d ∧
        dirOf s (slotNode t dir) (first path) = some (slotNode u d) := by
  rw [dirOf]
  refine From.get (From.ite (fun hup => ?_) fun hup => ?_)
  · have hup' : first path = dotdot ∧ (slotNode t dir).nr = 1 := ⟨of_decide_eq_true hup.1, hup.2⟩
    rw [if_pos hup']
    exact crossUp_walk hs h
  · have hup' : ¬ (first path = dotdot ∧ (slotNode t dir).nr = 1) :=
      fun hx => hup ⟨decide_eq_true hx.1, hx.2⟩
    rw [if_neg hup']
    exact From.pure ⟨h, hd, rfl⟩

/-- The entries of a directory have names, and numbers of inodes of its device. -/
def Numbers (s : Kernel) (n : Node) (desc : Place) : Prop :=
  ∃ k, getSuper s n.dev = some k ∧ ∀ name e, lookup s desc name = some e →
    name ≠ [] ∧ 1 ≤ s.entryNr (entryPlace s desc e) ∧
      s.entryNr (entryPlace s desc e) ≤ (s.super_table k).desc.inodes

/-- What `find_entry` returns for a path in a directory. -/
structure Finds (s : Kernel) (L : List Nat) (n : Node) (path : Str) (r : Option Place × Nat × Str)
    (u : Kernel) : Prop where
  walk : Walk s (r.2.1 :: L) u
  dev : (slotNode u r.2.1).dev ≠ EOF
  found : ∃ desc, dirOf s n (first path) = some (slotNode u r.2.1) ∧
    descOf s (slotNode u r.2.1) = some desc ∧ Numbers s (slotNode u r.2.1) desc ∧
    Found s desc path (lookup s desc (first path)) (r.1, r.2.2)

theorem findEntry_walk (hs : Tree s) (h : Walk s (dir :: L) t) (hd : DirSlot t dir) :
    From bad t (findEntry dir path next) fun r u => Finds s L (slotNode t dir) path r u := by
  refine From.get (past_assert hd.2 (past_ofRes matchName_dotdot ?_))
  have hup : (if first path = dotdot then some (rest path) else none).isSome =
      decide (first path = dotdot) := by
    by_cases heq : first path = dotdot
    · rw [if_pos heq, decide_eq_true heq]
      rfl
    · rw [if_neg heq, decide_eq_false heq]
      rfl
  rw [hup]
  refine From.bind (startDir_walk hs h hd) ?_
  rintro d u ⟨hu, hdu, hdir⟩
  have hdev := hu.used (Or.inr (List.mem_cons_self (a := d) (l := L)))
  obtain ⟨k, hk, -, hdesc, h1, hn⟩ := hu.slots.onList d hdev hdu.1
  rw [hu.getSuper] at hk
  rw [(hu.supers k).1] at hdesc hn
  have hnode := hu.desc (Or.inr (List.mem_cons_self (a := d) (l := L))) hdu.1
  have hmode : ISDIR (u16At (s.bytes (u.desc d)) 0) := by
    rw [← hu.bytes]
    exact hdu.2
  have hok := hs.directories (slotNode u d) k (u.desc d) hdev hk hnode h1 hn hmode
  have hplace : (u.inode_table d).dev = (u.desc d).dev := by
    rw [hdesc]
    rfl
  refine From.get (From.bind (findLoop_lookup hplace (hu.directoryOk hok)) ?_)
  rintro ⟨entry, next'⟩ v ⟨rfl, hfound⟩
  refine From.pure ⟨hu, hdev, v.desc d, hdir, hnode, ⟨k, hk, fun name e he => ?_⟩, ?_⟩
  · obtain ⟨hlt, hlive, hname⟩ := lookup_some he
    refine ⟨?_, Nat.one_le_iff_ne_zero.mpr hlive, (hok e hlt).number⟩
    rw [← hname]
    exact (hok e hlt).named hlive
  · rw [hu.lookup] at hfound
    cases hl : lookup s (v.desc d) (first path) with
    | none =>
        rw [hl] at hfound
        exact hfound
    | some e =>
        rw [hl] at hfound
        show (entry, next') = (some (entryPlace s (v.desc d) e), rest path)
        rw [← hu.entryPlace]
        exact hfound

/-- Without an entry there is no step. -/
theorem Finds.none {n : Node} {d : Nat} (h : Finds s L n path (none, d, next) u) :
    step s n (first path) = none := by
  obtain ⟨desc, hdir, hdesc, -, hfound⟩ := h.found
  rw [step]
  by_cases h0 : first path = []
  · rw [if_pos h0]
  · rw [if_neg h0, hdir, Option.bind_eq_bind, Option.bind_some, hdesc]
    cases hl : lookup s desc (first path) with
    | none => rw [Option.bind_eq_bind, Option.bind_some, hl]; rfl
    | some e =>
        rw [hl] at hfound
        cases congrArg Prod.fst hfound

/-- With an entry the step leads to its inode, and `next` to the rest of the path. -/
theorem Finds.some {n : Node} {d : Nat} {entry : Place}
    (h : Finds s L n path (some entry, d, next) u) :
    next = rest path ∧
      step s n (first path) =
        Option.some (mounted s { dev := (u.inode_table d).dev, nr := s.entryNr entry }) ∧
      ∃ k, getSuper s (u.inode_table d).dev = Option.some k ∧ 1 ≤ s.entryNr entry ∧
        s.entryNr entry ≤ (s.super_table k).desc.inodes := by
  obtain ⟨desc, hdir, hdesc, ⟨k, hk, hnumbers⟩, hfound⟩ := h.found
  cases hl : lookup s desc (first path) with
  | none =>
      rw [hl] at hfound
      cases hfound
  | some e =>
      rw [hl] at hfound
      have hentry : entry = entryPlace s desc e := Option.some.inj (congrArg Prod.fst hfound)
      obtain ⟨hname, h1, hn⟩ := hnumbers _ e hl
      rw [hentry]
      refine ⟨congrArg Prod.snd hfound, ?_, k, hk, h1, hn⟩
      rw [step, if_neg hname, hdir, Option.bind_eq_bind, Option.bind_some, hdesc,
        Option.bind_eq_bind, Option.bind_some, hl]
      rfl

/-- The running task of the walk. -/
theorem runningTask_walk {task : Task} (h : Walk s L t) (ht : s.task_table s.current = some task) :
    From bad t runningTask fun a u => u = t ∧ a = task := by
  refine From.get ?_
  have ht' : t.task_table t.current = Option.some task := by
    rw [h.frame]
    exact ht
  rw [ht']
  exact From.pure ⟨rfl, rfl⟩

/-- `permission` of a slot in terms of its descriptor. -/
theorem permission_walk {task : Task} {mask : BitVec 16} (h : Walk s L t)
    (ht : s.task_table s.current = some task) :
    From bad t (permission i mask) fun ok u => u = t ∧
    (ok = true ↔ permits s task (t.desc i) mask) := by
  have hbytes : t.bytes = s.bytes := funext h.bytes
  refine From.get (From.ite (fun h0 => From.pure ⟨rfl, ?_⟩) fun h0 => ?_)
  · rw [Kernel.nlinks, hbytes] at h0
    exact iff_of_false Bool.false_ne_true fun hp => hp.1 h0
  · rw [Kernel.nlinks, hbytes] at h0
    refine From.bind (runningTask_walk h ht) ?_
    rintro task u ⟨rfl, rfl⟩
    refine From.ite (fun huser => From.pure ⟨rfl, iff_of_true rfl ⟨h0, Or.inl huser⟩⟩) fun huser => ?_
    refine From.pure ⟨rfl, decide_eq_true_iff.trans ?_⟩
    rw [permits, Kernel.mode, Kernel.uid, Kernel.gid, hbytes]
    exact ⟨fun hp => ⟨h0, Or.inr hp⟩, fun hp => hp.2.resolve_left huser⟩

/-- What a walk that may fail returns, and the reference it holds. -/
def Names (s : Kernel) (found : Option (Node × Str)) (r : Option Nat × Str) (u : Kernel) : Prop :=
  match found with
  | none => r.1 = none ∧ Walk s [] u
  | some (n, last) => ∃ i, r = (some i, last) ∧ slotNode u i = n ∧ DirSlot u i ∧ Walk s [i] u

/-- The same of a walk that holds `L` besides. -/
def NamesBeside (s : Kernel) (L : List Nat) (found : Option (Node × Str)) (r : Option Nat × Str)
    (u : Kernel) : Prop :=
  match found with
  | none => r.1 = none ∧ Walk s L u
  | some (n, last) => ∃ i, r = (some i, last) ∧ slotNode u i = n ∧ DirSlot u i ∧ Walk s (i :: L) u

theorem searchable_iff {task : Task} {n : Node} {desc : Place} (h : descOf s n = some desc) :
    Searchable s task n ↔
      ISDIR (u16At (s.bytes desc) 0) ∧ permits s task desc P_EXEC := by
  rw [Searchable, h]
  constructor
  · rintro ⟨desc', hd, hp⟩
    rw [Option.mem_some_iff.mp hd]
    exact hp
  · exact fun hp => ⟨desc, rfl, hp⟩

/-- The loop of `named` goes through all components but the last. -/
theorem namedLoop_walk {task : Task} {fuel m : Nat} {left last : Str} (next : Str) (hs : Tree s)
    (ht : s.task_table s.current = some task) (h : Walk s (i :: L) t) (hd : DirSlot t i)
    (hstop : MayStop bad s m) (hL : L.length ≤ m) (hsplit : Split left)
    (hlast : strrsep left = some last) (hfuel : left.length ≤ fuel ∨ ¬ bad .outOfFuel) :
    From bad t (namedLoop last.tail fuel i left next) fun r u =>
      NamesBeside s L (parent s task (slotNode t i) (components left)) r u := by
  induction fuel generalizing i left next t last with
  | zero =>
      refine From.stop (hfuel.resolve_left fun hle => ?_)
      have hlen := rest_length hsplit
      omega
  | succ fuel ih =>
      obtain ⟨name, names, hnames⟩ : ∃ c cs, components (rest left) = c :: cs :=
        List.exists_cons_of_ne_nil (components_ne_nil _)
      have hparent : parent s task (slotNode t i) (components left) =
          (step s (slotNode t i) (first left)).bind fun m =>
            if Searchable s task m then parent s task m (components (rest left)) else none := by
        rw [components_of_split hsplit, hnames]
        rfl
      rw [hparent]
      refine From.bind (findEntry_walk hs h hd) ?_
      rintro ⟨entry, d, next'⟩ u hu
      cases entry with
      | none =>
          rw [hu.none, Option.bind_none]
          exact From.bind (iput_walk hs hu.walk) fun _ v hv => From.pure ⟨rfl, hv⟩
      | some entry =>
          obtain ⟨rfl, hstep, k, hk, h1, hn⟩ := hu.some
          rw [hstep, Option.bind_some]
          refine From.get (From.bind (iput_walk hs hu.walk) fun _ v hv => From.get ?_)
          have hnr : v.entryNr entry = s.entryNr entry := by
            rw [Kernel.entryNr, hv.bytes]
            rfl
          rw [hnr]
          refine From.bind (iget_walk (n := { dev := (u.inode_table d).dev, nr := s.entryNr entry })
            hs hv hstop hL hk ⟨h1, hn⟩ hu.dev) ?_
          rintro m w ⟨hw, hnode⟩
          rw [← hnode]
          have hpipe := hw.plain m List.mem_cons_self
          have hdesc := hw.desc (Or.inr (List.mem_cons_self (a := m) (l := L))) hpipe
          have hsearch : Searchable s task (slotNode w m) ↔
              ISDIR (w.mode m) ∧ permits s task (w.desc m) P_EXEC := by
            rw [Kernel.mode, hw.bytes]
            exact searchable_iff hdesc
          -- the inode is to be a directory with execute permission
          refine From.get (From.ite (fun hmode => ?_) fun hmode => ?_)
          · rw [if_neg fun hx => hmode (hsearch.mp hx).1]
            exact From.bind (iput_walk hs hw) fun _ x hx => From.pure ⟨rfl, hx⟩
          refine From.bind (permission_walk hw ht) ?_
          rintro ok w ⟨rfl, hok⟩
          refine From.ite (fun hperm => ?_) fun hperm => ?_
          · rw [if_neg fun hx => hperm (hok.mpr (hsearch.mp hx).2)]
            exact From.bind (iput_walk hs hw) fun _ x hx => From.pure ⟨rfl, hx⟩
          rw [if_pos (hsearch.mpr ⟨not_not.mp hmode, hok.mp (not_not.mp hperm)⟩)]
          have hdir : DirSlot w m := ⟨hpipe, not_not.mp hmode⟩
          refine From.ite (fun hend => ?_) fun hend => ?_
          · -- the last component is left
            rw [components_of_not_split ((last_eq_rest hsplit hlast).mp hend)]
            exact From.pure ⟨m, rfl, rfl, hdir, hw⟩
          · have hmore : Split (rest left) := by
              by_contra hno
              exact hend ((last_eq_rest hsplit hlast).mpr hno)
            have hlast' := strrsep_of_split hsplit
            rw [if_pos hmore, hlast] at hlast'
            cases hnext : strrsep (rest left) with
            | none => exact absurd hmore (strrsep_eq_none.mp hnext)
            | some last' =>
                rw [hnext] at hlast'
                rw [show last.tail = last'.tail from Option.some.inj hlast']
                exact ih _ hw hdir hmore hnext (hfuel.imp_left fun hle =>
                  Nat.le_of_lt_succ ((rest_length hsplit).trans_le hle))

theorem namedFrom_walk {task : Task} {left : Str} {fuel m : Nat} (hs : Tree s)
    (ht : s.task_table s.current = some task) (h : Walk s L t) (hstop : MayStop bad s m)
    (hL : L.length ≤ m) (hi : inodeRefs s i ≠ 0) (hd : DirSlot s i)
    (hfuel : left.length ≤ fuel ∨ ¬ bad .outOfFuel) :
    Ends bad (namedFrom i left fuel t) fun r =>
      NamesBeside s L (parent s task (slotNode s i) (components left)) r.1 r.2 := by
  have hdt := h.dirSlot hi hd
  have hwalk := h.hold (h.used (Or.inl hi)) hdt.1
  have hnode : slotNode (t.hold i) i = slotNode s i := (hold_same t i i).1.trans (h.kept i hi).1
  have hdir : DirSlot (t.hold i) i := by
    refine ⟨hwalk.plain i List.mem_cons_self, ?_⟩
    rw [Kernel.mode, (hold_same t i i).2.2.1]
    exact hdt.2
  by_cases hsplit : Split left
  · have hne : left ≠ [] := by
      rintro rfl
      exact not_split_nil hsplit
    cases hlast : strrsep left with
    | none => exact absurd hsplit (strrsep_eq_none.mp hlast)
    | some last =>
        have hloop := namedLoop_walk left hs ht hwalk hdir hstop hL hsplit hlast hfuel
        rw [hnode] at hloop
        have hrun : namedFrom i left fuel t =
            namedLoop last.tail fuel i left left fuel (t.hold i) := by
          rw [namedFrom, if_neg hne, hlast]
          rfl
        rw [hrun]
        exact hloop fuel _ rfl
  · have hrun : namedFrom i left fuel t = .ok ((some i, left), t.hold i) := by
      rw [namedFrom]
      by_cases hne : left = []
      · rw [if_pos hne]
        rfl
      · rw [if_neg hne, strrsep_eq_none.mpr hsplit]
        rfl
    rw [hrun, components_of_not_split hsplit]
    exact ⟨i, rfl, hnode, hdir, hwalk⟩

/-- `named` returns the directory before the last component and a pointer to that
    component, whatever the walk holds besides. -/
theorem named_beside {task : Task} {fuel m : Nat} (hs : Tree s) (ha : Alive s)
    (ht : s.task_table s.current = some task) (h : Walk s L t) (hstop : MayStop bad s m)
    (hL : L.length ≤ m) (hfuel : path.length ≤ fuel ∨ ¬ bad .outOfFuel) :
    Ends bad (named path fuel t) fun r =>
      NamesBeside s L (resolveParent s task path) r.1 r.2 := by
  obtain ⟨hpwd, hroot⟩ := ha.dirs ht
  obtain ⟨-, task', ht', hlive⟩ := ha
  obtain rfl := Option.some.inj (ht.symm.trans ht')
  obtain ⟨hdpwd, hdroot⟩ := hs.tasks _ _ ht hlive
  have htask : runningTask fuel t = .ok (task, t) := by
    show (deref (t.task_table t.current) : Fs Task) fuel t = _
    rw [show t.task_table t.current = some task by rw [h.frame]; exact ht]
    rfl
  rw [named, bind_run htask]
  cases path with
  | nil => exact ⟨rfl, h⟩
  | cons c path =>
      rw [resolveParent, startOf]
      by_cases hc : isSeparator c
      · dsimp only
        rw [if_pos hc, if_pos hc]
        exact namedFrom_walk hs ht h hstop hL hroot hdroot (hfuel.imp_left (Nat.le_succ _).trans)
      · dsimp only
        rw [if_neg hc, if_neg hc]
        exact namedFrom_walk hs ht h hstop hL hpwd hdpwd hfuel

theorem named_walk {task : Task} {fuel : Nat} (hs : Tree s) (ha : Alive s)
    (ht : s.task_table s.current = some task) (hfuel : path.length ≤ fuel) :
    Ends (unlessCrowded s) (named path fuel s) fun r =>
      Names s (resolveParent s task path) r.1 r.2 :=
  named_beside hs ha ht hs.start hs.mayStop (Nat.zero_le 1) (Or.inl hfuel)

/-- What `namei` returns, and the reference it holds. -/
def Named (s : Kernel) (found : Option Node) (r : Option Nat) (u : Kernel) : Prop :=
  match found with
  | none => r = none ∧ Walk s [] u
  | some n => ∃ i, r = some i ∧ slotNode u i = n ∧ Walk s [i] u

/-- The last component is one of the components. -/
theorem parent_last {task : Task} {n m : Node} {names : List Str} {last : Str}
    (h : parent s task n names = some (m, last)) : last ∈ names := by
  induction names generalizing n with
  | nil => cases h
  | cons name names ih =>
      cases names with
      | nil =>
          have heq : (n, name) = (m, last) := Option.some.inj h
          rw [(Prod.mk.inj heq).2]
          exact List.mem_cons_self
      | cons next names =>
          obtain ⟨m', -, hm'⟩ := Option.bind_eq_some_iff.mp h
          by_cases hsearch : Searchable s task m'
          · rw [if_pos hsearch] at hm'
            exact List.mem_cons_of_mem _ (ih hm')
          · rw [if_neg hsearch] at hm'
            cases hm'

theorem resolveParent_last {task : Task} {m : Node} {last : Str}
    (h : resolveParent s task path = some (m, last)) : ¬ Split last := by
  obtain ⟨⟨n, path'⟩, -, hparent⟩ := Option.bind_eq_some_iff.mp h
  exact components_not_split (parent_last hparent)

/-- `namei` returns the slot of the inode the path names. -/
theorem namei_found {task : Task} {fuel : Nat} (hs : Tree s) (ha : Alive s)
    (ht : s.task_table s.current = some task) (hstop : MayStop bad s 1)
    (hfuel : path.length ≤ fuel ∨ ¬ bad .outOfFuel) :
    Ends bad (namei path fuel s) fun r => Named s (resolve s task path) r.1 r.2 := by
  refine Ends.bind (named_beside hs ha ht hs.start hstop (Nat.zero_le 1) hfuel) ?_
  rintro ⟨⟨dir, next⟩, t⟩ hnames
  cases hparent : resolveParent s task path with
  | none =>
      rw [hparent] at hnames
      obtain ⟨rfl, hwalk⟩ := hnames
      rw [resolve, hparent]
      exact ⟨rfl, hwalk⟩
  | some found =>
      obtain ⟨n, last⟩ := found
      rw [hparent] at hnames
      obtain ⟨i, heq, hnode, hdir, hwalk⟩ := hnames
      obtain ⟨rfl, rfl⟩ := Prod.mk.inj heq
      have hlast := resolveParent_last hparent
      have hresolve : resolve s task path = if next = [] then some n else step s n next := by
        rw [resolve, hparent]
        rfl
      rw [hresolve]
      cases next with
      | nil => exact ⟨i, rfl, hnode, hwalk⟩
      | cons c next =>
          have hfirst := (first_of_not_split hlast).1
          have hfind : From bad t (findEntry i (c :: next) (c :: next)) _ :=
            findEntry_walk hs hwalk hdir
          rw [if_neg (List.cons_ne_nil c next), ← hnode]
          refine From.bind (R := Named s (step s (slotNode t i) (c :: next))) hfind ?_ fuel t rfl
          rintro ⟨entry, d, next'⟩ u hu
          cases entry with
          | none =>
              have hstep := hu.none
              rw [hfirst] at hstep
              rw [hstep]
              exact From.bind (iput_walk hs hu.walk) fun _ v hv => From.pure ⟨rfl, hv⟩
          | some entry =>
              obtain ⟨-, hstep, k, hk, h1, hn⟩ := hu.some
              have hnr : u.entryNr entry = s.entryNr entry := by
                rw [Kernel.entryNr, hu.walk.bytes]
                rfl
              rw [hfirst] at hstep
              rw [hstep]
              refine From.get ?_
              rw [hnr]
              refine From.bind (iget_walk (n := { dev := (u.inode_table d).dev, nr := s.entryNr entry })
                hs hu.walk hstop Nat.le.refl hk ⟨h1, hn⟩ hu.dev) ?_
              rintro m v ⟨hv, hnodev⟩
              refine From.bind (iput_same hs hv.swap) fun _ w hw => From.pure ⟨m, rfl, ?_, hw.1⟩
              rw [← hnodev]
              exact (hw.2 m (List.mem_singleton_self m)).1

theorem namei_walk {task : Task} {fuel : Nat} (hs : Tree s) (ha : Alive s)
    (ht : s.task_table s.current = some task) (hfuel : path.length ≤ fuel) :
    Ends (unlessCrowded s) (namei path fuel s) fun r => Named s (resolve s task path) r.1 r.2 :=
  namei_found hs ha ht hs.mayStop (Or.inl hfuel)

/-- In every mounted file system tree, with any current and root directory, `namei`
    and `named` of any path return what the reference says: the slot of the inode
    it names, or null; the slot of the directory before the last component and the
    pointer to that component, or null.  Only where the inode table has no free
    slot but one may they stop instead. -/
theorem path_resolution {task : Task} {fuel : Nat} (hs : Tree s) (ha : Alive s)
    (ht : s.task_table s.current = some task) (hfuel : path.length ≤ fuel) :
    Ends (unlessCrowded s) (namei path fuel s)
      (fun r => r.1.map (slotNode r.2) = resolve s task path) ∧
    Ends (unlessCrowded s) (named path fuel s) fun r =>
      r.1.1.map (fun i => (slotNode r.2 i, r.1.2)) = resolveParent s task path := by
  constructor
  · refine Ends.mono (namei_walk hs ha ht hfuel) ?_
    rintro ⟨r, u⟩ hr
    cases hres : resolve s task path with
    | none =>
        rw [hres] at hr
        obtain ⟨rfl, -⟩ := hr
        rfl
    | some n =>
        rw [hres] at hr
        obtain ⟨i, rfl, hnode, -⟩ := hr
        exact congrArg some hnode
  · refine Ends.mono (named_walk hs ha ht hfuel) ?_
    rintro ⟨⟨r, next⟩, u⟩ hr
    cases hres : resolveParent s task path with
    | none =>
        rw [hres] at hr
        obtain ⟨rfl, -⟩ := hr
        rfl
    | some found =>
        obtain ⟨n, last⟩ := found
        rw [hres] at hr
        obtain ⟨i, heq, hnode, -⟩ := hr
        obtain ⟨rfl, rfl⟩ := Prod.mk.inj heq
        exact congrArg some (Prod.ext hnode rfl)

theorem bootState_mounts (h : (bootState.super_table k).dev ≠ EOF) : k = 0 := by
  by_contra hk
  exact h (if_neg hk)

theorem bootState_super {dev : Dev} (hdev : dev ≠ EOF) (h : getSuper bootState dev = some k) :
    k = 0 ∧ dev = 1 := by
  obtain ⟨-, hk⟩ := getSuper_some h
  have hz : k = 0 := bootState_mounts (by rw [hk]; exact hdev)
  subst hz
  exact ⟨rfl, hk.symm⟩

theorem bootState_inUse (h : (bootState.inode_table i).dev ≠ EOF) : i = 0 := by
  by_contra hi
  exact h (if_neg hi)

theorem bootState_dir : DirSlot bootState 0 := ⟨rfl, by decide⟩

/-- The only directory is the root directory, with the entries `.` and `..`. -/
theorem bootState_directories {nr : Nat} (hnr : nr ≤ 32)
    (hdir : ISDIR (u16At (bootState.bytes (inodeDesc bootDesc 1 nr)) 0)) :
    DirectoryOk bootState (inodeDesc bootDesc 1 nr) 32 := by
  have hone : ∀ nr ≤ 32, ISDIR (u16At (bootState.bytes (inodeDesc bootDesc 1 nr)) 0) → nr = 1 := by
    decide
  obtain rfl := hone nr hnr hdir
  intro n hn
  change n < 2 at hn
  obtain rfl | rfl : n = 0 ∨ n = 1 := by omega
  · exact ⟨by decide, by decide, by decide, fun _ => by decide, fun _ => by decide, by decide⟩
  · exact ⟨by decide, by decide, by decide, fun _ => by decide, fun _ => by decide, by decide⟩

theorem bootState_tree : Tree bootState where
  exact := bootState_ledger
  slots :=
    { idle := fun i h => by
        by_cases hi : i = 0
        · subst hi
          exact absurd h (by decide)
        · exact if_neg hi
      range := fun i h => by
        rw [bootState_inUse h]
        decide
      pipes := fun _ h => absurd h Bool.false_ne_true
      onList := fun i h _ => by
        rw [bootState_inUse h]
        exact ⟨0, by decide⟩
      listDev := fun k _ i hi => by
        change i ∈ (if k = 0 then [0] else []) at hi
        by_cases hk : k = 0
        · subst hk
          rw [List.mem_singleton.mp hi]
          rfl
        · rw [if_neg hk] at hi
          exact absurd hi List.not_mem_nil
      unique := fun i j h _ heq => by
        rw [bootState_inUse h] at heq ⊢
        refine bootState_inUse fun hfree => ?_
        have hdev := congrArg Node.dev heq
        exact absurd (hdev.symm.trans hfree) (by decide) }
  root := by
    rw [bootState_refs]
    decide
  devices := fun k _ h => by
    rw [bootState_mounts h]
    decide
  iroots := fun k _ h => by
    rw [bootState_mounts h]
    exact ⟨0, by decide⟩
  imounts := fun k _ h => by
    rw [bootState_mounts h]
    exact ⟨0, rfl, bootState_dir⟩
  mountPoints := fun i h => by
    by_cases hi : i = 0
    · subst hi
      exact ⟨0, by decide⟩
    · exact absurd (if_neg hi) h
  tasks := fun t task h _ => by
    change (if t = 0 then some bootTask else none) = some task at h
    by_cases ht : t = 0
    · rw [if_pos ht] at h
      rw [← Option.some.inj h]
      exact ⟨bootState_dir, bootState_dir⟩
    · rw [if_neg ht] at h
      cases h
  directories := fun n k desc hdev hk hdesc _ hn hdir => by
    obtain ⟨dev, nr⟩ := n
    obtain ⟨rfl, rfl⟩ := bootState_super hdev hk
    rw [descOf, hk] at hdesc
    obtain rfl := Option.some.inj hdesc
    exact bootState_directories hn hdir

theorem bootState_alive : Alive bootState := ⟨by decide, bootTask, rfl, rfl⟩

/-- `/./..`, from the root directory to where it is mounted. -/
def pathUp : Str := [0x2F, 0x2E, 0x2F, 0x2E, 0x2E]

theorem path_resolution_root : resolve bootState bootTask pathUp = some { dev := 1, nr := 1 } ∧
    Ends (unlessCrowded bootState) (namei pathUp 5 bootState)
      (fun r => r.1.map (slotNode r.2) = resolve bootState bootTask pathUp) ∧
    Ends (unlessCrowded bootState) (named pathUp 5 bootState) fun r =>
      r.1.1.map (fun i => (slotNode r.2 i, r.1.2)) = resolveParent bootState bootTask pathUp :=
  ⟨by decide +kernel, path_resolution bootState_tree bootState_alive rfl Nat.le.refl⟩

end NeonixPathResolution
