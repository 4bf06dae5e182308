import Neonix.InodeTable

/-! # What it is worth to hold an inode

    Between the `list_push` of `iget` and the return of its `bread` an inode can
    be found and has no buffer yet.  In the runs where no task asks for an inode
    that another one is reading, who holds an inode and is not reading it has the
    descriptor the device has for it: a valid buffer of the right block, which
    nobody can evict, and the right place in it. -/

namespace NeonixInodeHolders

open NeonixMachine NeonixBufferRefs NeonixRuns NeonixInodeTable
open NeonixBufferCache (Cache Pc bread brelse bwrite modifyData)
open NeonixBufferTable (InTable)
open NeonixFileSystem (INODE_NR inodeBlock decr)
open NeonixVolume (SuperDesc BLOCK_INODES)
open NeonixTask (TASK_NR)

variable {σ : Type} {s s' : State σ} {x : Option Nat} {o : Option Nat}
  {t u i j d b dev nr buffer_max : Nat} {fit : Option Nat} {sb : SuperBlock}

/-- The inode has its descriptor. -/
structure Settled (s : State σ) (i d b : Nat) (sb : SuperBlock) : Prop where
  buf : (s.inode_table i).buf = some b
  desc : (s.inode_table i).desc =
    some (b, ((s.inode_table i).nr + (2 ^ 32 - 1)) % 2 ^ 32 % BLOCK_INODES)
  super : s.super_table d = some sb
  ref : (slotRef i, b) ∈ s.cache.refs
  dev : (s.cache.buffers b).dev = d
  block : (s.cache.buffers b).block = inodeBlock sb.desc (s.inode_table i).nr
  valid : (s.cache.buffers b).valid = true

/-- A task is inside the `bread` of a block. -/
def Wants (c : Cache σ) (t dev block : Nat) : Prop :=
  c.pc t = .getFree dev block ∨
    ∃ b, Fetches (c.pc t) b ∧ (t, b) ∈ c.refs ∧ (c.buffers b).dev = dev ∧
      (c.buffers b).block = block

/-- A task reads the block its inode is in. -/
def Fetching (s : State σ) (t i : Nat) : Prop :=
  ∃ d sb, (s.inode_table i).dev = some d ∧ s.super_table d = some sb ∧
    Wants s.cache t d (inodeBlock sb.desc (s.inode_table i).nr)

/-- What every step keeps, of task `x` in the middle of one. -/
structure Held (x : Option Nat) (s : State σ) : Prop where
  backed : Backed s.cache
  outside : ∀ u, TASK_NR ≤ u → s.cache.pc u = .user
  count : ∀ i, (s.inode_table i).count = refsOf s.holds i
  unused : ∀ i, (s.inode_table i).dev = none ↔ refsOf s.holds i = 0
  reading : ∀ u i, s.place u = .reading i →
    u < TASK_NR ∧ refsOf s.holds i = 1 ∧ (some u, i) ∈ s.holds
  fetching : ∀ u i, x ≠ some u → s.place u = .reading i → Fetching s u i
  settled : ∀ i d, (s.inode_table i).dev = some d → (∀ u, s.place u ≠ .reading i) →
    ∃ b sb, Settled s i d b sb
  putting : ∀ u i fit, s.place u = .putting i fit → u < TASK_NR ∧ (some u, i) ∈ s.holds ∧
    ∃ b k, (s.inode_table i).buf = some b ∧ s.cache.pc u = .writing b k false
  releasing : ∀ u i fit, s.place u ≠ .releasing i fit
  roots : ∀ d sb r, s.super_table d = some sb → sb.iroot = some r → (none, r) ∈ s.holds

/-- Who reads an inode is the only one that holds it. -/
theorem Held.unread (h : Held x s) (hmem : (o, i) ∈ s.holds) (hne : o ≠ some u) :
    s.place u ≠ .reading i := by
  intro hr
  obtain ⟨-, hone, hu⟩ := h.reading u i hr
  have htwo := refsOf_two hmem hu (Ne.symm hne)
  omega

/-- A task outside `inode.c` holds nothing that is being read. -/
theorem Held.unread_all (h : Held x s) (hmem : (o, i) ∈ s.holds)
    (ho : ∀ u, o = some u → s.place u ≠ .reading i) : ∀ u, s.place u ≠ .reading i := by
  intro u
  by_cases hu : o = some u
  · exact ho u hu
  · exact h.unread hmem hu

/-- What is held is in use. -/
theorem Held.used (h : Held x s) (hmem : (o, i) ∈ s.holds) : ∃ d, (s.inode_table i).dev = some d := by
  cases hd : (s.inode_table i).dev with
  | none =>
      have hpos := refsOf_pos hmem
      have hzero := (h.unused i).mp hd
      omega
  | some d => exact ⟨d, rfl⟩

/-! ## Steps that leave the cache alone -/

/-- The inodes have what they had. -/
structure SameReads (s s' : State σ) : Prop where
  cache : s'.cache = s.cache
  place : s'.place = s.place
  dev : ∀ i, (s'.inode_table i).dev = (s.inode_table i).dev
  nr : ∀ i, (s'.inode_table i).nr = (s.inode_table i).nr
  buf : ∀ i, (s'.inode_table i).buf = (s.inode_table i).buf
  desc : ∀ i, (s'.inode_table i).desc = (s.inode_table i).desc
  super : ∀ d sb, s.super_table d = some sb → ∃ sb', s'.super_table d = some sb' ∧ sb'.desc = sb.desc

/-- The holders have changed, and with them the counts. -/
structure Recounted (s s' : State σ) : Prop where
  count : ∀ i, (s'.inode_table i).count = refsOf s'.holds i
  unused : ∀ i, refsOf s'.holds i = 0 ↔ refsOf s.holds i = 0
  reading : ∀ u i, s.place u = .reading i →
    refsOf s'.holds i = refsOf s.holds i ∧ (some u, i) ∈ s'.holds
  putting : ∀ u i fit, s.place u = .putting i fit → (some u, i) ∈ s'.holds
  roots : ∀ d sb r, s'.super_table d = some sb → sb.iroot = some r → (none, r) ∈ s'.holds

theorem Settled.same (h : Settled s i d b sb) (hs : SameReads s s') :
    ∃ sb', Settled s' i d b sb' := by
  obtain ⟨sb', hsb', hdesc⟩ := hs.super d sb h.super
  refine ⟨sb', ⟨(hs.buf i).trans h.buf, ?_, hsb', ?_, ?_, ?_, ?_⟩⟩
  · rw [hs.desc, hs.nr]
    exact h.desc
  · rw [hs.cache]
    exact h.ref
  · rw [hs.cache]
    exact h.dev
  · rw [hs.cache, hs.nr, hdesc]
    exact h.block
  · rw [hs.cache]
    exact h.valid

theorem Fetching.same (h : Fetching s t i) (hs : SameReads s s') : Fetching s' t i := by
  obtain ⟨d, sb, hd, hsb, hw⟩ := h
  obtain ⟨sb', hsb', hdesc⟩ := hs.super d sb hsb
  refine ⟨d, sb', (hs.dev i).trans hd, hsb', ?_⟩
  rw [hs.cache, hs.nr, hdesc]
  exact hw

theorem Held.recount (h : Held x s) (hs : SameReads s s') (hr : Recounted s s') : Held x s' := by
  constructor
  case backed =>
    rw [hs.cache]
    exact h.backed
  case outside =>
    rw [hs.cache]
    exact h.outside
  case count => exact hr.count
  case unused =>
    intro i
    rw [hs.dev, hr.unused]
    exact h.unused i
  case reading =>
    intro u i hu
    rw [hs.place] at hu
    obtain ⟨hlt, hone, -⟩ := h.reading u i hu
    obtain ⟨heq, hmem⟩ := hr.reading u i hu
    exact ⟨hlt, heq.trans hone, hmem⟩
  case fetching =>
    intro u i hx hu
    rw [hs.place] at hu
    exact (h.fetching u i hx hu).same hs
  case settled =>
    intro i d hd hu
    rw [hs.dev] at hd
    rw [hs.place] at hu
    obtain ⟨b, sb, hset⟩ := h.settled i d hd hu
    exact ⟨b, hset.same hs⟩
  case putting =>
    intro u i fit hu
    rw [hs.place] at hu
    obtain ⟨hlt, -, b, k, hb, hpc⟩ := h.putting u i fit hu
    refine ⟨hlt, hr.putting u i fit hu, b, k, (hs.buf i).trans hb, ?_⟩
    rw [hs.cache]
    exact hpc
  case releasing =>
    rw [hs.place]
    exact h.releasing
  case roots => exact hr.roots

/-- A store to the count or the mount of an inode. -/
theorem sameReads_setInode {f : Inode → Inode} (hf : ∀ inode, (f inode).dev = inode.dev ∧
    (f inode).nr = inode.nr ∧ (f inode).buf = inode.buf ∧ (f inode).desc = inode.desc)
    (holds : List (Option Nat × Nat)) : SameReads s { s.setInode i f with holds := holds } := by
  have heq : ∀ j, ((s.setInode i f).inode_table j).dev = (s.inode_table j).dev ∧
      ((s.setInode i f).inode_table j).nr = (s.inode_table j).nr ∧
      ((s.setInode i f).inode_table j).buf = (s.inode_table j).buf ∧
      ((s.setInode i f).inode_table j).desc = (s.inode_table j).desc := fun j => by
    by_cases hj : j = i
    · subst hj
      rw [setInode_self]
      exact hf _
    · rw [setInode_other f hj]
      exact ⟨rfl, rfl, rfl, rfl⟩
  exact ⟨rfl, rfl, fun j => (heq j).1, fun j => (heq j).2.1, fun j => (heq j).2.2.1,
    fun j => (heq j).2.2.2, fun _ sb hsb => ⟨sb, hsb, rfl⟩⟩

/-- One more holder of an inode that is in use. -/
theorem Held.hold (h : Held x s) (hmem : (o, i) ∈ s.holds) (hu : ∀ u, s.place u ≠ .reading i)
    (t : Nat) : Held x (s.hold t i) := by
  refine h.recount (sameReads_setInode (by exact fun _ => ⟨rfl, rfl, rfl, rfl⟩) _)
    ⟨fun j => ?_, fun j => ?_, fun u j hr => ?_, fun u j fit hp => ?_, fun d sb r hsb hr => ?_⟩
  · show ((s.setInode i fun inode => { inode with count := inode.count + 1 }).inode_table j).count =
      refsOf ((some t, i) :: s.holds) j
    rw [refsOf_cons]
    by_cases hj : j = i
    · subst hj
      rw [setInode_self, ← h.count, if_pos rfl]
    · rw [setInode_other _ hj, if_neg (Ne.symm hj), add_zero, ← h.count]
  · have hpos := refsOf_pos hmem
    show refsOf ((some t, i) :: s.holds) j = 0 ↔ _
    rw [refsOf_cons]
    by_cases hj : i = j
    · subst hj
      omega
    · rw [if_neg hj, add_zero]
  · have hj : i ≠ j := by
      rintro rfl
      exact hu u hr
    obtain ⟨-, -, hin⟩ := h.reading u j hr
    refine ⟨?_, List.mem_cons_of_mem _ hin⟩
    show refsOf ((some t, i) :: s.holds) j = _
    rw [refsOf_cons, if_neg hj, add_zero]
  · obtain ⟨-, hin, -⟩ := h.putting u j fit hp
    exact List.mem_cons_of_mem _ hin
  · exact List.mem_cons_of_mem _ (h.roots d sb r hsb hr)

/-- The mount table takes an inode over from a task that is not in `inode.c`. -/
theorem Held.cover (h : Held x s) (hmem : (some t, i) ∈ s.holds) (hp : s.place t = .user)
    (hs : SameReads s s') (hcount : ∀ j, (s'.inode_table j).count = (s.inode_table j).count)
    (hholds : s'.holds = (none, i) :: s.holds.erase (some t, i))
    (hroots : ∀ d sb r, s'.super_table d = some sb → sb.iroot = some r →
      r = i ∨ (none, r) ∈ s.holds) : Held x s' := by
  have hrefs : ∀ j, refsOf s'.holds j = refsOf s.holds j := fun j => by
    rw [hholds]
    exact refsOf_swap hmem
  have hkeep : ∀ o j, o ≠ some t → (o, j) ∈ s.holds → (o, j) ∈ s'.holds := fun o j ho hin => by
    rw [hholds]
    exact List.mem_cons_of_mem _ ((List.mem_erase_of_ne fun heq => ho (Prod.mk.inj heq).1).mpr hin)
  refine h.recount hs ⟨fun j => ?_, fun j => ?_, fun u j hr => ⟨hrefs j, ?_⟩, fun u j fit hput => ?_,
    fun d sb r hsb hr => ?_⟩
  · rw [hcount, hrefs]
    exact h.count j
  · rw [hrefs]
  · refine hkeep _ j ?_ (h.reading u j hr).2.2
    rintro ⟨⟩
    cases hp.symm.trans hr
  · refine hkeep _ j ?_ (h.putting u j fit hput).2.1
    rintro ⟨⟩
    cases hp.symm.trans hput
  · rcases hroots d sb r hsb hr with rfl | hin
    · rw [hholds]
      exact List.mem_cons_self
    · exact hkeep _ r (by rintro ⟨⟩) hin

/-- One holder less, where another one is left. -/
theorem Held.drop (h : Held x s) (hmem : (some t, i) ∈ s.holds) (hp : s.place t = .user)
    (hleft : decr (s.inode_table i).count ≠ 0) : Held x (s.drop t i) := by
  have hpos := refsOf_pos hmem
  have hdecr : decr (s.inode_table i).count = refsOf (s.holds.erase (some t, i)) i := by
    have herase := refsOf_erase (b := i) hmem
    rw [if_pos rfl] at herase
    rw [h.count, decr, if_neg (by omega)]
    omega
  have hother : ∀ j, j ≠ i → refsOf (s.holds.erase (some t, i)) j = refsOf s.holds j := fun j hj => by
    have herase := refsOf_erase (b := j) hmem
    rwa [if_neg (Ne.symm hj), add_zero] at herase
  have hkeep : ∀ o j, o ≠ some t → (o, j) ∈ s.holds → (o, j) ∈ s.holds.erase (some t, i) :=
    fun o j ho hin => (List.mem_erase_of_ne fun heq => ho (Prod.mk.inj heq).1).mpr hin
  refine h.recount (sameReads_setInode (by exact fun _ => ⟨rfl, rfl, rfl, rfl⟩) _)
    ⟨fun j => ?_, fun j => ?_, fun u j hr => ?_, fun u j fit hput => ?_, fun d sb r hsb hr => ?_⟩
  · show ((s.setInode i fun inode => { inode with count := decr inode.count }).inode_table j).count =
      refsOf (s.holds.erase (some t, i)) j
    by_cases hj : j = i
    · subst hj
      rw [setInode_self, hdecr]
    · rw [setInode_other _ hj, hother j hj, ← h.count]
  · show refsOf (s.holds.erase (some t, i)) j = 0 ↔ _
    by_cases hj : j = i
    · subst hj
      rw [← hdecr]
      exact iff_of_false hleft (by omega)
    · rw [hother j hj]
  · have hut : some u ≠ some t := by
      rintro ⟨⟩
      cases hp.symm.trans hr
    have hj : j ≠ i := by
      rintro rfl
      exact h.unread hmem (Ne.symm hut) hr
    exact ⟨hother j hj, hkeep _ j hut (h.reading u j hr).2.2⟩
  · refine hkeep _ j ?_ (h.putting u j fit hput).2.1
    rintro ⟨⟩
    cases hp.symm.trans hput
  · exact hkeep _ r (by rintro ⟨⟩) (h.roots d sb r hsb hr)

theorem Held.fitDone (h : Held x s) (he : fitDone s t fit = .ok s') : Held x s' := by
  cases fit with
  | none =>
      rw [← Except.ok.inj he]
      exact h
  | some dev =>
      obtain ⟨sb, hsb, he⟩ := bind_eq_ok he
      obtain ⟨r, hr, he⟩ := bind_eq_ok he
      rw [← Except.ok.inj he]
      have hroot := h.roots dev sb r (theSuper_ok hsb) (deref_ok hr)
      exact h.hold hroot (h.unread_all hroot (by rintro u ⟨⟩)) t

/-! ## Steps of the cache -/

/-- What a task does about its own references and those of one inode. -/
structure Beside (t i : Nat) (c c' : Cache σ) : Prop where
  refs : ∀ o b, o ≠ t → o ≠ slotRef i → (o, b) ∈ c.refs → (o, b) ∈ c'.refs ∧ Kept c c' b
  pc : ∀ u, u ≠ t → c'.pc u = c.pc u

variable {c c' c'' : Cache σ}

theorem Beside.of_frame (h : Frame t c c') : Beside t i c c' :=
  ⟨fun o b ho _ hr => ⟨h.refs o b ho hr, h.kept o b hr⟩, h.pc⟩

theorem Beside.trans (h : Beside t i c c') (h' : Beside t i c' c'') : Beside t i c c'' := by
  refine ⟨fun o b ho hi hr => ?_, fun u hu => (h'.pc u hu).trans (h.pc u hu)⟩
  obtain ⟨hr, hk⟩ := h.refs o b ho hi hr
  obtain ⟨hr', hk'⟩ := h'.refs o b ho hi hr
  exact ⟨hr', hk.trans hk'⟩

theorem mem_moveRef {old new r : Nat × Nat} (hr : r ∈ c.refs) (hne : r ≠ old) :
    r ∈ (moveRef c old new).refs :=
  List.mem_cons_of_mem _ ((List.mem_erase_of_ne hne).mpr hr)

theorem beside_moveRef {old new : Nat × Nat} (h : old.1 = t ∨ old.1 = slotRef i) :
    Beside t i c (moveRef c old new) := by
  refine ⟨fun o b ho hi hr => ⟨mem_moveRef hr ?_, rfl, rfl, id, id⟩, fun _ _ => rfl⟩
  rintro rfl
  exact h.elim ho hi

/-- A reference changes its owner. -/
theorem backed_moveRef {old new : Nat} (h : Backed c) (href : (old, b) ∈ c.refs)
    (hpc : c.pc old = .user) : Backed (moveRef c (old, b) (new, b)) := by
  refine ⟨⟨h.placed.bucket, h.placed.nodup, h.placed.below⟩, fun b' => ?_, fun u b' hr => ?_,
    fun u b' k hu => ?_⟩
  · show (refsOf ((new, b) :: c.refs.erase (old, b)) b' : Int) ≤ _
    rw [refsOf_swap href]
    exact h.counted b'
  · rcases List.mem_cons.mp hr with heq | hr
    · obtain ⟨-, rfl⟩ := Prod.mk.inj heq
      exact h.known old b' href
    · exact h.known u b' (List.mem_of_mem_erase hr)
  · refine mem_moveRef (h.release u b' k hu) ?_
    intro heq
    obtain ⟨rfl, -⟩ := Prod.mk.inj heq
    cases hpc.symm.trans hu

theorem slotRef_ne (ht : t < TASK_NR) : slotRef i ≠ t := by
  rw [slotRef]
  omega

theorem Wants.beside (h : Wants c u dev nr) (hc : Beside t i c c') (hne : u ≠ t)
    (hu : u < TASK_NR) : Wants c' u dev nr := by
  rcases h with hpc | ⟨b, hf, hr, hd, hk⟩
  · exact Or.inl ((hc.pc u hne).trans hpc)
  · obtain ⟨hr', hkept⟩ := hc.refs u b hne (slotRef_ne hu).symm hr
    refine Or.inr ⟨b, ?_, hr', hkept.dev.trans hd, hkept.block.trans hk⟩
    rw [hc.pc u hne]
    exact hf

theorem Settled.beside (h : Settled s j d b sb) (hc : Beside t i s.cache s'.cache)
    (ht : t < TASK_NR) (hj : j ≠ i) (hinode : s'.inode_table j = s.inode_table j)
    (hsuper : s'.super_table = s.super_table) : Settled s' j d b sb := by
  have hslot : slotRef j ≠ slotRef i := fun heq => hj (Nat.add_left_cancel heq)
  obtain ⟨hr, hkept⟩ := hc.refs _ b (slotRef_ne ht) hslot h.ref
  refine ⟨?_, ?_, ?_, hr, hkept.dev.trans h.dev, ?_, hkept.valid h.valid⟩
  · rw [hinode]
    exact h.buf
  · rw [hinode]
    exact h.desc
  · rw [hsuper]
    exact h.super
  · rw [hinode]
    exact hkept.block.trans h.block

/-- A step of the cache that leaves its task where it is in `inode.c`. -/
theorem Held.frame (h : Held (some t) s) (hb : Backed c) (hf : Frame t s.cache c)
    (ht : t < TASK_NR) (hput : ∀ i fit, s.place t = .putting i fit →
      ∃ b k, (s.inode_table i).buf = some b ∧ c.pc t = .writing b k false) :
    Held (some t) { s with cache := c } := by
  constructor
  case backed => exact hb
  case outside =>
    intro u hu
    exact (hf.pc u (by omega)).trans (h.outside u hu)
  case count => exact h.count
  case unused => exact h.unused
  case reading => exact h.reading
  case fetching =>
    intro u i hx hu
    have hne : u ≠ t := fun heq => hx (congrArg some heq.symm)
    obtain ⟨d, sb, hd, hsb, hw⟩ := h.fetching u i hx hu
    exact ⟨d, sb, hd, hsb, hw.beside (i := 0) (.of_frame hf) hne (h.reading u i hu).1⟩
  case settled =>
    intro i d hd hu
    obtain ⟨b, sb, hset⟩ := h.settled i d hd hu
    exact ⟨b, sb, hset.beside (i := i + 1) (.of_frame hf) ht (by omega) rfl rfl⟩
  case putting =>
    intro u i fit hu
    obtain ⟨hlt, hmem, b, k, hbuf, hpc⟩ := h.putting u i fit hu
    by_cases hut : u = t
    · subst hut
      exact ⟨hlt, hmem, hput i fit hu⟩
    · exact ⟨hlt, hmem, b, k, hbuf, (hf.pc u hut).trans hpc⟩
  case releasing => exact h.releasing
  case roots => exact h.roots

/-- A task that is not reading goes elsewhere. -/
theorem Held.setPlace {p : Place} (h : Held (some t) s) (hr : ∀ i, s.place t ≠ .reading i)
    (hreading : ∀ i, p ≠ .reading i)
    (hputting : ∀ i fit, p = .putting i fit → t < TASK_NR ∧ (some t, i) ∈ s.holds ∧
      ∃ b k, (s.inode_table i).buf = some b ∧ s.cache.pc t = .writing b k false)
    (hreleasing : ∀ i fit, p ≠ .releasing i fit) : Held none (s.setPlace t p) := by
  have hself : (s.setPlace t p).place t = p := Function.update_self ..
  have hother : ∀ u, u ≠ t → (s.setPlace t p).place u = s.place u := fun u hu =>
    Function.update_of_ne hu ..
  have hread : ∀ u i, (s.setPlace t p).place u = .reading i → u ≠ t ∧ s.place u = .reading i := by
    intro u i hu
    by_cases hut : u = t
    · subst hut
      exact absurd (hself.symm.trans hu) (hreading i)
    · exact ⟨hut, (hother u hut).symm.trans hu⟩
  constructor
  case backed => exact h.backed
  case outside => exact h.outside
  case count => exact h.count
  case unused => exact h.unused
  case reading => exact fun u i hu => h.reading u i (hread u i hu).2
  case fetching =>
    intro u i _ hu
    obtain ⟨hut, hu⟩ := hread u i hu
    exact h.fetching u i (fun heq => hut (Option.some.inj heq).symm) hu
  case settled =>
    intro i d hd hu
    have hunread : ∀ u, s.place u ≠ .reading i := fun u hi => by
      by_cases hut : u = t
      · subst hut
        exact hr i hi
      · exact hu u ((hother u hut).trans hi)
    obtain ⟨b, sb, hset⟩ := h.settled i d hd hunread
    exact ⟨b, sb, hset.buf, hset.desc, hset.super, hset.ref, hset.dev, hset.block, hset.valid⟩
  case putting =>
    intro u i fit hu
    by_cases hut : u = t
    · subst hut
      exact hputting i fit (hself.symm.trans hu)
    · exact h.putting u i fit ((hother u hut).symm.trans hu)
  case releasing =>
    intro u i fit hu
    by_cases hut : u = t
    · subst hut
      exact hreleasing i fit (hself.symm.trans hu)
    · exact h.releasing u i fit ((hother u hut).symm.trans hu)
  case roots => exact h.roots

theorem Held.enter (h : Held none s) (t : Nat) : Held (some t) s :=
  { h with fetching := fun u i _ hu => h.fetching u i (by rintro ⟨⟩) hu }

theorem Held.leave (h : Held (some t) s) (hf : ∀ i, s.place t = .reading i → Fetching s t i) :
    Held none s := by
  refine { h with fetching := fun u i _ hu => ?_ }
  by_cases hut : u = t
  · subst hut
    exact hf i hu
  · exact h.fetching u i (fun heq => hut (Option.some.inj heq).symm) hu

/-! ## Steps of a task on one inode -/

/-- A step of task `t` that changes inode `i`, which no other task holds. -/
structure Touches (t i : Nat) (s s' : State σ) : Prop where
  task : t < TASK_NR
  backed : Backed s'.cache
  cache : Beside t i s.cache s'.cache
  place : ∀ u, u ≠ t → s'.place u = s.place u
  inode : ∀ j, j ≠ i → s'.inode_table j = s.inode_table j
  super : s'.super_table = s.super_table
  holds : ∀ o j, o ≠ some t → (o, j) ∈ s.holds → (o, j) ∈ s'.holds
  refs : ∀ j, j ≠ i → refsOf s'.holds j = refsOf s.holds j
  alone : ∀ u, u ≠ t → (some u, i) ∉ s.holds
  before : ∀ j, s.place t = .reading j → j = i

/-- What is left to show after such a step. -/
structure After (x : Option Nat) (t i : Nat) (s : State σ) : Prop where
  count : (s.inode_table i).count = refsOf s.holds i
  unused : (s.inode_table i).dev = none ↔ refsOf s.holds i = 0
  reading : ∀ j, s.place t = .reading j → j = i ∧ refsOf s.holds i = 1 ∧ (some t, i) ∈ s.holds
  fetching : x ≠ some t → s.place t = .reading i → Fetching s t i
  settled : ∀ d, (s.inode_table i).dev = some d → s.place t ≠ .reading i →
    ∃ b sb, Settled s i d b sb
  putting : ∀ j fit, s.place t ≠ .putting j fit
  releasing : ∀ j fit, s.place t ≠ .releasing j fit

theorem Held.touch (h : Held (some t) s) (hs : Touches t i s s') (ha : After x t i s') :
    Held x s' := by
  have hapart : ∀ u j, u ≠ t → (some u, j) ∈ s.holds → j ≠ i := by
    rintro u j hu hmem rfl
    exact hs.alone u hu hmem
  constructor
  case backed => exact hs.backed
  case outside =>
    intro u hu
    have ht := hs.task
    exact (hs.cache.pc u (by omega)).trans (h.outside u hu)
  case count =>
    intro j
    by_cases hj : j = i
    · subst hj
      exact ha.count
    · rw [hs.inode j hj, hs.refs j hj]
      exact h.count j
  case unused =>
    intro j
    by_cases hj : j = i
    · subst hj
      exact ha.unused
    · rw [hs.inode j hj, hs.refs j hj]
      exact h.unused j
  case reading =>
    intro u j hu
    by_cases hut : u = t
    · subst hut
      obtain ⟨rfl, hread⟩ := ha.reading j hu
      exact ⟨hs.task, hread⟩
    · rw [hs.place u hut] at hu
      obtain ⟨hlt, hone, hmem⟩ := h.reading u j hu
      rw [hs.refs j (hapart u j hut hmem)]
      exact ⟨hlt, hone, hs.holds _ j (fun heq => hut (Option.some.inj heq)) hmem⟩
  case fetching =>
    intro u j hx hu
    by_cases hut : u = t
    · subst hut
      obtain ⟨rfl, -⟩ := ha.reading j hu
      exact ha.fetching hx hu
    · rw [hs.place u hut] at hu
      obtain ⟨hlt, -, hmem⟩ := h.reading u j hu
      obtain ⟨d, sb, hd, hsb, hw⟩ := h.fetching u j (fun heq => hut (Option.some.inj heq).symm) hu
      have hinode := hs.inode j (hapart u j hut hmem)
      refine ⟨d, sb, ?_, ?_, ?_⟩
      · rw [hinode]
        exact hd
      · rw [hs.super]
        exact hsb
      · rw [hinode]
        exact hw.beside hs.cache hut hlt
  case settled =>
    intro j d hd hu
    by_cases hj : j = i
    · subst hj
      exact ha.settled d hd (hu t)
    · rw [hs.inode j hj] at hd
      have hunread : ∀ u, s.place u ≠ .reading j := fun u hr => by
        by_cases hut : u = t
        · subst hut
          exact hj (hs.before j hr)
        · exact hu u ((hs.place u hut).trans hr)
      obtain ⟨b, sb, hset⟩ := h.settled j d hd hunread
      exact ⟨b, sb, hset.beside hs.cache hs.task hj (hs.inode j hj) hs.super⟩
  case putting =>
    intro u j fit hu
    by_cases hut : u = t
    · subst hut
      exact absurd hu (ha.putting j fit)
    · rw [hs.place u hut] at hu
      obtain ⟨hlt, hmem, b, k, hb, hpc⟩ := h.putting u j fit hu
      refine ⟨hlt, hs.holds _ j (fun heq => hut (Option.some.inj heq)) hmem, b, k, ?_,
        (hs.cache.pc u hut).trans hpc⟩
      rw [hs.inode j (hapart u j hut hmem)]
      exact hb
  case releasing =>
    intro u j fit hu
    by_cases hut : u = t
    · subst hut
      exact ha.releasing j fit hu
    · rw [hs.place u hut] at hu
      exact h.releasing u j fit hu
  case roots =>
    intro d sb r hsb hr
    rw [hs.super] at hsb
    exact hs.holds none r (by rintro ⟨⟩) (h.roots d sb r hsb hr)

/-! ## `iget` -/

/-- A new inode on its list, which the task is about to read. -/
theorem held_addInode (h : Held none s) (ht : t < TASK_NR) (hp : s.place t = .user)
    (hi : (s.inode_table i).dev = none) : Held (some t) (addInode s t i dev nr) := by
  have hzero := (h.unused i).mp hi
  have hnone : ∀ o, (o, i) ∉ s.holds := fun o hmem => by
    have hpos := refsOf_pos hmem
    omega
  have hself : ((addInode s t i dev nr).inode_table i).dev = some dev ∧
      ((addInode s t i dev nr).inode_table i).count = 1 := by
    rw [addInode_self]
    refine ⟨rfl, ?_⟩
    show (s.inode_table i).count + 1 = 1
    rw [h.count, hzero]
  have hplace : (addInode s t i dev nr).place t = .reading i := Function.update_self ..
  have hone : refsOf ((some t, i) :: s.holds) i = 1 := by
    rw [refsOf_cons, hzero, if_pos rfl]
  refine (h.enter t).touch (i := i) ⟨ht, h.backed, .of_frame ?_, fun u hu => ?_,
    fun j hj => addInode_other hj, rfl, fun _ _ _ => List.mem_cons_of_mem _, fun j hj => ?_,
    fun u _ => hnone _, fun j hr => ?_⟩ ⟨?_, ?_, fun j hr => ?_, fun hx => ?_, fun d _ hr => ?_,
    fun j fit hr => ?_, fun j fit hr => ?_⟩
  · exact (Mild.refl t s.cache).frame
  · exact Function.update_of_ne hu ..
  · show refsOf ((some t, i) :: s.holds) j = _
    rw [refsOf_cons, if_neg (Ne.symm hj), add_zero]
  · cases hp.symm.trans hr
  · exact hself.2.trans hone.symm
  · rw [hself.1]
    refine iff_of_false (by rintro ⟨⟩) fun heq => ?_
    have heq : refsOf ((some t, i) :: s.holds) i = 0 := heq
    omega
  · rw [hplace] at hr
    cases hr
    exact ⟨rfl, hone, List.mem_cons_self⟩
  · exact absurd rfl hx
  · exact absurd hplace hr
  · cases hplace.symm.trans hr
  · cases hplace.symm.trans hr

/-- How far `bread` has come for a task that reads an inode, and which buffer it returns. -/
def Fetched (before after : Cache σ) (t dev block : Nat) : Prop :=
  after.pc t = .getFree dev block ∨
    ∃ b, Arrives t b after ∧ (t, b) ∈ after.refs ∧ (after.buffers b).dev = dev ∧
      (after.buffers b).block = block ∧ (after.pc t = .user → gotBuffer before after t = some b)

/-- The inode is there: its buffer is now referred to by the inode itself. -/
theorem held_igetRead (h : Held (some t) s) (hp : s.place t = .reading i)
    (hd : (s.inode_table i).dev = some d) (hsb : s.super_table d = some sb)
    (hpc : s.cache.pc t = .user) (href : (t, b) ∈ s.cache.refs)
    (hkey : (s.cache.buffers b).dev = d ∧
      (s.cache.buffers b).block = inodeBlock sb.desc (s.inode_table i).nr)
    (hv : (s.cache.buffers b).valid = true) : Held none (igetRead s t i b) := by
  obtain ⟨ht, hone, hmem⟩ := h.reading t i hp
  have hself : (igetRead s t i b).inode_table i =
      { s.inode_table i with
        buf := some b
        desc := some (b, ((s.inode_table i).nr + (2 ^ 32 - 1)) % 2 ^ 32 % BLOCK_INODES) } :=
    Function.update_self ..
  have hplace : (igetRead s t i b).place t = .user := Function.update_self ..
  have hcount : (s.inode_table i).count = refsOf s.holds i := h.count i
  have hset : Settled (igetRead s t i b) i d b sb := by
    refine ⟨?_, ?_, hsb, List.mem_cons_self, hkey.1, ?_, hv⟩
    · rw [hself]
    · rw [hself]
    · rw [hself]
      exact hkey.2
  refine h.touch (i := i) ⟨ht, backed_moveRef h.backed href hpc, beside_moveRef (Or.inl rfl),
    fun u hu => ?_, fun j hj => ?_, rfl, fun _ _ _ => id, fun _ _ => rfl, fun u hu hin => ?_,
    fun j hr => ?_⟩ ⟨?_, ?_, fun j hr => ?_, fun _ hr => ?_, fun d' hd' _ => ?_, fun j fit hr => ?_,
    fun j fit hr => ?_⟩
  · exact Function.update_of_ne hu ..
  · exact Function.update_of_ne hj ..
  · exact h.unread hin (fun heq => hu (Option.some.inj heq)) hp
  · cases hp.symm.trans hr
    rfl
  · rw [hself]
    exact hcount
  · rw [hself]
    exact h.unused i
  · cases hplace.symm.trans hr
  · cases hplace.symm.trans hr
  · rw [hself] at hd'
    rw [← Option.some.inj (hd.symm.trans hd')]
    exact ⟨b, sb, hset⟩
  · cases hplace.symm.trans hr
  · cases hplace.symm.trans hr

/-- `bread` goes on for a task that reads an inode. -/
theorem held_igetTurn (h : Held (some t) s) (hp : s.place t = .reading i)
    (hd : (s.inode_table i).dev = some d) (hsb : s.super_table d = some sb)
    (hb : Backed c) (hf : Frame t s.cache c)
    (hc : Fetched s.cache c t d (inodeBlock sb.desc (s.inode_table i).nr))
    (he : igetTurn s t i c = .ok s') : Held none s' := by
  have hframe : Held (some t) { s with cache := c } :=
    h.frame hb hf (h.reading t i hp).1 fun j fit hput => by cases hp.symm.trans hput
  rw [igetTurn] at he
  split at he
  · rename_i huser
    obtain ⟨b', hb', he⟩ := bind_eq_ok he
    rw [← Except.ok.inj he]
    rcases hc with hpc | ⟨b, harrives, href, hdev, hblock, hgot⟩
    · cases huser.symm.trans hpc
    · obtain rfl := Option.some.inj ((hgot huser).symm.trans (deref_ok hb'))
      rcases harrives with ⟨-, hv⟩ | hfetch
      · exact held_igetRead hframe hp hd hsb huser href ⟨hdev, hblock⟩ hv
      · rw [huser] at hfetch
        exact hfetch.elim
  · rename_i huser
    rw [← Except.ok.inj he]
    refine hframe.leave fun j hr => ?_
    cases hp.symm.trans hr
    refine ⟨d, sb, hd, hsb, ?_⟩
    rcases hc with hpc | ⟨b, harrives, href, hdev, hblock, -⟩
    · exact Or.inl hpc
    · rcases harrives with ⟨hpc, -⟩ | hfetch
      · exact absurd hpc huser
      · exact Or.inr ⟨b, hfetch, href, hdev, hblock⟩

/-- `bread` up to its first blocking point, or from its wait for a free buffer. -/
theorem fetched_asked {block : Nat} (hpc : c.pc t = .user ∨ c.pc t = .getFree dev block)
    (ha : Asked t dev block c c') : Fetched c c' t dev block := by
  rcases ha with ⟨hget, -⟩ | ⟨b, harrives, hrefs, hdev, hblock⟩
  · exact Or.inl hget
  · refine Or.inr ⟨b, harrives, ?_, hdev, hblock, fun _ => ?_⟩
    · rw [hrefs]
      exact List.mem_cons_self
    · rw [gotBuffer, hrefs]
      rcases hpc with hpc | hpc
      · rw [hpc]
        rfl
      · rw [hpc]
        rfl

/-- `bread` from where it has its buffer. -/
theorem fetched_resume {block : Nat} (hw : Wants c t dev block) (hb : Backed c)
    (he : NeonixBufferCache.exec buffer_max c (.resume t) = .ok c') : Fetched c c' t dev block := by
  rcases hw with hpc | ⟨b, hf, hr, hdev, hblock⟩
  · simp only [NeonixBufferCache.exec, hpc] at he
    obtain ⟨-, -, hasked⟩ := breadFree_asked hb he
    exact fetched_asked (Or.inr hpc) hasked
  · obtain ⟨hmild, harrives⟩ := resume_fetch hf he
    refine Or.inr ⟨b, harrives, ?_, ?_, ?_, fun _ => ?_⟩
    · rw [hmild.refs]
      exact hr
    · exact (hmild.table.dev b).trans hdev
    · exact (hmild.table.block b).trans hblock
    · rw [gotBuffer]
      cases hpc : c.pc t with
      | user | getFree _ _ | writing _ _ _ =>
          rw [hpc] at hf
          exact hf.elim
      | lockWait _ | reading _ _ | unlocked _ =>
          rw [hpc] at hf
          exact congrArg some hf

theorem held_igetNew (h : Held none s) (ht : t < TASK_NR) (hp : s.place t = .user)
    (hpc : s.cache.pc t = .user) (he : igetNew buffer_max s t dev nr = .ok s') : Held none s' := by
  obtain ⟨sb, i, c, hsb, -, hi, hc, he⟩ := igetNew_spec he
  obtain ⟨hb, hf, hasked⟩ := bread_asked h.backed hc
  have hself : ((addInode s t i dev nr).inode_table i).dev = some dev ∧
      ((addInode s t i dev nr).inode_table i).nr = nr := by
    rw [addInode_self]
    exact ⟨rfl, rfl⟩
  refine held_igetTurn (held_addInode h ht hp hi) (Function.update_self ..) hself.1 hsb hb hf ?_ he
  rw [hself.2]
  exact fetched_asked (Or.inl hpc) hasked

/-! ## `iput` -/

/-- The last one gives an inode up. -/
theorem held_dropInode (h : Held none s) (hp : s.place t = .user) (ht : t < TASK_NR)
    (hmem : (some t, i) ∈ s.holds) (hone : decr (s.inode_table i).count = 0)
    (hb : Backed c) (hc : Beside t i s.cache c) :
    Held none (dropInode { s.drop t i with cache := c } i dev) := by
  have hpos := refsOf_pos hmem
  have herase : ∀ j, refsOf (s.holds.erase (some t, i)) j + (if i = j then 1 else 0) =
      refsOf s.holds j := fun j => refsOf_erase hmem
  have hcount := h.count i
  have hzero : refsOf (s.holds.erase (some t, i)) i = 0 ∧ refsOf s.holds i = 1 := by
    have hi := herase i
    rw [if_pos rfl] at hi
    rw [hcount, decr] at hone
    split at hone
    · omega
    · omega
  have hself : (dropInode { s.drop t i with cache := c } i dev).inode_table i =
      { s.inode_table i with count := decr (s.inode_table i).count, dev := none } := by
    rw [dropInode, setInode_self]
    show { (s.drop t i).inode_table i with dev := none } = _
    rw [State.drop, setInode_self]
  have hother : ∀ j, j ≠ i →
      (dropInode { s.drop t i with cache := c } i dev).inode_table j = s.inode_table j := by
    intro j hj
    rw [dropInode, setInode_other _ hj]
    exact setInode_other (s := s) (fun inode => { inode with count := decr inode.count }) hj
  refine (h.enter t).touch (i := i) ⟨ht, hb, hc, fun _ _ => rfl, hother, rfl, fun o j ho hin => ?_,
    fun j hj => ?_, fun u hu hin => ?_, fun j hr => ?_⟩ ⟨?_, ?_, fun j hr => ?_, fun _ hr => ?_,
    fun d hd _ => ?_, fun j fit hr => ?_, fun j fit hr => ?_⟩
  · exact (List.mem_erase_of_ne fun heq => ho (Prod.mk.inj heq).1).mpr hin
  · have hj' := herase j
    rwa [if_neg (Ne.symm hj), add_zero] at hj'
  · have htwo := refsOf_two hmem hin fun heq => hu (Option.some.inj heq)
    omega
  · cases hp.symm.trans hr
  · rw [hself]
    exact hone.trans hzero.1.symm
  · rw [hself]
    exact iff_of_true rfl hzero.1
  · cases hp.symm.trans hr
  · cases hp.symm.trans hr
  · rw [hself] at hd
    cases hd
  · cases hp.symm.trans hr
  · cases hp.symm.trans hr

/-- `iput` behind its `bwrite`: the buffer is clean, so giving it back does not block. -/
theorem held_iputFinish (h : Held none s) (ht : t < TASK_NR) (hp : s.place t = .user)
    (hmem : (some t, i) ∈ s.holds)
    (hclean : ∀ b, (s.inode_table i).buf = some b → (s.cache.buffers b).dirty = false)
    (he : iputFinish s t i fit = .ok s') : Held none s' := by
  rcases iputFinish_spec he with ⟨hleft, he⟩ | ⟨hlast, b, c, hb, hc, he⟩
  · exact (h.drop hmem hp hleft).fitDone he
  · obtain ⟨d, hd⟩ := h.used hmem
    obtain ⟨b', sb, hset⟩ := h.settled i d hd
      (h.unread_all hmem fun u hu => by
        cases hu
        rw [hp]
        rintro ⟨⟩)
    obtain rfl := Option.some.inj (hb.symm.trans hset.buf)
    have hmoved : Backed (moveRef s.cache (slotRef i, b) (t, b)) :=
      backed_moveRef h.backed hset.ref (h.outside _ (Nat.le_add_right ..))
    have hdirty : ¬ ((moveRef s.cache (slotRef i, b) (t, b)).buffers b).dirty = true := by
      show ¬ (s.cache.buffers b).dirty = true
      rw [hclean b hb]
      rintro ⟨⟩
    rw [brelse, if_neg hdirty] at hc
    obtain ⟨hback, hframe, huser, -⟩ := putBuffer_backed hmoved List.mem_cons_self hc
    rcases he with ⟨-, he⟩ | ⟨hbusy, -⟩
    · obtain ⟨dev, -, he⟩ := iputFree_spec he
      have hbeside : Beside t i s.cache c :=
        (beside_moveRef (Or.inr rfl)).trans (.of_frame hframe)
      exact (held_dropInode h hp ht hmem hlast hback hbeside).fitDone he
    · exact absurd huser hbusy

theorem held_iput (h : Held none s) (ht : t < TASK_NR) (hp : s.place t = .user)
    (hpc : s.cache.pc t = .user) (hmem : (some t, i) ∈ s.holds)
    (he : iput s t i fit = .ok s') : Held none s' := by
  obtain ⟨b, hb, he⟩ := bind_eq_ok he
  have hb := deref_ok hb
  obtain ⟨hmild, hwrites⟩ := bwrite_writes (b := b) hpc
  have hback : Backed (bwrite s.cache t b) :=
    hmild.backed h.backed fun c' k hc => absurd hc (hwrites.no_release c' k)
  have hframe : Held (some t) { s with cache := bwrite s.cache t b } :=
    (h.enter t).frame hback hmild.frame ht fun j fit hput => by cases hp.symm.trans hput
  have hhere : ∀ j, s.place t ≠ .reading j := fun j hr => by cases hp.symm.trans hr
  dsimp only at he
  split at he
  · rename_i huser
    refine held_iputFinish (hframe.leave fun j hr => absurd hr (hhere j)) ht hp hmem ?_ he
    intro b' hb'
    obtain rfl := Option.some.inj (hb.symm.trans hb')
    exact hwrites.clean huser
  · rename_i huser
    rw [← Except.ok.inj he]
    refine hframe.setPlace hhere (by rintro j ⟨⟩) (fun j fit' hput => ?_) (by rintro j fit' ⟨⟩)
    cases hput
    obtain ⟨k, hk⟩ := hwrites.busy huser
    exact ⟨ht, hmem, b, k, hb, hk⟩

theorem held_fitInode (h : Held none s) (ht : t < TASK_NR) (hp : s.place t = .user)
    (hpc : s.cache.pc t = .user) (hmem : (some t, i) ∈ s.holds)
    (he : fitInode s t i = .ok s') : Held none s' := by
  rw [fitInode] at he
  split at he
  · rw [← Except.ok.inj he]
    exact h
  · obtain ⟨_, -, he⟩ := bind_eq_ok he
    exact held_iput h ht hp hpc hmem he

/-! ## Runs -/

/-- No task asks for an inode another one is reading. -/
def unreadOnly (s : State σ) : Event σ → Prop
  | .iget _ dev nr => ∀ i < INODE_NR, (s.inode_table i).dev = some dev →
      (s.inode_table i).nr = nr → ∀ u < TASK_NR, s.place u ≠ .reading i
  | .iput _ _ | .touch _ _ _ | .root _ _ _ | .cover _ _ _ | .call _ | .resume _ => True

instance (s : State σ) : (e : Event σ) → Decidable (unreadOnly s e)
  | .iget _ _ _ => inferInstanceAs (Decidable (∀ i < INODE_NR, _ → _ → ∀ u < TASK_NR, _))
  | .iput _ _ | .touch _ _ _ | .root _ _ _ | .cover _ _ _ | .call _ | .resume _ =>
      inferInstanceAs (Decidable True)

theorem held_iget (h : Held none s) (hs : Tables s) (ht : t < TASK_NR) (hp : s.place t = .user)
    (hpc : s.cache.pc t = .user) (hg : unreadOnly s (.iget t dev nr))
    (he : iget buffer_max s t dev nr = .ok s') : Held none s' := by
  obtain ⟨r, hr, he⟩ := bind_eq_ok he
  obtain ⟨-, hspec⟩ := findInode_spec hs hr
  cases r with
  | none => exact held_igetNew h ht hp hpc he
  | some i =>
      obtain ⟨hd, hnr⟩ := hspec
      have hunread : ∀ u, s.place u ≠ .reading i := fun u hu =>
        hg i (hs.below i dev hd) hd hnr u (h.reading u i hu).1 hu
      have hused : refsOf s.holds i ≠ 0 := fun hzero => by
        cases hd.symm.trans ((h.unused i).mpr hzero)
      obtain ⟨⟨o, j⟩, hmem, hj⟩ := List.countP_pos_iff.mp (Nat.pos_of_ne_zero hused)
      obtain rfl : j = i := of_decide_eq_true hj
      exact held_fitInode (h.hold hmem hunread t) ht hp hpc List.mem_cons_self he

theorem held_resume (h : Held none s) (ht : t < TASK_NR)
    (he : exec buffer_max s (.resume t) = .ok s') : Held none s' := by
  obtain ⟨c, hc, he⟩ := bind_eq_ok he
  obtain ⟨hb, hf⟩ := resume_backed h.backed hc
  cases hp : s.place t with
  | user =>
      rw [hp] at he
      rw [← Except.ok.inj he]
      refine ((h.enter t).frame hb hf ht fun j fit hput => ?_).leave fun j hr => ?_
      · cases hp.symm.trans hput
      · cases hp.symm.trans hr
  | reading i =>
      rw [hp] at he
      obtain ⟨d, sb, hd, hsb, hw⟩ := h.fetching t i (by rintro ⟨⟩) hp
      exact held_igetTurn (h.enter t) hp hd hsb hb hf (fetched_resume hw h.backed hc) he
  | putting i fit =>
      rw [hp] at he
      dsimp only at he
      obtain ⟨-, hmem, b, k, hbuf, hpc⟩ := h.putting t i fit hp
      simp only [NeonixBufferCache.exec, hpc] at hc
      obtain ⟨-, hwrites⟩ := writeTurn_writes hc
      have hhere : ∀ j, s.place t ≠ .reading j := fun j hr => by cases hp.symm.trans hr
      by_cases huser : c.pc t = .user
      · rw [if_pos huser] at he
        -- the task still counts as one in `bwrite` while the cache takes its last step
        have hback : Held none (s.setPlace t .user) :=
          (h.enter t).setPlace hhere (by rintro j ⟨⟩) (by rintro j fit' ⟨⟩) (by rintro j fit' ⟨⟩)
        have hself : (s.setPlace t .user).place t = .user := Function.update_self ..
        have hframe : Held (some t) { s.setPlace t .user with cache := c } :=
          (hback.enter t).frame hb hf ht fun j fit' hput => by cases hself.symm.trans hput
        refine held_iputFinish (s := { s.setPlace t .user with cache := c })
          (hframe.leave fun j hr => ?_) ht hself hmem ?_ he
        · cases hself.symm.trans hr
        · intro b' hb'
          obtain rfl := Option.some.inj (hbuf.symm.trans hb')
          exact hwrites.clean huser
      · rw [if_neg huser] at he
        rw [← Except.ok.inj he]
        refine ((h.enter t).frame hb hf ht fun j fit' hput => ?_).leave fun j hr =>
          absurd hr (hhere j)
        cases hp.symm.trans hput
        obtain ⟨k', hk⟩ := hwrites.busy huser
        exact ⟨b, k', hbuf, hk⟩
  | releasing i fit => exact absurd hp (h.releasing t i fit)

/-- The mount table takes an inode over and notes the device mounted on it. -/
theorem held_cover (h : Held none s) (hmem : (some t, i) ∈ s.holds) (hp : s.place t = .user) :
    Held none { s.setInode i fun inode => { inode with mount := some dev } with
      holds := (none, i) :: s.holds.erase (some t, i) } := by
  refine h.cover hmem hp (sameReads_setInode (by exact fun _ => ⟨rfl, rfl, rfl, rfl⟩) _)
    (fun j => ?_) rfl fun d sb r hsb hr => Or.inr (h.roots d sb r hsb hr)
  show ((s.setInode i fun inode => { inode with mount := some dev }).inode_table j).count = _
  by_cases hj : j = i
  · subst hj
    rw [setInode_self]
  · rw [setInode_other _ hj]

/-- The mount table takes the root of a device over. -/
theorem held_root (h : Held none s) (hmem : (some t, i) ∈ s.holds) (hp : s.place t = .user)
    (hsb : s.super_table dev = some sb) : Held none
      { s with
        super_table := Function.update s.super_table dev (some { sb with iroot := some i })
        holds := (none, i) :: s.holds.erase (some t, i) } := by
  refine h.cover hmem hp ⟨rfl, rfl, fun _ => rfl, fun _ => rfl, fun _ => rfl, fun _ => rfl,
    fun d sb' hd => ?_⟩ (fun _ => rfl) rfl fun d sb' r hd hr => ?_
  · by_cases hdev : d = dev
    · subst hdev
      rw [Option.some.inj (hd.symm.trans hsb)]
      exact ⟨_, Function.update_self .., rfl⟩
    · exact ⟨sb', (Function.update_of_ne hdev ..).trans hd, rfl⟩
  · have hd : Function.update s.super_table dev (some { sb with iroot := some i }) d = some sb' := hd
    by_cases hdev : d = dev
    · subst hdev
      rw [Function.update_self] at hd
      rw [← Option.some.inj hd] at hr
      exact Or.inl (Option.some.inj hr).symm
    · rw [Function.update_of_ne hdev] at hd
      exact Or.inr (h.roots d sb' r hd hr)

theorem held_exec {e : Event σ} (h : Held none s) (hs : Tables s) (hg : unreadOnly s e)
    (henabled : Enabled s e) (he : exec buffer_max s e = .ok s') : Held none s' := by
  cases e with
  | iget t dev nr =>
      obtain ⟨ht, hp, hpc⟩ := henabled
      exact held_iget h hs ht hp hpc hg he
  | iput t i =>
      obtain ⟨⟨ht, hp, hpc⟩, hmem⟩ := henabled
      exact held_iput h ht hp hpc hmem he
  | touch t i data =>
      obtain ⟨⟨ht, hp, hpc⟩, hmem⟩ := henabled
      obtain ⟨b, -, he⟩ := bind_eq_ok he
      rw [← Except.ok.inj he]
      have hmild := mild_modifyData s.cache t b data
      have hback : Backed (modifyData s.cache b data) :=
        hmild.backed h.backed fun c k hc => h.backed.release t c k hc
      refine ((h.enter t).frame hback hmild.frame ht fun j fit hput => ?_).leave fun j hr => ?_
      · cases hp.symm.trans hput
      · cases hp.symm.trans hr
  | root t dev i =>
      obtain ⟨⟨ht, hp, hpc⟩, hmem⟩ := henabled
      obtain ⟨sb, hsb, he⟩ := bind_eq_ok he
      rw [← Except.ok.inj he]
      exact held_root h hmem hp (theSuper_ok hsb)
  | cover t i dev =>
      obtain ⟨⟨ht, hp, hpc⟩, hmem⟩ := henabled
      rw [← Except.ok.inj he]
      exact held_cover h hmem hp
  | call e =>
      obtain ⟨⟨ht, hp, hpc⟩, henabled⟩ := henabled
      obtain ⟨c, hc, he⟩ := bind_eq_ok he
      rw [← Except.ok.inj he]
      obtain ⟨hb, hf⟩ := h.backed.step henabled hc
      refine ((h.enter _).frame hb hf ht fun j fit hput => ?_).leave fun j hr => ?_
      · cases hp.symm.trans hput
      · cases hp.symm.trans hr
  | resume t => exact held_resume h henabled.1 he

theorem held_init (h : Init s) : Held none s := by
  have hplace : ∀ u (p : Place), s.place u = p → p = .user := fun u p hu =>
    hu.symm.trans (h.place u)
  have hrefs : ∀ i, refsOf s.holds i = 0 := fun i => by
    rw [h.holds]
    rfl
  constructor
  case backed => exact backed_init h.cache
  case outside => exact fun u _ => h.cache.pc u
  case count =>
    intro i
    rw [(h.inode i).2, hrefs]
  case unused => exact fun i => iff_of_true (h.inode i).1 (hrefs i)
  case reading =>
    intro u i hu
    cases hplace u _ hu
  case fetching =>
    intro u i _ hu
    cases hplace u _ hu
  case settled =>
    intro i d hd
    cases (h.inode i).1.symm.trans hd
  case putting =>
    intro u i fit hu
    cases hplace u _ hu
  case releasing =>
    intro u i fit hu
    cases hplace u _ hu
  case roots =>
    intro d sb r hsb hr
    cases (h.iroot d sb hsb).symm.trans hr

/-- Every state of the runs meets both invariants. -/
theorem reach_held (h : Reach (system σ buffer_max) unreadOnly s) : Tables s ∧ Held none s := by
  have hstep : ∀ (m : State σ) (e : Event σ) (n : State σ), Tables m ∧ Held none m →
      unreadOnly m e → (system σ buffer_max).step m e n → Tables n ∧ Held none n := by
    rintro m e n ⟨hs, hm⟩ hg hst
    exact ⟨tables_exec hs hst.2, held_exec hm hs hg hst.1 hst.2⟩
  exact h.invariant (fun _ h0 => ⟨tables_init h0, held_init h0⟩) hstep

/-- **A HELD INODE HAS ITS DESCRIPTOR**: in every state of the runs where no task asks for an
    inode another one is reading, an inode that is held, and not still being read by its holder,
    counts its holders and has a valid buffer of the block its descriptor is in, counted and
    found by the cache, and the place of the descriptor in it. -/
theorem inode_settled (h : Reach (system σ buffer_max) unreadOnly s) (hmem : (o, i) ∈ s.holds)
    (hdone : ∀ u, o = some u → s.place u ≠ .reading i) :
    (s.inode_table i).count = refsOf s.holds i ∧ ∃ d b sb, (s.inode_table i).dev = some d ∧
      Settled s i d b sb ∧ InTable s.cache b ∧ 0 < (s.cache.buffers b).count := by
  obtain ⟨-, hs⟩ := reach_held h
  obtain ⟨d, hd⟩ := hs.used hmem
  obtain ⟨b, sb, hset⟩ := hs.settled i d hd (hs.unread_all hmem hdone)
  have hcount := hs.backed.counted b
  have hpos := refsOf_pos hset.ref
  exact ⟨hs.count i, d, b, sb, hd, hset, hs.backed.known _ b hset.ref, by omega⟩

/-- Two tasks read two inodes of one block at a time. -/
theorem inode_settled_shared : ∃ s : State Nat,
    ((s.inode_table 1).buf, (s.inode_table 1).desc, (s.cache.buffers 0).count) =
      (some 0, some (0, 1), 2) ∧
      (s.inode_table 1).count = refsOf s.holds 1 ∧ ∃ d b sb, (s.inode_table 1).dev = some d ∧
        Settled s 1 d b sb ∧ InTable s.cache b ∧ 0 < (s.cache.buffers b).count := by
  have hrun : (follow unreadOnly Enabled (exec 2) bootState
      [.iget 1 0 1, .iget 2 0 2, .resume 1, .resume 1, .resume 1, .resume 1, .resume 2]).map
      (fun s => ((s.inode_table 1).buf, (s.inode_table 1).desc, (s.cache.buffers 0).count,
        s.place 2, decide ((some 2, 1) ∈ s.holds))) =
      some (some 0, some (0, 1), 2, .user, true) := by
    decide
  obtain ⟨s, hs, hobs⟩ := Option.map_eq_some_iff.mp hrun
  simp only [Prod.mk.injEq] at hobs
  obtain ⟨hbuf, hdesc, hcount, hplace, hmem⟩ := hobs
  refine ⟨s, by rw [hbuf, hdesc, hcount], inode_settled (Reach.follow _ (.start bootState_init) hs)
    (of_decide_eq_true hmem) fun u hu => ?_⟩
  rw [← Option.some.inj hu, hplace]
  rintro ⟨⟩

/-- Without the guard a task is given an inode that has no buffer yet. -/
theorem second_iget_unread : ¬ ∀ s : State Nat, Reach (system Nat 2) free s → ∀ u i,
    (some u, i) ∈ s.holds → s.place u = .user → (s.inode_table i).buf ≠ none := by
  intro hall
  have hrun : (follow free Enabled (exec 2) bootState [.iget 1 0 1, .iget 2 0 1]).map
      (fun s => (decide ((some 2, 0) ∈ s.holds), s.place 2, (s.inode_table 0).buf)) =
      some (true, .user, none) := by
    decide
  obtain ⟨s, hs, hobs⟩ := Option.map_eq_some_iff.mp hrun
  simp only [Prod.mk.injEq] at hobs
  obtain ⟨hmem, hplace, hbuf⟩ := hobs
  exact hall s (Reach.follow _ (.start bootState_init) hs) 2 0 (of_decide_eq_true hmem) hplace hbuf

end NeonixInodeHolders
