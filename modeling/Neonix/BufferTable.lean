import Neonix.BufferDirty

/-! # One buffer per block

    `getblk` looks its block up before it waits for a free buffer and does not
    look again afterwards.  Every step but the one in which a waiting task gets
    its buffer keeps the hash table at one buffer a block; that one keeps it if
    and only if nobody installed the block in between. -/

namespace NeonixBufferTable

open NeonixMachine NeonixMutex NeonixBufferCache NeonixBufferDirty NeonixRuns

variable {σ : Type} {s s' m : Cache σ} {t b dev block buffer_max : Nat}

/-- The buffer is on some list of the hash table. -/
def InTable (s : Cache σ) (b : Nat) : Prop := ∃ i, b ∈ s.hash_table i

/-- The hash table has at most one buffer for each block. -/
def OnePerBlock (s : Cache σ) : Prop :=
  ∀ b b', InTable s b → InTable s b' → (s.buffers b).dev = (s.buffers b').dev →
    (s.buffers b).block = (s.buffers b').block → b = b'

/-- Each buffer is on the list of its key, once, and has been taken into use. -/
structure Placed (s : Cache σ) : Prop where
  bucket : ∀ i b, b ∈ s.hash_table i → (s.buffers b).bucket = i
  nodup : ∀ i, (s.hash_table i).Nodup
  below : ∀ b, InTable s b → b < s.buffer_count

/-- The hash table and the keys are as they were. -/
structure SameTable (s s' : Cache σ) : Prop where
  table : s'.hash_table = s.hash_table
  count : s'.buffer_count = s.buffer_count
  dev : ∀ b, (s'.buffers b).dev = (s.buffers b).dev
  block : ∀ b, (s'.buffers b).block = (s.buffers b).block

theorem SameTable.refl (s : Cache σ) : SameTable s s := ⟨rfl, rfl, fun _ => rfl, fun _ => rfl⟩

theorem SameTable.trans (h : SameTable s m) (h' : SameTable m s') : SameTable s s' := by
  constructor
  · rw [h'.table, h.table]
  · rw [h'.count, h.count]
  · intro b
    rw [h'.dev, h.dev]
  · intro b
    rw [h'.block, h.block]

theorem SameTable.inTable (h : SameTable s s') : InTable s' b ↔ InTable s b := by
  rw [InTable, InTable, h.table]

theorem SameTable.placed (h : SameTable s s') (hs : Placed s) : Placed s' := by
  constructor
  · intro i b hb
    rw [h.table] at hb
    rw [Buffer.bucket, h.dev, h.block]
    exact hs.bucket i b hb
  · intro i
    rw [h.table]
    exact hs.nodup i
  · intro b hb
    rw [h.count]
    exact hs.below b (h.inTable.mp hb)

theorem SameTable.onePerBlock (h : SameTable s s') : OnePerBlock s' ↔ OnePerBlock s := by
  simp only [OnePerBlock, h.inTable, h.dev, h.block]

/-! ## The steps that leave the table alone -/

theorem sameTable_setBuf (s : Cache σ) (b : Nat) {f : Buffer σ → Buffer σ}
    (hf : ∀ bf, (f bf).dev = bf.dev ∧ (f bf).block = bf.block) : SameTable s (s.setBuf b f) := by
  have hkey : ∀ b', ((s.setBuf b f).buffers b').dev = (s.buffers b').dev ∧
      ((s.setBuf b f).buffers b').block = (s.buffers b').block := by
    intro b'
    rcases setBuf_cases s b f b' with ⟨rfl, heq⟩ | ⟨-, heq⟩
    · rw [heq]
      exact hf _
    · rw [heq]
      exact ⟨rfl, rfl⟩
  exact ⟨rfl, rfl, fun b' => (hkey b').1, fun b' => (hkey b').2⟩

theorem sameTable_setPc {p : Pc} : SameTable s (s.setPc t p) :=
  ⟨rfl, rfl, fun _ => rfl, fun _ => rfl⟩

theorem sameTable_breadReturn : SameTable s (breadReturn s t b) :=
  (sameTable_setBuf _ _ (by exact fun _ => ⟨rfl, rfl⟩)).trans sameTable_setPc

theorem sameTable_breadRelease (he : breadRelease s t b = .ok s') : SameTable s s' := by
  obtain ⟨⟨lock, woken⟩, -, he⟩ := bind_eq_ok he
  have hlock : SameTable s (s.setBuf b fun bf => { bf with lock := lock }) :=
    sameTable_setBuf _ _ (by exact fun _ => ⟨rfl, rfl⟩)
  cases woken with
  | some _ =>
      rw [← Except.ok.inj he]
      exact hlock.trans sameTable_setPc
  | none =>
      rw [← Except.ok.inj he]
      exact hlock.trans sameTable_breadReturn

theorem sameTable_breadLocked {lock : Lock} {turn : Turn}
    (he : breadLocked s t b lock turn = .ok s') : SameTable s s' := by
  have hlock : SameTable s (s.setBuf b fun bf => { bf with lock := lock }) :=
    sameTable_setBuf _ _ (by exact fun _ => ⟨rfl, rfl⟩)
  cases turn with
  | waits =>
      rw [← Except.ok.inj he]
      exact hlock.trans sameTable_setPc
  | acquired =>
      simp only [breadLocked] at he
      by_cases hv : ((s.setBuf b fun bf => { bf with lock := lock }).buffers b).valid = true
      · rw [if_pos hv] at he
        exact hlock.trans (sameTable_breadRelease he)
      · rw [if_neg hv] at he
        rw [← Except.ok.inj he]
        exact hlock.trans sameTable_setPc

theorem sameTable_breadAt (he : breadAt s t b = .ok s') : SameTable s s' := by
  rw [breadAt] at he
  by_cases hv : (s.buffers b).valid = true
  · rw [if_pos hv] at he
    rw [← Except.ok.inj he]
    exact sameTable_setPc
  · rw [if_neg hv] at he
    obtain ⟨⟨lock, turn⟩, -, he⟩ := bind_eq_ok he
    exact sameTable_breadLocked he

theorem sameTable_getblkFound : SameTable s (getblkFound s t b) := by
  have hset : SameTable { s with free_list := s.free_list.erase b, refs := (t, b) :: s.refs }
      (getblkFound s t b) :=
    sameTable_setBuf _ b (f := fun bf => { bf with count := bf.count + 1 }) fun _ => ⟨rfl, rfl⟩
  exact ⟨hset.table, hset.count, hset.dev, hset.block⟩

theorem sameTable_putBuffer (he : putBuffer s t b = .ok s') : SameTable s s' := by
  obtain ⟨_, -, he⟩ := bind_eq_ok he
  have hset : SameTable s (s.setBuf b fun bf => { bf with count := bf.count - 1 }) :=
    sameTable_setBuf _ _ (by exact fun _ => ⟨rfl, rfl⟩)
  dsimp only at he
  split at he
  · rw [← Except.ok.inj he]
    exact ⟨hset.table, hset.count, hset.dev, hset.block⟩
  · obtain ⟨_, -, he⟩ := bind_eq_ok he
    rw [← Except.ok.inj he]
    exact ⟨hset.table, hset.count, hset.dev, hset.block⟩

theorem sameTable_bwrite : SameTable s (bwrite s t b) := by
  rw [bwrite]
  split
  · exact sameTable_setPc
  · exact .refl s

theorem sameTable_brelse (he : brelse s t b = .ok s') : SameTable s s' := by
  rw [brelse] at he
  split at he
  · rw [← Except.ok.inj he]
    exact sameTable_setPc
  · exact sameTable_putBuffer he

theorem sameTable_readTurn {k : Nat} (he : readTurn s t b k = .ok s') : SameTable s s' := by
  rw [readTurn] at he
  split at he
  · rw [← Except.ok.inj he]
    exact (sameTable_setBuf _ _ (by exact fun _ => ⟨rfl, rfl⟩)).trans sameTable_setPc
  · exact (sameTable_setBuf _ _ (by exact fun _ => ⟨rfl, rfl⟩)).trans (sameTable_breadRelease he)

theorem sameTable_writeTurn {k : Nat} {release : Bool} (he : writeTurn s t b k release = .ok s') :
    SameTable s s' := by
  rw [writeTurn] at he
  split at he
  · rw [← Except.ok.inj he]
    exact ⟨rfl, rfl, fun _ => rfl, fun _ => rfl⟩
  · have hdone : SameTable s ((s.setBuf b fun bf => { bf with dirty := false, valid := true }).setPc
        t .user) := (sameTable_setBuf _ _ (by exact fun _ => ⟨rfl, rfl⟩)).trans sameTable_setPc
    cases release with
    | false =>
        rw [← Except.ok.inj he]
        exact hdone
    | true => exact hdone.trans (sameTable_putBuffer he)

/-! ## The step that gets a free buffer -/

/-- What `get_free_buffer` leaves on the table was there before. -/
structure Fewer (s m : Cache σ) : Prop where
  table : ∀ b, InTable m b → InTable s b
  dev : ∀ b, (m.buffers b).dev = (s.buffers b).dev
  block : ∀ b, (m.buffers b).block = (s.buffers b).block

theorem Fewer.onePerBlock (h : Fewer s m) (hs : OnePerBlock s) : OnePerBlock m := by
  intro b₁ b₂ h₁ h₂ hd hk
  rw [h.dev, h.dev] at hd
  rw [h.block, h.block] at hk
  exact hs b₁ b₂ (h.table b₁ h₁) (h.table b₂ h₂) hd hk

/-- A new buffer leaves the table as it is. -/
theorem Placed.getNewBuffer (hs : Placed s) :
    Placed (getNewBuffer s) ∧ ¬ InTable (getNewBuffer s) s.buffer_count ∧
      Fewer s (getNewBuffer s) := by
  have hset : SameTable s (s.setBuf s.buffer_count fun bf =>
      { bf with count := 0, dirty := false, valid := false, lock := lockInit }) :=
    sameTable_setBuf _ _ (by exact fun _ => ⟨rfl, rfl⟩)
  have hplaced := hset.placed hs
  refine ⟨⟨hplaced.bucket, hplaced.nodup, ?_⟩, ?_, ⟨?_, hset.dev, hset.block⟩⟩
  · intro b hb
    exact Nat.lt_succ_of_lt (hs.below b hb)
  · intro hin
    exact absurd (hs.below _ hin) (Nat.lt_irrefl _)
  · intro b hb
    exact hb

/-- `hash_remove` takes a buffer off the table. -/
theorem Placed.hashRemove (hs : Placed s) (he : hashRemove s b = .ok m) :
    Placed m ∧ ¬ InTable m b ∧ b < m.buffer_count ∧ Fewer s m := by
  obtain ⟨_, hmem, he⟩ := bind_eq_ok he
  have hm := Except.ok.inj he
  have hin := of_check hmem
  have htable : m.hash_table = Function.update s.hash_table (s.buffers b).bucket
      ((s.hash_table (s.buffers b).bucket).erase b) := by
    rw [← hm]
  have hbuf : m.buffers = s.buffers := by rw [← hm]
  have hcount : m.buffer_count = s.buffer_count := by rw [← hm]
  -- what is on a list now was on it before, and is not the buffer removed
  have hsub : ∀ i c, c ∈ m.hash_table i → c ∈ s.hash_table i ∧ c ≠ b := by
    intro i c hc
    rw [htable] at hc
    by_cases hi : i = (s.buffers b).bucket
    · subst hi
      rw [Function.update_self] at hc
      exact ⟨List.mem_of_mem_erase hc, fun heq => (hs.nodup _).not_mem_erase (heq ▸ hc)⟩
    · rw [Function.update_of_ne hi] at hc
      refine ⟨hc, ?_⟩
      rintro rfl
      exact hi (hs.bucket i c hc).symm
  have hinTable : ∀ c, InTable m c → InTable s c := by
    rintro c ⟨i, hc⟩
    exact ⟨i, (hsub i c hc).1⟩
  refine ⟨⟨?_, ?_, ?_⟩, ?_, ?_, ⟨hinTable, ?_, ?_⟩⟩
  · intro i c hc
    rw [hbuf]
    exact hs.bucket i c (hsub i c hc).1
  · intro i
    rw [htable]
    by_cases hi : i = (s.buffers b).bucket
    · subst hi
      rw [Function.update_self]
      exact (hs.nodup _).erase b
    · rw [Function.update_of_ne hi]
      exact hs.nodup i
  · intro c hc
    rw [hcount]
    exact hs.below c (hinTable c hc)
  · rintro ⟨i, hc⟩
    exact (hsub i b hc).2 rfl
  · rw [hcount]
    exact hs.below b ⟨_, hin⟩
  · intro c
    rw [hbuf]
  · intro c
    rw [hbuf]

/-- A buffer `get_free_buffer` returns is off the table, and no other has moved. -/
theorem Placed.getFreeBuffer (hs : Placed s)
    (he : getFreeBuffer buffer_max s = .ok (some (b, m))) :
    Placed m ∧ ¬ InTable m b ∧ b < m.buffer_count ∧ Fewer s m := by
  rw [NeonixBufferCache.getFreeBuffer] at he
  by_cases hlt : s.buffer_count < buffer_max
  · rw [if_pos hlt] at he
    obtain ⟨rfl, rfl⟩ := Prod.mk.inj (Option.some.inj (Except.ok.inj he))
    obtain ⟨hplaced, hnot, hfewer⟩ := hs.getNewBuffer
    exact ⟨hplaced, hnot, Nat.lt_succ_self _, hfewer⟩
  · rw [if_neg hlt] at he
    cases hl : s.free_list.getLast? with
    | none =>
        rw [hl] at he
        cases Except.ok.inj he
    | some c =>
        rw [hl] at he
        obtain ⟨r, hr, he⟩ := bind_eq_ok he
        obtain ⟨rfl, rfl⟩ := Prod.mk.inj (Option.some.inj (Except.ok.inj he))
        have hpopped : SameTable s { s with free_list := s.free_list.dropLast } :=
          ⟨rfl, rfl, fun _ => rfl, fun _ => rfl⟩
        obtain ⟨hplaced, hnot, hlt, hfewer⟩ := (hpopped.placed hs).hashRemove hr
        have hset : SameTable r (r.setBuf c fun bf => { bf with valid := false }) :=
          sameTable_setBuf _ _ (by exact fun _ => ⟨rfl, rfl⟩)
        refine ⟨hset.placed hplaced, ?_, ?_, ⟨?_, ?_, ?_⟩⟩
        · rw [hset.inTable]
          exact hnot
        · exact hset.count ▸ hlt
        · intro b hb
          exact hfewer.table b (hset.inTable.mp hb)
        · intro b
          exact (hset.dev b).trans (hfewer.dev b)
        · intro b
          exact (hset.block b).trans (hfewer.block b)

theorem Placed.hashed (hs : Placed s) : InTable s b ↔ Hashed s b := by
  constructor
  · rintro ⟨i, hb⟩
    rw [Hashed, hs.bucket i b hb]
    exact hb
  · intro hb
    exact ⟨_, hb⟩

theorem Placed.absent_iff (hs : Placed s) : hashSearch s dev block = none ↔
    ∀ b, InTable s b → ¬ ((s.buffers b).dev = dev ∧ (s.buffers b).block = block) := by
  constructor
  · intro hnone b hb
    exact hashSearch_none hnone b (hs.hashed.mp hb)
  · intro hall
    refine List.find?_eq_none.mpr fun b hb => ?_
    rw [decide_eq_true_eq]
    exact hall b ⟨_, hb⟩

/-- `getblk` installs a buffer that is off the table: one buffer a block is left
    if and only if the table has none of the block. -/
theorem Placed.install {n : Cache σ} (hs : Placed m) (hb : ¬ InTable m b) (hlt : b < m.buffer_count)
    (he : hashLocate (m.setBuf b fun bf => { bf with count := 1, dev := dev, block := block }) b =
      .ok n) :
    Placed n ∧ (OnePerBlock m → (OnePerBlock n ↔ hashSearch m dev block = none)) := by
  obtain ⟨_, -, he⟩ := bind_eq_ok he
  have hn := Except.ok.inj he
  have hself : (n.buffers b).dev = dev ∧ (n.buffers b).block = block := by
    rw [← hn]
    dsimp only
    rw [setBuf_self]
    exact ⟨rfl, rfl⟩
  have hother : ∀ b', b' ≠ b → n.buffers b' = m.buffers b' := by
    intro b' hne
    rw [← hn]
    exact Function.update_of_ne hne ..
  have htable : n.hash_table =
      Function.update m.hash_table (hash dev block) (b :: m.hash_table (hash dev block)) := by
    rw [← hn]
    simp only [setBuf_self]
    rfl
  have hcount : n.buffer_count = m.buffer_count := by
    rw [← hn]
    rfl
  have hmem : ∀ i b', b' ∈ n.hash_table i ↔ b' ∈ m.hash_table i ∨ b' = b ∧ i = hash dev block := by
    intro i b'
    rw [htable]
    by_cases hi : i = hash dev block
    · subst hi
      rw [Function.update_self, List.mem_cons, or_comm]
      simp
    · rw [Function.update_of_ne hi]
      simp [hi]
  have hne : ∀ i b', b' ∈ m.hash_table i → b' ≠ b := by
    rintro i b' hi rfl
    exact hb ⟨i, hi⟩
  have hin : ∀ b', InTable n b' ↔ InTable m b' ∨ b' = b := by
    intro b'
    constructor
    · rintro ⟨i, hi⟩
      exact ((hmem i b').mp hi).imp (fun h => ⟨i, h⟩) And.left
    · rintro (⟨i, hi⟩ | rfl)
      · exact ⟨i, (hmem i b').mpr (Or.inl hi)⟩
      · exact ⟨_, (hmem _ b').mpr (Or.inr ⟨rfl, rfl⟩)⟩
  refine ⟨⟨?_, ?_, ?_⟩, ?_⟩
  · intro i b' hb'
    rcases (hmem i b').mp hb' with hb' | ⟨rfl, rfl⟩
    · rw [hother b' (hne i b' hb')]
      exact hs.bucket i b' hb'
    · rw [Buffer.bucket, hself.1, hself.2]
  · intro i
    rw [htable]
    by_cases hi : i = hash dev block
    · subst hi
      rw [Function.update_self]
      exact List.nodup_cons.mpr ⟨fun hmem => hb ⟨_, hmem⟩, hs.nodup _⟩
    · rw [Function.update_of_ne hi]
      exact hs.nodup i
  · intro b' hb'
    rw [hcount]
    rcases (hin b').mp hb' with hb' | rfl
    · exact hs.below b' hb'
    · exact hlt
  · intro hone
    constructor
    · intro hall
      cases hf : hashSearch m dev block with
      | none => rfl
      | some c =>
          -- the buffer found and the one installed have the same key
          have hkey := List.find?_some hf
          obtain ⟨hd, hk⟩ := of_decide_eq_true hkey
          have hc : InTable m c := ⟨_, List.mem_of_find?_eq_some hf⟩
          have hcb : c ≠ b := by
            rintro rfl
            exact hb hc
          refine absurd (hall c b ((hin c).mpr (Or.inl hc)) ((hin b).mpr (Or.inr rfl)) ?_ ?_) hcb
          · rw [hother c hcb, hself.1, hd]
          · rw [hother c hcb, hself.2, hk]
    · intro hnone
      have hkey : ∀ c, InTable m c → ¬ ((m.buffers c).dev = dev ∧ (m.buffers c).block = block) :=
        fun c hc => hashSearch_none hnone c (hs.hashed.mp hc)
      have hneq : ∀ c, InTable m c → c ≠ b := by
        rintro c hc rfl
        exact hb hc
      intro b₁ b₂ h₁ h₂ hd hk
      rcases (hin b₁).mp h₁ with h₁ | rfl
      · rw [hother b₁ (hneq b₁ h₁)] at hd hk
        rcases (hin b₂).mp h₂ with h₂ | rfl
        · rw [hother b₂ (hneq b₂ h₂)] at hd hk
          exact hone b₁ b₂ h₁ h₂ hd hk
        · rw [hself.1] at hd
          rw [hself.2] at hk
          exact absurd ⟨hd, hk⟩ (hkey b₁ h₁)
      · rcases (hin b₂).mp h₂ with h₂ | rfl
        · rw [hself.1, hother b₂ (hneq b₂ h₂)] at hd
          rw [hself.2, hother b₂ (hneq b₂ h₂)] at hk
          exact absurd ⟨hd.symm, hk.symm⟩ (hkey b₂ h₂)
        · rfl

/-- The table that is left when `get_free_buffer` returns a buffer has none of
    the block. -/
def AbsentFrom (dev block : Nat) : Res (Option (Nat × Cache σ)) → Prop
  | .ok (some (_, m)) => hashSearch m dev block = none
  | .ok none => True
  | .error _ => True

/-- A task that asks for a free buffer now does not install a second one of the
    block. -/
def StillAbsent (buffer_max : Nat) (s : Cache σ) (dev block : Nat) : Prop :=
  AbsentFrom dev block (getFreeBuffer buffer_max s)

theorem Placed.breadFree (hs : Placed s) (hone : OnePerBlock s)
    (he : breadFree buffer_max s t dev block = .ok s') :
    Placed s' ∧ (OnePerBlock s' ↔ StillAbsent buffer_max s dev block) := by
  obtain ⟨r, hr, he⟩ := bind_eq_ok he
  rw [StillAbsent, hr]
  cases r with
  | none =>
      rw [← Except.ok.inj he]
      have hsame : SameTable s { s.setPc t (.getFree dev block) with wait_list := t :: s.wait_list } :=
        ⟨rfl, rfl, fun _ => rfl, fun _ => rfl⟩
      exact ⟨hsame.placed hs, iff_of_true (hsame.onePerBlock.mpr hone) trivial⟩
  | some r =>
      obtain ⟨b, m⟩ := r
      obtain ⟨hm, hb, hlt, hfewer⟩ := hs.getFreeBuffer hr
      obtain ⟨_, -, he⟩ := bind_eq_ok he
      obtain ⟨_, -, he⟩ := bind_eq_ok he
      obtain ⟨n, hn, he⟩ := bind_eq_ok he
      obtain ⟨hplaced, hiff⟩ := hm.install hb hlt hn
      have hsame : SameTable n s' := by
        have hat := sameTable_breadAt he
        exact ⟨hat.table, hat.count, hat.dev, hat.block⟩
      exact ⟨hsame.placed hplaced, hsame.onePerBlock.trans (hiff (hfewer.onePerBlock hone))⟩

/-- A table without a buffer of the block has none without the evicted one either. -/
theorem Placed.stillAbsent (hs : Placed s) (hnone : hashSearch s dev block = none) :
    StillAbsent buffer_max s dev block := by
  rw [StillAbsent]
  cases hr : NeonixBufferCache.getFreeBuffer buffer_max s with
  | error e => trivial
  | ok r =>
      cases r with
      | none => trivial
      | some r =>
          obtain ⟨b, m⟩ := r
          obtain ⟨hm, -, -, hfewer⟩ := hs.getFreeBuffer hr
          refine hm.absent_iff.mpr fun c hc => ?_
          rw [hfewer.dev, hfewer.block]
          exact hs.absent_iff.mp hnone c (hfewer.table c hc)

/-! ## Every reachable state -/

/-- A task that waited for a free buffer still finds no buffer of its block. -/
def UnracedAt (buffer_max : Nat) (s : Cache σ) : Pc → Prop
  | .getFree dev block => StillAbsent buffer_max s dev block
  | .user | .lockWait _ | .reading _ _ | .unlocked _ | .writing _ _ _ => True

/-- The steps in which no waiting task installs a second buffer of a block. -/
def Unraced (buffer_max : Nat) (s : Cache σ) : Event σ → Prop
  | .resume t => UnracedAt buffer_max s (s.pc t)
  | .bread _ _ _ | .modify _ _ _ | .bwrite _ _ | .brelse _ _ => True

theorem Placed.step {e : Event σ} (hs : Placed s) (hone : OnePerBlock s)
    (hst : (system σ buffer_max).step s e s') :
    Placed s' ∧ (OnePerBlock s' ↔ Unraced buffer_max s e) := by
  obtain ⟨-, he⟩ := hst
  have hkeep : SameTable s s' → Placed s' ∧ OnePerBlock s' :=
    fun hsame => ⟨hsame.placed hs, hsame.onePerBlock.mpr hone⟩
  have hdone : Placed s' ∧ OnePerBlock s' → Unraced buffer_max s e →
      Placed s' ∧ (OnePerBlock s' ↔ Unraced buffer_max s e) :=
    fun h hu => ⟨h.1, iff_of_true h.2 hu⟩
  cases e with
  | bread t dev block =>
      refine hdone ?_ trivial
      simp only [exec, bread] at he
      cases hf : hashSearch s dev block with
      | some b =>
          rw [hf] at he
          exact hkeep (sameTable_getblkFound.trans (sameTable_breadAt he))
      | none =>
          rw [hf] at he
          obtain ⟨hplaced, hiff⟩ := hs.breadFree hone he
          exact ⟨hplaced, hiff.mpr (hs.stillAbsent hf)⟩
  | modify t b data =>
      refine hdone (hkeep ?_) trivial
      rw [← Except.ok.inj he]
      exact sameTable_setBuf _ _ (by exact fun _ => ⟨rfl, rfl⟩)
  | bwrite t b =>
      refine hdone (hkeep ?_) trivial
      rw [← Except.ok.inj he]
      exact sameTable_bwrite
  | brelse t b => exact hdone (hkeep (sameTable_brelse he)) trivial
  | resume t =>
      simp only [exec] at he
      simp only [Unraced] at hdone ⊢
      cases hpc : s.pc t with
      | user =>
          rw [hpc] at he hdone
          rw [← Except.ok.inj he]
          exact ⟨hs, iff_of_true hone trivial⟩
      | getFree dev block =>
          rw [hpc] at he
          exact hs.breadFree hone he
      | lockWait b =>
          rw [hpc] at he hdone
          obtain ⟨⟨lock, turn⟩, -, he⟩ := bind_eq_ok he
          exact hdone (hkeep (sameTable_breadLocked he)) trivial
      | reading b k =>
          rw [hpc] at he hdone
          exact hdone (hkeep (sameTable_readTurn he)) trivial
      | unlocked b =>
          rw [hpc] at he hdone
          refine hdone (hkeep ?_) trivial
          rw [← Except.ok.inj he]
          exact sameTable_breadReturn
      | writing b k release =>
          rw [hpc] at he hdone
          exact hdone (hkeep (sameTable_writeTurn he)) trivial

theorem placed_init (h : Init s) : Placed s ∧ OnePerBlock s := by
  have hnone : ∀ i b, b ∉ s.hash_table i := by
    intro i b
    rw [h.hash_table i]
    exact List.not_mem_nil
  refine ⟨⟨fun i b hb => absurd hb (hnone i b), ?_, ?_⟩, ?_⟩
  · intro i
    rw [h.hash_table i]
    exact List.nodup_nil
  · rintro b ⟨i, hb⟩
    exact absurd hb (hnone i b)
  · rintro b _ ⟨i, hb⟩
    exact absurd hb (hnone i b)

/-- In the runs in which no waiting task is overtaken the table has one buffer a
    block, and the first step in which one is breaks that. -/
theorem one_buffer_per_block (h : Reach (system σ buffer_max) (Unraced buffer_max) s) :
    OnePerBlock s ∧ ∀ e s', (system σ buffer_max).step s e s' →
      (OnePerBlock s' ↔ Unraced buffer_max s e) := by
  have hinv : Placed s ∧ OnePerBlock s := by
    refine @Reach.invariant _ _ _ _ (fun s => Placed s ∧ OnePerBlock s) ?_ ?_ s h
    · intro s h0
      exact placed_init h0
    · intro s e s' hs hg hst
      obtain ⟨hplaced, hiff⟩ := hs.1.step hs.2 hst
      exact ⟨hplaced, hiff.mpr hg⟩
  exact ⟨hinv.2, fun e s' hst => (hinv.1.step hinv.2 hst).2⟩

instance (dev block : Nat) : (r : Res (Option (Nat × Cache σ))) → Decidable (AbsentFrom dev block r)
  | .ok (some (_, _)) => inferInstanceAs (Decidable (_ = _))
  | .ok none | .error _ => inferInstanceAs (Decidable True)

instance (s : Cache σ) : (p : Pc) → Decidable (UnracedAt buffer_max s p)
  | .getFree _ _ => inferInstanceAs (Decidable (AbsentFrom _ _ _))
  | .user | .lockWait _ | .reading _ _ | .unlocked _ | .writing _ _ _ =>
      inferInstanceAs (Decidable True)

instance (s : Cache σ) : (e : Event σ) → Decidable (Unraced buffer_max s e)
  | .resume t => inferInstanceAs (Decidable (UnracedAt buffer_max s (s.pc t)))
  | .bread _ _ _ | .modify _ _ _ | .bwrite _ _ | .brelse _ _ => inferInstanceAs (Decidable True)

/-- A task waits for the only buffer, which is released to it. -/
theorem one_buffer_per_block_waited : ∃ s : Cache Nat,
    (s.hash_table (hash 0 6), s.hash_table (hash 0 5), (s.buffers 0).block) = ([0], [], 6) ∧
      OnePerBlock s := by
  have hrun : (follow (Unraced 1) Enabled (exec 1) emptyCache
      [.bread 1 0 5, .resume 1, .resume 1, .resume 1, .bread 2 0 6, .brelse 1 0, .resume 2]).map
      (fun s => (s.hash_table (hash 0 6), s.hash_table (hash 0 5), (s.buffers 0).block)) =
      some ([0], [], 6) := by
    decide
  obtain ⟨s, hs, hobs⟩ := Option.map_eq_some_iff.mp hrun
  exact ⟨s, hobs, (one_buffer_per_block (Reach.follow _ (.start emptyCache_init) hs)).1⟩

/-- Tasks 3 and 4 wait for block 6 while both buffers are in use; each gets one
    of them when it is released. -/
theorem two_waiters_two_buffers :
    ¬ ∀ s : Cache Nat, Reach (system Nat 2) free s → OnePerBlock s := by
  intro hall
  have hrun : (follow free Enabled (exec 2) emptyCache
      [.bread 1 0 5, .resume 1, .resume 1, .resume 1, .bread 2 0 7, .resume 2, .resume 2, .resume 2,
        .bread 3 0 6, .bread 4 0 6, .brelse 1 0, .brelse 2 1, .resume 3, .resume 4]).map
      (fun s => (s.hash_table (hash 0 6), (s.buffers 0).dev, (s.buffers 0).block,
        (s.buffers 1).dev, (s.buffers 1).block)) = some ([1, 0], 0, 6, 0, 6) := by
    decide +kernel
  obtain ⟨s, hs, hobs⟩ := Option.map_eq_some_iff.mp hrun
  simp only [Prod.mk.injEq] at hobs
  obtain ⟨htable, hd₀, hb₀, hd₁, hb₁⟩ := hobs
  have hone := hall s (Reach.follow _ (.start emptyCache_init) hs)
  have h₀ : InTable s 0 := ⟨hash 0 6, by rw [htable]; exact List.mem_cons_of_mem _ List.mem_cons_self⟩
  have h₁ : InTable s 1 := ⟨hash 0 6, by rw [htable]; exact List.mem_cons_self⟩
  exact Nat.zero_ne_one (hone 0 1 h₀ h₁ (hd₀.trans hd₁.symm) (hb₀.trans hb₁.symm))

end NeonixBufferTable
