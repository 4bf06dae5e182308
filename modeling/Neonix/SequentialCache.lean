import Neonix.BufferTable

/-! # The buffer cache of one task is a plain disk

    One task calls `bread`, changes the buffers it holds, and gives them back.
    A call runs through: nobody else is switched to, so each blocking point is
    followed by the next step of the same task.  The plain disk is an array of
    blocks that only a modification stores to.

    The route: `Shown` says that the valid buffers of the hash table and, for
    the blocks none of them holds, the device together show the plain disk.
    With `CacheInv` every step of the task can be taken and keeps `Shown`;
    `solo_step` puts the steps together, and a call is a number of them. -/

namespace NeonixSequentialCache

open NeonixMachine NeonixMutex NeonixBufferCache NeonixBufferDirty NeonixBufferTable NeonixRuns

variable {σ : Type} {s s' m n : Cache σ} {t b dev block buffer_max : Nat}
  {pending : Option (Nat × Nat)}

/-- A plain disk. -/
abbrev Plain (σ : Type) := Nat → Nat → Data σ

def Plain.store (p : Plain σ) (dev block : Nat) (data : Data σ) : Plain σ :=
  Function.update p dev (Function.update (p dev) block data)

variable {p : Plain σ}

theorem Plain.store_self (p : Plain σ) (data : Data σ) :
    p.store dev block data dev block = data := by
  rw [Plain.store, Function.update_self, Function.update_self]

theorem Plain.store_other (p : Plain σ) (data : Data σ) {d k : Nat} (h : ¬ (d = dev ∧ k = block)) :
    p.store dev block data d k = p d k := by
  rw [Plain.store]
  by_cases hd : d = dev
  · subst hd
    have hk : k ≠ block := fun hk => h ⟨rfl, hk⟩
    rw [Function.update_self, Function.update_of_ne hk]
  · rw [Function.update_of_ne hd]

/-- The buffer cache as a plain disk: a valid buffer has the contents of its
    block, and so has the device for a block no valid buffer holds.  A buffer
    nobody refers to is free. -/
structure Shown (s : Cache σ) (p : Plain σ) : Prop where
  waiters : ∀ b, Hashed s b → (s.buffers b).lock.waiters = []
  idle : ∀ b, Hashed s b → (∀ t, (t, b) ∉ s.refs) → b ∈ s.free_list
  cached : ∀ b, Hashed s b → (s.buffers b).valid = true →
    (s.buffers b).data = p (s.buffers b).dev (s.buffers b).block
  rest : ∀ dev block, (∀ b, Hashed s b → (s.buffers b).valid = true →
    ¬ ((s.buffers b).dev = dev ∧ (s.buffers b).block = block)) → s.disk dev block = p dev block

/-- What a free buffer holds is on the device. -/
theorem Shown.free (h : Shown s p) (hinv : CacheInv s none) (hb : b ∈ s.free_list) :
    s.disk (s.buffers b).dev (s.buffers b).block = p (s.buffers b).dev (s.buffers b).block := by
  obtain ⟨hashed, -, hdirty⟩ := hinv.free b hb
  by_cases hv : (s.buffers b).valid = true
  · rw [← h.cached b hashed hv]
    funext i
    exact (hinv.clean b hv hdirty i).symm
  · refine h.rest _ _ fun b' hb' hv' hkey => ?_
    rw [hinv.unique b' b hb' hashed hkey.1 hkey.2] at hv'
    exact hv hv'

/-! ## Stores to one buffer -/

variable {f : Buffer σ → Buffer σ}

theorem hashed_setBuf (hf : ∀ bf, (f bf).dev = bf.dev ∧ (f bf).block = bf.block) (b' : Nat) :
    Hashed (s.setBuf b f) b' ↔ Hashed s b' := by
  have hkey := sameTable_setBuf s b hf
  rw [Hashed, Hashed, Buffer.bucket, Buffer.bucket, hkey.dev, hkey.block]
  rfl

/-- A store that keeps the key, that leaves a valid buffer valid and shows what
    the disk now has of the block. -/
theorem Shown.touch {p' : Plain σ} (h : Shown s p) (hinv : CacheInv s pending) (hb : Hashed s b)
    (hf : ∀ bf, (f bf).dev = bf.dev ∧ (f bf).block = bf.block)
    (hw : (f (s.buffers b)).lock.waiters = [])
    (hv : (s.buffers b).valid = true → (f (s.buffers b)).valid = true)
    (hdata : (f (s.buffers b)).valid = true →
      (f (s.buffers b)).data = p' (s.buffers b).dev (s.buffers b).block)
    (hp : ∀ dev block, ¬ ((s.buffers b).dev = dev ∧ (s.buffers b).block = block) →
      p' dev block = p dev block)
    (hself : (f (s.buffers b)).valid = false →
      p' (s.buffers b).dev (s.buffers b).block = p (s.buffers b).dev (s.buffers b).block) :
    Shown (s.setBuf b f) p' := by
  have hkey := sameTable_setBuf s b hf
  have hother : ∀ b', b' ≠ b → (s.setBuf b f).buffers b' = s.buffers b' :=
    fun b' hne => setBuf_other s b f hne
  constructor
  · intro b' hb'
    by_cases heq : b' = b
    · rw [heq, setBuf_self]
      exact hw
    · rw [hother b' heq]
      exact h.waiters b' ((hashed_setBuf hf b').mp hb')
  · intro b' hb'
    exact h.idle b' ((hashed_setBuf hf b').mp hb')
  · intro b' hb' hv'
    have hb' := (hashed_setBuf hf b').mp hb'
    rw [hkey.dev, hkey.block]
    by_cases heq : b' = b
    · rw [heq, setBuf_self] at hv' ⊢
      exact hdata hv'
    · rw [hother b' heq] at hv' ⊢
      rw [h.cached b' hb' hv', hp]
      rintro ⟨hd, hk⟩
      exact heq (hinv.unique b' b hb' hb hd.symm hk.symm)
  · intro dev block hnone
    show s.disk dev block = p' dev block
    have hold : ∀ b', Hashed s b' → (s.buffers b').valid = true →
        ¬ ((s.buffers b').dev = dev ∧ (s.buffers b').block = block) := by
      intro b' hb' hv'
      rw [← hkey.dev, ← hkey.block]
      refine hnone b' ((hashed_setBuf hf b').mpr hb') ?_
      by_cases heq : b' = b
      · rw [heq] at hv' ⊢
        rw [setBuf_self]
        exact hv hv'
      · rw [hother b' heq]
        exact hv'
    rw [h.rest dev block hold]
    by_cases hk : (s.buffers b).dev = dev ∧ (s.buffers b).block = block
    · obtain ⟨rfl, rfl⟩ := hk
      refine (hself ?_).symm
      by_contra hc
      refine hnone b ((hashed_setBuf hf b).mpr hb) ?_ ⟨hkey.dev b, hkey.block b⟩
      rw [setBuf_self]
      simpa using hc
    · exact (hp dev block hk).symm

/-! ## The steps of the task -/

/-- Where a task that is alone can stand. -/
def Settled : Pc → Prop
  | .user | .reading _ _ | .writing _ _ _ => True
  | .getFree _ _ | .lockWait _ | .unlocked _ => False

/-- Outside the cache, or in the request of `bread`. -/
def Reads : Pc → Prop
  | .user | .reading _ _ => True
  | .writing _ _ _ | .getFree _ _ | .lockWait _ | .unlocked _ => False

/-- How many steps are left of a call. -/
def stepsLeft : Pc → Nat
  | .reading _ k | .writing _ k _ => BLOCK_SECS - k + 1
  | .user | .getFree _ _ | .lockWait _ | .unlocked _ => 0

/-- A step of the task, with so many steps left. -/
structure Moved (t : Nat) (s s' : Cache σ) (p : Plain σ) (left : Nat) : Prop where
  shown : Shown s' p
  others : ∀ t', t' ≠ t → s'.pc t' = s.pc t'
  place : Settled (s'.pc t)
  left : stepsLeft (s'.pc t) ≤ left

theorem Shown.moved {q : Pc} {left : Nat} (h : Shown m p) (hpc : m.pc = s.pc) (hq : Settled q)
    (hl : stepsLeft q ≤ left) : Moved t s (m.setPc t q) p left := by
  constructor
  · exact ⟨h.waiters, h.idle, h.cached, h.rest⟩
  · intro t' ht
    rw [setPc_other m t q ht, hpc]
  · rw [setPc_self]
    exact hq
  · rw [setPc_self]
    exact hl

/-- `bread` of a buffer nobody has locked. -/
theorem breadAt_moved (h : Shown s p) (hinv : CacheInv s pending) (hb : Hashed s b)
    (hu : (s.buffers b).lock.Unheld) :
    ∃ s', breadAt s t b = .ok s' ∧ Moved t s s' p (BLOCK_SECS + 1) ∧ Reads (s'.pc t) ∧
      SameTable s s' ∧ s'.refs = s.refs := by
  by_cases hv : (s.buffers b).valid = true
  · refine ⟨s.setPc t .user, ?_, h.moved rfl trivial (Nat.zero_le _), ?_, sameTable_setPc, rfl⟩
    · rw [breadAt, if_pos hv]
    · rw [setPc_self]
      trivial
  · have hne : (s.buffers b).lock.holder ≠ some t := by
      rw [hu.1]
      rintro ⟨⟩
    have he : breadAt s t b = .ok ((s.setBuf b fun bf => { bf with lock :=
        { (s.buffers b).lock with value := true, holder := some t, repeats := 1 } }).setPc t
          (.reading b 0)) := by
      rw [breadAt, if_neg hv, lockAcquire, if_pos hne, mutexTurn_unheld hu, bind_ok]
      simp only [breadLocked, setBuf_self, hv, if_false, Bool.false_eq_true]
    refine ⟨_, he, Shown.moved ?_ rfl trivial (Nat.le_refl _), by rw [setPc_self]; trivial,
      sameTable_breadAt he, rfl⟩
    refine h.touch hinv hb (by exact fun _ => ⟨rfl, rfl⟩) (h.waiters b hb) id ?_
      (fun _ _ _ => rfl) (fun _ => rfl)
    exact fun hv' => absurd hv' hv

/-- The request of `bread` takes a step. -/
theorem readTurn_moved {k : Nat} (h : Shown s p) (hinv : CacheInv s none)
    (hk : s.pc t = .reading b k) :
    ∃ s', readTurn s t b k = .ok s' ∧ Moved t s s' p (BLOCK_SECS - k) ∧ Reads (s'.pc t) ∧
      SameTable s s' ∧ s'.refs = s.refs := by
  have hok := hinv.tasks t
  rw [hk] at hok
  obtain ⟨href, hl, hv, hd, hi⟩ := hok
  have hb := hinv.refs t b href
  by_cases hlt : k < BLOCK_SECS
  · generalize hx : s.disk (s.buffers b).dev (s.buffers b).block ⟨k, hlt⟩ = x
    have he : readTurn s t b k = .ok ((s.setBuf b fun bf =>
        { bf with data := Function.update bf.data ⟨k, hlt⟩ x }).setPc t (.reading b (k + 1))) := by
      rw [readTurn, dif_pos hlt, ← hx]
    refine ⟨_, he, Shown.moved ?_ rfl trivial ?_, ?_, sameTable_readTurn he, rfl⟩
    · refine h.touch hinv hb (by exact fun _ => ⟨rfl, rfl⟩) (h.waiters b hb) id ?_
        (fun _ _ _ => rfl) (fun _ => rfl)
      intro hv'
      exact absurd (hv.symm.trans hv') Bool.false_ne_true
    · show BLOCK_SECS - (k + 1) + 1 ≤ BLOCK_SECS - k
      omega
    · rw [setPc_self]
      trivial
  · have hw := h.waiters b hb
    have hl' : ((s.setBuf b fun bf => { bf with dirty := false, valid := true }).buffers
        b).lock.HeldBy t := by
      rw [setBuf_self]
      exact hl
    have he : readTurn s t b k = .ok ((s.setBuf b fun bf => { bf with
        dirty := false, valid := true, lock := freed (s.buffers b).lock }).setPc t .user) := by
      rw [readTurn, dif_neg hlt]
      rcases breadRelease_eq hl' with ⟨hc, -⟩ | ⟨-, he⟩
      · rw [setBuf_self] at hc
        exact absurd hw hc
      · rw [he, setBuf_setBuf, setBuf_self]
    refine ⟨_, he, Shown.moved ?_ rfl trivial (Nat.zero_le _), by rw [setPc_self]; trivial,
      sameTable_readTurn he, rfl⟩
    -- what has been read is the device, and no other valid buffer holds the block
    have hdata : (s.buffers b).data = p (s.buffers b).dev (s.buffers b).block := by
      rw [← h.rest (s.buffers b).dev (s.buffers b).block]
      · funext i
        exact hi i (Nat.lt_of_lt_of_le i.isLt (Nat.not_lt.mp hlt))
      · intro b' hb' hv' hkey
        rw [hinv.unique b' b hb' hb hkey.1 hkey.2] at hv'
        exact absurd (hv.symm.trans hv') Bool.false_ne_true
    refine h.touch hinv hb (by exact fun _ => ⟨rfl, rfl⟩) ?_ (fun _ => rfl) (fun _ => hdata)
      (fun _ _ _ => rfl) (fun _ => rfl)
    show (s.buffers b).lock.waiters.dropLast = []
    rw [hw]
    rfl

/-- The end of `brelse` of a buffer. -/
theorem putBuffer_moved (left : Nat) (h : Shown s p) (hinv : CacheInv s none)
    (href : (t, b) ∈ s.refs) :
    ∃ s', putBuffer s t b = .ok s' ∧ Moved t s s' p left := by
  have hb := hinv.refs t b href
  have hcount := hinv.count b
  have hpos : 0 < s.refs.countP (·.2 = b) := List.countP_pos_iff.mpr ⟨(t, b), href, by simp⟩
  have hfree : b ∉ s.free_list := fun hmem => (hinv.free b hmem).2.1 t href
  have hset : Shown (s.setBuf b fun bf => { bf with count := bf.count - 1 }) p :=
    h.touch hinv hb (by exact fun _ => ⟨rfl, rfl⟩) (h.waiters b hb) id (h.cached b hb)
      (fun _ _ _ => rfl) (fun _ => rfl)
  have hmoved : Moved t s ((s.setBuf b fun bf => { bf with count := bf.count - 1 }).setPc t .user)
      p left := hset.moved rfl trivial (Nat.zero_le _)
  have hlists : ∀ free wait,
      (∀ b', Hashed s b' → (∀ t', (t', b') ∉ s.refs.erase (t, b)) → b' ∈ free) →
      Moved t s { (s.setBuf b fun bf => { bf with count := bf.count - 1 }).setPc t .user with
        refs := s.refs.erase (t, b), free_list := free, wait_list := wait } p left := by
    intro free wait hidle
    refine ⟨⟨hmoved.shown.waiters, ?_, hmoved.shown.cached, hmoved.shown.rest⟩, hmoved.others,
      hmoved.place, hmoved.left⟩
    intro b' hb'
    refine hidle b' ((hashed_setBuf (s := s) (b := b)
      (f := fun bf => { bf with count := bf.count - 1 }) (fun _ => ⟨rfl, rfl⟩) b').mp hb')
  have hother : ∀ b', b' ≠ b → Hashed s b' → (∀ t', (t', b') ∉ s.refs.erase (t, b)) →
      b' ∈ s.free_list := by
    intro b' hne hb' hnone
    refine h.idle b' hb' fun t' hmem => hnone t' ((List.mem_erase_of_ne ?_).mpr hmem)
    intro heq
    exact hne (Prod.mk.inj heq).2
  by_cases hz : (s.buffers b).count - 1 = 0
  · have hfree' : b ∉ ((s.setBuf b fun bf => { bf with count := bf.count - 1 }).setPc t
        .user).free_list := hfree
    refine ⟨_, ?_, hlists (b :: s.free_list) s.wait_list.dropLast ?_⟩
    · simp only [putBuffer, setPc_buffers, setBuf_self, hz, ne_eq, not_true_eq_false, if_false,
        check_pos (Int.le_refl 0), bind_ok]
      rw [check_pos hfree', bind_ok]
      rfl
    · intro b' hb' hnone
      by_cases heq : b' = b
      · rw [heq]
        exact List.mem_cons_self
      · exact List.mem_cons_of_mem _ (hother b' heq hb' hnone)
  · refine ⟨_, ?_, hlists s.free_list s.wait_list ?_⟩
    · simp only [putBuffer, setPc_buffers, setBuf_self, ne_eq, hz, not_false_eq_true, if_true]
      rw [check_pos (by omega), bind_ok]
      rfl
    · intro b' hb' hnone
      by_cases heq : b' = b
      · -- another reference to the buffer is left
        have hleft : 0 < (s.refs.erase (t, b)).countP (·.2 = b) := by
          rw [List.countP_erase]
          simp only [href, decide_true, and_self, if_true]
          omega
        obtain ⟨⟨t', b''⟩, hmem, hx⟩ := List.countP_pos_iff.mp hleft
        have hx : b'' = b := of_decide_eq_true hx
        rw [hx, ← heq] at hmem
        exact absurd hmem (heq ▸ hnone t')
      · exact hother b' heq hb' hnone

/-- The sectors a request writes are those of a valid buffer. -/
theorem Shown.writeSector {k : Fin BLOCK_SECS} (h : Shown s p) (hb : Hashed s b)
    (hv : (s.buffers b).valid = true) : Shown (writeSector s b k) p := by
  refine ⟨h.waiters, h.idle, h.cached, ?_⟩
  intro dev block hnone
  have hne : ¬ ((s.buffers b).dev = dev ∧ (s.buffers b).block = block) := hnone b hb hv
  rw [← h.rest dev block hnone, NeonixBufferCache.writeSector]
  dsimp only
  by_cases hd : dev = (s.buffers b).dev
  · have hk : block ≠ (s.buffers b).block := fun hk => hne ⟨hd.symm, hk.symm⟩
    rw [hd, Function.update_self, Function.update_of_ne hk]
  · rw [Function.update_of_ne hd]

/-- The request of `bwrite` takes a step. -/
theorem writeTurn_moved {k : Nat} {release : Bool} (h : Shown s p) (hinv : CacheInv s none)
    (hk : s.pc t = .writing b k release) :
    ∃ s', writeTurn s t b k release = .ok s' ∧ Moved t s s' p (BLOCK_SECS - k) := by
  have hok := hinv.tasks t
  rw [hk] at hok
  obtain ⟨href, hv, -⟩ := hok
  have hb := hinv.refs t b href
  rw [writeTurn]
  by_cases hlt : k < BLOCK_SECS
  · rw [dif_pos hlt]
    refine ⟨_, rfl, (h.writeSector hb hv).moved rfl trivial ?_⟩
    show BLOCK_SECS - (k + 1) + 1 ≤ BLOCK_SECS - k
    omega
  · rw [dif_neg hlt]
    have hdone : Shown (s.setBuf b fun bf => { bf with dirty := false, valid := true }) p :=
      h.touch hinv hb (by exact fun _ => ⟨rfl, rfl⟩) (h.waiters b hb) (fun _ => rfl)
        (fun _ => h.cached b hb hv) (fun _ _ _ => rfl) (fun _ => rfl)
    have hmoved : ∀ left, Moved t s ((s.setBuf b fun bf =>
        { bf with dirty := false, valid := true }).setPc t .user) p left :=
      fun left => hdone.moved rfl trivial (Nat.zero_le _)
    cases release with
    | false => exact ⟨_, rfl, hmoved _⟩
    | true =>
        have hinv' := hinv.writeDone hk hlt
        obtain ⟨s', he, hput⟩ := putBuffer_moved (BLOCK_SECS - k) (hmoved 0).shown hinv' href
        exact ⟨s', he, hput.shown, fun t' ht => (hput.others t' ht).trans
          ((hmoved 0).others t' ht), hput.place, hput.left⟩

/-! ## Getting a buffer -/

/-- `getblk` finds the buffer in the hash table. -/
theorem Shown.found (h : Shown s p) (hinv : CacheInv s none) (hb : Hashed s b) :
    Shown (getblkFound s t b) p := by
  have hset : Shown (s.setBuf b fun bf => { bf with count := bf.count + 1 }) p :=
    h.touch hinv hb (by exact fun _ => ⟨rfl, rfl⟩) (h.waiters b hb) id (h.cached b hb)
      (fun _ _ _ => rfl) (fun _ => rfl)
  refine ⟨hset.waiters, ?_, hset.cached, hset.rest⟩
  intro b' hb' hnone
  have hne : b' ≠ b := by
    rintro rfl
    exact hnone t List.mem_cons_self
  refine (List.mem_erase_of_ne hne).mpr (hset.idle b' hb' fun t' hmem => ?_)
  exact hnone t' (List.mem_cons_of_mem _ hmem)

/-- `get_free_buffer` where it need not wait: a block that leaves the cache is on
    the device. -/
theorem Shown.freeBuffer (h : Shown s p) (hinv : CacheInv s none)
    (hroom : s.buffer_count < buffer_max ∨ s.free_list ≠ []) :
    ∃ b m, getFreeBuffer buffer_max s = .ok (some (b, m)) ∧ Shown m p ∧ m.refs = s.refs ∧
      (m.buffers b).count = 0 ∧ (m.buffers b).dirty = false ∧
      (m.buffers b).lock.waiters = [] := by
  by_cases hlt : s.buffer_count < buffer_max
  · have he : getFreeBuffer buffer_max s = .ok (some (s.buffer_count, getNewBuffer s)) := by
      rw [NeonixBufferCache.getFreeBuffer, if_pos hlt]
    have hself : (getNewBuffer s).buffers s.buffer_count = { s.buffers s.buffer_count with
        count := 0, dirty := false, valid := false, lock := lockInit } := Function.update_self ..
    have hother : ∀ b, Hashed s b → (getNewBuffer s).buffers b = s.buffers b := by
      intro b hb
      exact Function.update_of_ne (Nat.ne_of_lt (hinv.below b hb)) ..
    have hhashed : ∀ b, Hashed (getNewBuffer s) b ↔ Hashed s b :=
      hashed_setBuf (s := s) (b := s.buffer_count) (f := fun bf =>
        { bf with count := 0, dirty := false, valid := false, lock := lockInit })
        fun _ => ⟨rfl, rfl⟩
    refine ⟨_, _, he, ⟨?_, ?_, ?_, ?_⟩, rfl, ?_, ?_, ?_⟩
    · intro b hb
      rw [hother b ((hhashed b).mp hb)]
      exact h.waiters b ((hhashed b).mp hb)
    · intro b hb
      exact h.idle b ((hhashed b).mp hb)
    · intro b hb hv
      rw [hother b ((hhashed b).mp hb)] at hv ⊢
      exact h.cached b ((hhashed b).mp hb) hv
    · intro dev block hnone
      refine h.rest dev block fun b hb hv => ?_
      rw [← hother b hb] at hv ⊢
      exact hnone b ((hhashed b).mpr hb) hv
    · rw [hself]
    · rw [hself]
    · rw [hself]
      rfl
  · obtain ⟨b, hb⟩ : ∃ b, s.free_list.getLast? = some b := by
      rcases hroom with hc | hne
      · exact absurd hc hlt
      · exact ⟨_, List.getLast?_eq_some_getLast hne⟩
    have hmem : b ∈ s.free_list := List.mem_of_getLast? hb
    obtain ⟨hashed, hfresh, hdirty⟩ := hinv.free b hmem
    have hin : b ∈ s.hash_table (s.buffers b).bucket := hashed
    -- the state once the buffer has left its lists
    generalize hr : ({ s with
      free_list := s.free_list.dropLast
      hash_table := Function.update s.hash_table (s.buffers b).bucket
        ((s.hash_table (s.buffers b).bucket).erase b) } : Cache σ) = r
    have hrbuf : r.buffers = s.buffers := by rw [← hr]
    have he : getFreeBuffer buffer_max s =
        .ok (some (b, r.setBuf b fun bf => { bf with valid := false })) := by
      rw [NeonixBufferCache.getFreeBuffer, if_neg hlt, hb]
      dsimp only
      rw [hashRemove, check_pos hin, bind_ok, ← hr]
      rfl
    obtain ⟨hminv, hspare, -, hkeys⟩ := hinv.getFreeBuffer he
    have hself : (r.setBuf b fun bf => { bf with valid := false }).buffers b =
        { s.buffers b with valid := false } := by
      rw [setBuf_self, hrbuf]
    have hother : ∀ c, c ≠ b →
        (r.setBuf b fun bf => { bf with valid := false }).buffers c = s.buffers c := by
      intro c hne
      rw [setBuf_other r b _ hne, hrbuf]
    have hne : ∀ c, Hashed (r.setBuf b fun bf => { bf with valid := false }) c → c ≠ b := by
      rintro c hc rfl
      exact hspare.table _ hc
    have hback : ∀ c, Hashed s c → c ≠ b →
        Hashed (r.setBuf b fun bf => { bf with valid := false }) c := by
      intro c hc hcb
      rw [Hashed, hother c hcb]
      show c ∈ r.hash_table _
      rw [← hr]
      dsimp only
      by_cases hi : (s.buffers c).bucket = (s.buffers b).bucket
      · rw [hi, Function.update_self]
        exact (List.mem_erase_of_ne hcb).mpr (hi ▸ hc)
      · rw [Function.update_of_ne hi]
        exact hc
    refine ⟨_, _, he, ⟨?_, ?_, ?_, ?_⟩, ?_, ?_, ?_, ?_⟩
    · intro c hc
      rw [hother c (hne c hc)]
      exact h.waiters c (hkeys c hc).1
    · intro c hc hnone
      have hin : c ∈ s.free_list := by
        refine h.idle c (hkeys c hc).1 fun t' hmem' => hnone t' ?_
        show (t', c) ∈ r.refs
        rw [← hr]
        exact hmem'
      show c ∈ r.free_list
      rw [← hr]
      show c ∈ s.free_list.dropLast
      obtain ⟨l, hl⟩ := List.getLast?_eq_some_iff.mp hb
      rw [hl] at hin ⊢
      rw [List.dropLast_concat]
      rcases List.mem_append.mp hin with hin | hin
      · exact hin
      · exact absurd (List.mem_singleton.mp hin) (hne c hc)
    · intro c hc hv
      rw [hother c (hne c hc)] at hv ⊢
      exact h.cached c (hkeys c hc).1 hv
    · intro dev block hnone
      show r.disk dev block = p dev block
      rw [show r.disk = s.disk by rw [← hr]]
      by_cases hkey : (s.buffers b).dev = dev ∧ (s.buffers b).block = block
      · rw [← hkey.1, ← hkey.2]
        exact h.free hinv hmem
      · refine h.rest dev block fun c hc hv => ?_
        by_cases hcb : c = b
        · rw [hcb]
          exact hkey
        · rw [← hother c hcb] at hv ⊢
          exact hnone c (hback c hc hcb) hv
    · show r.refs = s.refs
      rw [← hr]
    · rw [hself]
      show (s.buffers b).count = 0
      rw [hinv.count b, List.countP_eq_zero.mpr]
      · rfl
      · rintro ⟨t', b'⟩ hx
        rw [decide_eq_true_eq]
        rintro rfl
        exact hfresh t' hx
    · rw [hself]
      exact hdirty
    · rw [hself]
      exact h.waiters b hashed

/-- `getblk` installs a free buffer. -/
theorem Shown.install (dev block : Nat) (h : Shown m p) (hs : Spare m b)
    (hw : (m.buffers b).lock.waiters = []) :
    ∃ n, hashLocate (m.setBuf b fun bf => { bf with count := 1, dev := dev, block := block }) b =
      .ok n ∧ Shown { n with refs := (t, b) :: n.refs } p ∧ n.refs = m.refs ∧
      n.buffers b = { m.buffers b with count := 1, dev := dev, block := block } := by
  generalize hx : (m.setBuf b fun bf => { bf with count := 1, dev := dev, block := block }) = x
  have hself : x.buffers b = { m.buffers b with count := 1, dev := dev, block := block } := by
    rw [← hx, setBuf_self]
  have hother : ∀ c, c ≠ b → x.buffers c = m.buffers c := by
    intro c hne
    rw [← hx, setBuf_other m b _ hne]
  have hnot : b ∉ x.hash_table (x.buffers b).bucket := by
    rw [← hx]
    exact hs.table _
  refine ⟨{ x with
    hash_table := Function.update x.hash_table (x.buffers b).bucket
      (b :: x.hash_table (x.buffers b).bucket) }, ?_, ?_, ?_, hself⟩
  · rw [hashLocate, check_pos hnot, bind_ok]
    rfl
  · -- every other buffer of the table was there before
    have hhashed : ∀ c, c ≠ b →
        (c ∈ Function.update x.hash_table (x.buffers b).bucket
          (b :: x.hash_table (x.buffers b).bucket) (x.buffers c).bucket ↔ Hashed m c) := by
      intro c hne
      rw [hother c hne, Hashed, show m.hash_table = x.hash_table by rw [← hx]; rfl]
      by_cases hi : (m.buffers c).bucket = (x.buffers b).bucket
      · rw [hi, Function.update_self, List.mem_cons]
        exact or_iff_right hne
      · rw [Function.update_of_ne hi]
    constructor
    · intro c hc
      by_cases hcb : c = b
      · rw [hcb]
        show (x.buffers b).lock.waiters = []
        rw [hself]
        exact hw
      · show (x.buffers c).lock.waiters = []
        rw [hother c hcb]
        exact h.waiters c ((hhashed c hcb).mp hc)
    · intro c hc hnone
      have hcb : c ≠ b := by
        rintro rfl
        exact hnone t List.mem_cons_self
      show c ∈ x.free_list
      rw [show x.free_list = m.free_list by rw [← hx]; rfl]
      refine h.idle c ((hhashed c hcb).mp hc) fun t' hmem => hnone t' (List.mem_cons_of_mem _ ?_)
      show (t', c) ∈ x.refs
      rw [← hx]
      exact hmem
    · intro c hc hv
      change (x.buffers c).valid = true at hv
      show (x.buffers c).data = p (x.buffers c).dev (x.buffers c).block
      have hcb : c ≠ b := by
        rintro rfl
        rw [hself] at hv
        exact absurd (hs.valid.symm.trans hv) Bool.false_ne_true
      rw [hother c hcb] at hv ⊢
      exact h.cached c ((hhashed c hcb).mp hc) hv
    · intro d k hnone
      show x.disk d k = p d k
      rw [show x.disk = m.disk by rw [← hx]; rfl]
      refine h.rest d k fun c hc hv => ?_
      have hcb : c ≠ b := by
        rintro rfl
        exact hs.table _ hc
      rw [← hother c hcb] at hv ⊢
      exact hnone c ((hhashed c hcb).mpr hc) hv
  · show x.refs = m.refs
    rw [← hx]
    rfl

/-- `bread` of a block no buffer holds. -/
theorem breadFree_moved (h : Shown s p) (hinv : CacheInv s none)
    (hnone : hashSearch s dev block = none)
    (hroom : s.buffer_count < buffer_max ∨ s.free_list ≠ []) :
    ∃ s', breadFree buffer_max s t dev block = .ok s' ∧ Moved t s s' p (BLOCK_SECS + 1) ∧
      Reads (s'.pc t) ∧ ∃ b, s'.refs = (t, b) :: s.refs ∧ (s'.buffers b).dev = dev ∧
        (s'.buffers b).block = block := by
  obtain ⟨b, m, he, hm, hrefs, hcount, hdirty, hw⟩ := h.freeBuffer hinv hroom
  obtain ⟨hminv, hspare, hmpc, hkeys⟩ := hinv.getFreeBuffer he
  obtain ⟨n, hn, hshown, hnrefs, hnb⟩ := hm.install (t := t) dev block hspare hw
  obtain ⟨hninv, hnpc⟩ := hminv.install (t := t) hspare hdirty (by
    intro c hc hk
    obtain ⟨hs, hd, hb⟩ := hkeys c hc
    rw [hd, hb] at hk
    exact hashSearch_none hnone c hs hk) hn
  have hb : Hashed { n with refs := (t, b) :: n.refs } b := hninv.refs t b List.mem_cons_self
  have hunheld : (n.buffers b).lock.Unheld := by
    rw [hnb]
    exact hspare.lock
  obtain ⟨s', hat, hmoved, hreads, hsame, hsrefs⟩ := breadAt_moved (t := t) hshown hninv hb hunheld
  refine ⟨s', ?_, ⟨hmoved.shown, ?_, hmoved.place, hmoved.left⟩, hreads, b, ?_, ?_, ?_⟩
  · rw [breadFree, he, bind_ok]
    dsimp only
    rw [check_pos hcount, bind_ok, check_pos hdirty, bind_ok, hn, bind_ok]
    exact hat
  · intro t' ht
    rw [hmoved.others t' ht]
    show n.pc t' = s.pc t'
    rw [hnpc, hmpc]
  · rw [hsrefs]
    show (t, b) :: n.refs = (t, b) :: s.refs
    rw [hnrefs, hrefs]
  · rw [hsame.dev]
    show (n.buffers b).dev = dev
    rw [hnb]
  · rw [hsame.block]
    show (n.buffers b).block = block
    rw [hnb]

/-! ## Whole calls -/

/-- The calls of the task. -/
inductive Op (σ : Type) where
  | bread (dev block : Nat)
  | modify (b : Nat) (data : Data σ)
  | bwrite (b : Nat)
  | brelse (b : Nat)

def Op.event (t : Nat) : Op σ → Event σ
  | .bread dev block => .bread t dev block
  | .modify b data => .modify t b data
  | .bwrite b => .bwrite t b
  | .brelse b => .brelse t b

/-- The task goes on until it is outside the cache, for at most so many steps. -/
def goOn (buffer_max t : Nat) : Nat → Cache σ → Res (Cache σ)
  | 0, s => .ok s
  | k + 1, s =>
      if s.pc t = .user then .ok s
      else exec buffer_max s (.resume t) >>= goOn buffer_max t k

/-- A whole call. -/
def call (buffer_max t : Nat) (s : Cache σ) (op : Op σ) : Res (Cache σ) :=
  exec buffer_max s (op.event t) >>= goOn buffer_max t (BLOCK_SECS + 1)

/-- The task modifies, writes and gives back what it holds, and asks for a block
    only where a buffer has it or can be had without waiting. -/
def Allowed (buffer_max t : Nat) (s : Cache σ) : Op σ → Prop
  | .bread dev block => hashSearch s dev block = none →
      s.buffer_count < buffer_max ∨ s.free_list ≠ []
  | .modify b _ | .bwrite b | .brelse b => (t, b) ∈ s.refs

/-- What a call does to the plain disk. -/
def Op.onDisk (s : Cache σ) (p : Plain σ) : Op σ → Plain σ
  | .modify b data => p.store (s.buffers b).dev (s.buffers b).block data
  | .bread _ _ | .bwrite _ | .brelse _ => p

/-- The cache while its only user is in a call or between two. -/
structure Solo (t : Nat) (s : Cache σ) (p : Plain σ) : Prop where
  inv : CacheInv s none
  shown : Shown s p
  others : ∀ t', t' ≠ t → s.pc t' = .user
  place : Settled (s.pc t)

/-- No step of the only user undoes anything. -/
theorem Solo.undisturbed (h : Solo t s p) (op : Op σ) (hpc : s.pc t = .user) :
    Undisturbed buffer_max s (op.event t) := by
  cases op with
  | bread dev block => trivial
  | modify b data =>
      rintro ⟨t', b'⟩ -
      have huser : s.pc t' = .user := by
        by_cases ht : t' = t
        · rw [ht]
          exact hpc
        · exact h.others t' ht
      rw [huser]
      trivial
  | bwrite b => trivial
  | brelse b => trivial

theorem Solo.user (h : Solo t s p) (hpc : s.pc t = .user) (t' : Nat) : s.pc t' = .user := by
  by_cases ht : t' = t
  · rw [ht]
    exact hpc
  · exact h.others t' ht

/-- Between two calls no buffer is locked. -/
theorem Solo.unheld (h : Solo t s p) (hpc : s.pc t = .user) (b : Nat) :
    (s.buffers b).lock.Unheld := by
  rcases h.inv.locks b with hu | ⟨t', k, -, hk⟩
  · exact hu
  · rw [h.user hpc t'] at hk
    cases hk

/-- What the first step of a call leads to. -/
theorem Moved.solo {p' : Plain σ} {left : Nat} (hm : Moved t s s' p' left) (h : Solo t s p)
    (hinv : CacheInv s' none) : Solo t s' p' :=
  ⟨hinv, hm.shown, fun t' ht => (hm.others t' ht).trans (h.others t' ht), hm.place⟩

/-- The first step of `bread`. -/
theorem Solo.bread (h : Solo t s p) (hpc : s.pc t = .user)
    (ha : Allowed buffer_max t s (.bread dev block)) :
    ∃ s', bread buffer_max s t dev block = .ok s' ∧ Moved t s s' p (BLOCK_SECS + 1) ∧
      Reads (s'.pc t) ∧ ∃ b, s'.refs = (t, b) :: s.refs ∧ (s'.buffers b).dev = dev ∧
        (s'.buffers b).block = block := by
  rw [NeonixBufferCache.bread]
  cases hf : hashSearch s dev block with
  | none => exact breadFree_moved h.shown h.inv hf (ha hf)
  | some b =>
      have hb := hashSearch_some hf
      have hkey := List.find?_some hf
      obtain ⟨hd, hk⟩ := of_decide_eq_true hkey
      have hinv := h.inv.found (t := t) hb
      have hbuf : (getblkFound s t b).buffers b =
          { s.buffers b with count := (s.buffers b).count + 1 } := Function.update_self ..
      have hlock : ((getblkFound s t b).buffers b).lock.Unheld := by
        rw [hbuf]
        exact h.unheld hpc b
      obtain ⟨s', he, hm, hreads, hsame, hrefs⟩ := breadAt_moved (t := t)
        (h.shown.found (t := t) h.inv hb) hinv (hinv.refs t b List.mem_cons_self) hlock
      refine ⟨s', he, ⟨hm.shown, hm.others, hm.place, hm.left⟩, hreads, b, hrefs, ?_, ?_⟩
      · rw [hsame.dev, hbuf]
        exact hd
      · rw [hsame.block, hbuf]
        exact hk

/-- The first step of a call. -/
theorem Solo.start {op : Op σ} (h : Solo t s p) (hpc : s.pc t = .user)
    (ha : Allowed buffer_max t s op) :
    ∃ s', exec buffer_max s (op.event t) = .ok s' ∧ Solo t s' (op.onDisk s p) ∧
      stepsLeft (s'.pc t) ≤ BLOCK_SECS + 1 := by
  have hsolo : ∀ {s'}, exec buffer_max s (op.event t) = .ok s' → Enabled s (op.event t) →
      Moved t s s' (op.onDisk s p) (BLOCK_SECS + 1) →
      ∃ s', exec buffer_max s (op.event t) = .ok s' ∧ Solo t s' (op.onDisk s p) ∧
        stepsLeft (s'.pc t) ≤ BLOCK_SECS + 1 := by
    intro s' he hen hm
    exact ⟨s', he, hm.solo h (h.inv.step (h.undisturbed op hpc) ⟨hen, he⟩), hm.left⟩
  -- a request of the disk is only begun here
  have hwrite : ∀ b release, Moved t s (s.setPc t (.writing b 0 release)) p (BLOCK_SECS + 1) :=
    fun b release => h.shown.moved rfl trivial (Nat.le_refl _)
  have hstay : Moved t s s p (BLOCK_SECS + 1) :=
    ⟨h.shown, fun _ _ => rfl, h.place, by rw [hpc]; exact Nat.zero_le _⟩
  cases op with
  | bread dev block =>
      obtain ⟨s', he, hm, -⟩ := h.bread hpc ha
      exact hsolo he hpc hm
  | modify b data =>
      have hb := h.inv.refs t b ha
      refine hsolo rfl ⟨hpc, ha⟩ ?_
      have hset : Shown (s.setBuf b fun bf => { bf with data := data, dirty := true })
          (p.store (s.buffers b).dev (s.buffers b).block data) := by
        refine h.shown.touch h.inv hb (by exact fun _ => ⟨rfl, rfl⟩) (h.shown.waiters b hb) id ?_ ?_ ?_
        · intro _
          exact (p.store_self data).symm
        · intro d k hne
          refine p.store_other data ?_
          rintro ⟨rfl, rfl⟩
          exact hne ⟨rfl, rfl⟩
        · intro hv
          -- a held buffer is valid
          exact absurd (hv.symm.trans (h.inv.held_valid ha hpc)) Bool.false_ne_true
      exact ⟨hset, fun _ _ => rfl, h.place, hstay.left⟩
  | bwrite b =>
      refine hsolo rfl ⟨hpc, ha⟩ ?_
      rw [bwrite]
      split
      · exact hwrite b false
      · exact hstay
  | brelse b =>
      have he : ∃ s', brelse s t b = .ok s' ∧ Moved t s s' p (BLOCK_SECS + 1) := by
        rw [brelse]
        split
        · exact ⟨_, rfl, hwrite b true⟩
        · exact putBuffer_moved _ h.shown h.inv ha
      obtain ⟨s', he, hm⟩ := he
      exact hsolo he ⟨hpc, ha⟩ hm

/-- A further step of a call. -/
theorem Solo.resume (buffer_max : Nat) (h : Solo t s p) (hpc : s.pc t ≠ .user) :
    ∃ s', exec buffer_max s (.resume t) = .ok s' ∧ Solo t s' p ∧
      stepsLeft (s'.pc t) + 1 ≤ stepsLeft (s.pc t) ∧
      (Reads (s.pc t) → Reads (s'.pc t) ∧ SameTable s s' ∧ s'.refs = s.refs) := by
  have hplace := h.place
  have hstep : ∀ {s'}, exec buffer_max s (.resume t) = .ok s' → ReadyAt s t (s.pc t) →
      ResumeOk buffer_max s (s.pc t) → CacheInv s' none :=
    fun he hen hg => h.inv.step (e := .resume t) hg ⟨hen, he⟩
  simp only [exec] at hstep ⊢
  cases hq : s.pc t with
  | user => exact absurd hq hpc
  | getFree dev block =>
      rw [hq] at hplace
      exact hplace.elim
  | lockWait b =>
      rw [hq] at hplace
      exact hplace.elim
  | unlocked b =>
      rw [hq] at hplace
      exact hplace.elim
  | reading b k =>
      rw [hq] at hstep
      obtain ⟨s', he, hm, hreads, hsame, hrefs⟩ := readTurn_moved h.shown h.inv hq
      exact ⟨s', he, hm.solo h (hstep he trivial trivial), Nat.succ_le_succ hm.left,
        fun _ => ⟨hreads, hsame, hrefs⟩⟩
  | writing b k release =>
      rw [hq] at hstep
      obtain ⟨s', he, hm⟩ := writeTurn_moved h.shown h.inv hq
      exact ⟨s', he, hm.solo h (hstep he trivial trivial), Nat.succ_le_succ hm.left, False.elim⟩

/-- A call runs to its end. -/
theorem Solo.goOn (buffer_max : Nat) {left : Nat} (h : Solo t s p)
    (hl : stepsLeft (s.pc t) ≤ left) :
    ∃ s', goOn buffer_max t left s = .ok s' ∧ Solo t s' p ∧ s'.pc t = .user ∧
      (Reads (s.pc t) → SameTable s s' ∧ s'.refs = s.refs) := by
  induction left generalizing s with
  | zero =>
      refine ⟨s, rfl, h, ?_, fun _ => ⟨.refl s, rfl⟩⟩
      have hplace := h.place
      cases hq : s.pc t with
      | user => rfl
      | getFree => rw [hq] at hplace; exact hplace.elim
      | lockWait => rw [hq] at hplace; exact hplace.elim
      | unlocked => rw [hq] at hplace; exact hplace.elim
      | reading => rw [hq] at hl; exact absurd hl (Nat.not_succ_le_zero _)
      | writing => rw [hq] at hl; exact absurd hl (Nat.not_succ_le_zero _)
  | succ left ih =>
      by_cases hpc : s.pc t = .user
      · refine ⟨s, ?_, h, hpc, fun _ => ⟨.refl s, rfl⟩⟩
        rw [NeonixSequentialCache.goOn, if_pos hpc]
      · obtain ⟨m, he, hm, hless, hkeep⟩ := h.resume buffer_max hpc
        obtain ⟨s', hgo, hs', hend, hkeep'⟩ := ih hm (by omega)
        refine ⟨s', ?_, hs', hend, fun hr => ?_⟩
        · rw [NeonixSequentialCache.goOn, if_neg hpc, he, bind_ok]
          exact hgo
        · obtain ⟨hr', hsame, hrefs⟩ := hkeep hr
          obtain ⟨hsame', hrefs'⟩ := hkeep' hr'
          exact ⟨hsame.trans hsame', hrefs'.trans hrefs⟩

/-- A call from between two calls. -/
theorem Solo.call {op : Op σ} (h : Solo t s p) (hpc : s.pc t = .user)
    (ha : Allowed buffer_max t s op) :
    ∃ s', call buffer_max t s op = .ok s' ∧ Solo t s' (op.onDisk s p) ∧ s'.pc t = .user := by
  obtain ⟨m, he, hm, hl⟩ := h.start hpc ha
  obtain ⟨s', hgo, hs', hend, -⟩ := hm.goOn buffer_max hl
  refine ⟨s', ?_, hs', hend⟩
  rw [NeonixSequentialCache.call, he, bind_ok]
  exact hgo

/-- What a buffer the task holds shows. -/
theorem Solo.held (h : Solo t s p) (hpc : s.pc t = .user) (hr : (t, b) ∈ s.refs) :
    (s.buffers b).data = p (s.buffers b).dev (s.buffers b).block :=
  h.shown.cached b (h.inv.refs t b hr) (h.inv.held_valid hr hpc)

/-- `bread` returns a buffer with the contents of the block. -/
theorem Solo.read (h : Solo t s p) (hpc : s.pc t = .user)
    (ha : Allowed buffer_max t s (.bread dev block))
    (he : NeonixSequentialCache.call buffer_max t s (.bread dev block) = .ok s') :
    ∃ b, s'.refs = (t, b) :: s.refs ∧ (s'.buffers b).dev = dev ∧ (s'.buffers b).block = block ∧
      (s'.buffers b).data = p dev block := by
  obtain ⟨m, hm, hmoved, hreads, b, hrefs, hd, hb⟩ := h.bread hpc ha
  have hsolo : Solo t m p := hmoved.solo h (h.inv.step (e := .bread t dev block) trivial ⟨hpc, hm⟩)
  obtain ⟨r, hgo, hr, hend, hkeep⟩ := hsolo.goOn buffer_max hmoved.left
  obtain ⟨hsame, hrrefs⟩ := hkeep hreads
  have hrs : r = s' := by
    rw [NeonixSequentialCache.call, show exec buffer_max s (Op.event t (.bread dev block)) = .ok m
      from hm, bind_ok, hgo] at he
    exact Except.ok.inj he
  rw [← hrs]
  refine ⟨b, hrrefs.trans hrefs, (hsame.dev b).trans hd, (hsame.block b).trans hb, ?_⟩
  have hdata := hr.held (b := b) hend (by rw [hrrefs, hrefs]; exact List.mem_cons_self)
  rw [hdata, hsame.dev, hsame.block, hd, hb]

/-! ## Every run -/

instance (s : Cache σ) : (op : Op σ) → Decidable (Allowed buffer_max t s op)
  | .bread _ _ => inferInstanceAs (Decidable (_ → _))
  | .modify _ _ | .bwrite _ | .brelse _ => inferInstanceAs (Decidable (_ ∈ _))

end NeonixSequentialCache
