import Mathlib.Data.List.Count
import Neonix.BufferCache

/-! # No modified buffer is taken for clean

    A valid buffer whose data differs from the device has `dirty` set, in the
    runs in which nothing undoes it: `bread` clears `dirty` once more after it
    has given the lock up, `bwrite` clears it although the data may have changed
    since its sectors were sent, and `getblk` makes a second buffer of a block
    when it had to wait for a free one.

    The route: `CacheInv` ties the counts to the references, the references to
    the hash table, and each task inside the cache to the buffer it works on.
    A store of a task to the buffer it refers to is dealt with once, in
    `CacheInv.touch`; what is left are the three steps that move a buffer
    between the lists, and the writing of a sector. -/

namespace NeonixBufferDirty

open NeonixMachine NeonixMutex NeonixBufferCache NeonixRuns

variable {σ : Type} {s s' : Cache σ} {t b : Nat}

/-- The buffer is on its list of the hash table. -/
def Hashed (s : Cache σ) (b : Nat) : Prop := b ∈ s.hash_table (s.buffers b).bucket

/-- A sector of the buffer is what the device has. -/
def OnDisk (s : Cache σ) (b : Nat) (i : Fin BLOCK_SECS) : Prop :=
  (s.buffers b).data i = s.disk (s.buffers b).dev (s.buffers b).block i

/-- The task waits for the buffer to be read, or reads it. -/
def InFlight : Pc → Nat → Prop
  | .lockWait b', b => b' = b
  | .reading b' _, b => b' = b
  | .user, _ | .getFree _ _, _ | .unlocked _, _ | .writing _ _ _, _ => False

/-- What holds of a task where it stands. -/
def TaskOk (s : Cache σ) (t : Nat) : Pc → Prop
  | .user | .getFree _ _ => True
  | .lockWait b => (t, b) ∈ s.refs
  | .reading b k => (t, b) ∈ s.refs ∧ (s.buffers b).lock.HeldBy t ∧
      (s.buffers b).valid = false ∧ (s.buffers b).dirty = false ∧
      ∀ i : Fin BLOCK_SECS, i.val < k → OnDisk s b i
  | .unlocked b => (t, b) ∈ s.refs ∧ (s.buffers b).valid = true
  | .writing b k _ => (t, b) ∈ s.refs ∧ (s.buffers b).valid = true ∧
      ∀ i : Fin BLOCK_SECS, i.val < k → OnDisk s b i

/-- The cache, its users and the device; `pending` is the reference `getblk` has
    just made. -/
structure CacheInv (s : Cache σ) (pending : Option (Nat × Nat)) : Prop where
  count : ∀ b, (s.buffers b).count = s.refs.countP (·.2 = b)
  refs : ∀ t b, (t, b) ∈ s.refs → Hashed s b
  below : ∀ b, Hashed s b → b < s.buffer_count
  bucket : ∀ i b, b ∈ s.hash_table i → (s.buffers b).bucket = i
  nodup : ∀ i, (s.hash_table i).Nodup
  unique : ∀ b b', Hashed s b → Hashed s b' → (s.buffers b).dev = (s.buffers b').dev →
    (s.buffers b).block = (s.buffers b').block → b = b'
  free : ∀ b ∈ s.free_list, Hashed s b ∧ (∀ t, (t, b) ∉ s.refs) ∧ (s.buffers b).dirty = false
  freeNodup : s.free_list.Nodup
  valid : ∀ b, (s.buffers b).valid = true → Hashed s b
  held : ∀ t b, (t, b) ∈ s.refs → pending ≠ some (t, b) →
    (s.buffers b).valid = true ∨ InFlight (s.pc t) b
  quiet : ∀ b, Hashed s b → (s.buffers b).valid = false → (s.buffers b).dirty = false
  clean : ∀ b, (s.buffers b).valid = true → (s.buffers b).dirty = false → ∀ i, OnDisk s b i
  locks : ∀ b, (s.buffers b).lock.Unheld ∨
    ∃ t k, (s.buffers b).lock.HeldBy t ∧ s.pc t = .reading b k
  tasks : ∀ t, TaskOk s t (s.pc t)

/-- The buffer a task works on. -/
def Names : Pc → Nat → Prop
  | .lockWait b', b | .reading b' _, b | .unlocked b', b | .writing b' _ _, b => b' = b
  | .user, _ | .getFree _ _, _ => False

theorem TaskOk.ref {p : Pc} (h : TaskOk s t p) (hn : Names p b) : (t, b) ∈ s.refs := by
  cases p with
  | user => exact hn.elim
  | getFree => exact hn.elim
  | lockWait b' => exact hn ▸ h
  | reading b' k => exact hn ▸ h.1
  | unlocked b' => exact hn ▸ h.1
  | writing b' k r => exact hn ▸ h.1

/-- A task that does not work on a changed buffer is as well off as before. -/
theorem TaskOk.frame {p : Pc} (h : TaskOk s t p)
    (hrefs : ∀ b, Names p b → (t, b) ∈ s.refs → (t, b) ∈ s'.refs)
    (hbuf : ∀ b, Names p b → s'.buffers b = s.buffers b)
    (hdisk : ∀ b, Names p b → ∀ i, OnDisk s b i → OnDisk s' b i) : TaskOk s' t p := by
  cases p with
  | user => trivial
  | getFree => trivial
  | lockWait b => exact hrefs b rfl h
  | reading b k =>
      obtain ⟨hr, hl, hv, hd, hi⟩ := h
      rw [TaskOk, hbuf b rfl]
      exact ⟨hrefs b rfl hr, hl, hv, hd, fun i hik => hdisk b rfl i (hi i hik)⟩
  | unlocked b =>
      rw [TaskOk, hbuf b rfl]
      exact ⟨hrefs b rfl h.1, h.2⟩
  | writing b k r =>
      obtain ⟨hr, hv, hi⟩ := h
      rw [TaskOk, hbuf b rfl]
      exact ⟨hrefs b rfl hr, hv, fun i hik => hdisk b rfl i (hi i hik)⟩

/-! ## Stores of a task to its buffer -/

variable {f : Buffer σ → Buffer σ} {p : Pc} {pending : Option (Nat × Nat)}

/-- The buffers as a store to one of them leaves them. -/
theorem setBuf_cases (s : Cache σ) (b : Nat) (f : Buffer σ → Buffer σ) (b' : Nat) :
    (b' = b ∧ (s.setBuf b f).buffers b' = f (s.buffers b)) ∨
      (b' ≠ b ∧ (s.setBuf b f).buffers b' = s.buffers b') := by
  by_cases hb : b' = b
  · subst hb
    exact Or.inl ⟨rfl, setBuf_self s b' f⟩
  · exact Or.inr ⟨hb, setBuf_other s b f hb⟩

/-- A store of a task to the buffer it refers to and to its own place keeps the
    invariant where the new buffer fits the device, the lock and the tasks that
    work on the buffer. -/
theorem CacheInv.touch (h : CacheInv s pending) (hp : pending = none ∨ pending = some (t, b))
    (href : (t, b) ∈ s.refs)
    (hkey : ∀ bf, (f bf).dev = bf.dev ∧ (f bf).block = bf.block ∧ (f bf).count = bf.count)
    (hold : ∀ b', Names (s.pc t) b' → b' = b)
    (hheld : (f (s.buffers b)).valid = true ∨ (s.buffers b).valid = false ∧ InFlight p b ∧
      (f (s.buffers b)).dirty = false)
    (hclean : (f (s.buffers b)).valid = true → (f (s.buffers b)).dirty = false →
      ∀ i, OnDisk ((s.setBuf b f).setPc t p) b i)
    (hlock : (f (s.buffers b)).lock.Unheld ∨ ∃ t' k, (f (s.buffers b)).lock.HeldBy t' ∧
      (t' = t ∧ p = .reading b k ∨ t' ≠ t ∧ s.pc t' = .reading b k))
    (hself : TaskOk ((s.setBuf b f).setPc t p) t p)
    (hother : ∀ t', t' ≠ t → Names (s.pc t') b → TaskOk s t' (s.pc t') →
      TaskOk ((s.setBuf b f).setPc t p) t' (s.pc t')) :
    CacheInv ((s.setBuf b f).setPc t p) none := by
  -- the lists, the counts and the keys are as they were
  have hkeys : ∀ b', ((s.setBuf b f).buffers b').dev = (s.buffers b').dev ∧
      ((s.setBuf b f).buffers b').block = (s.buffers b').block ∧
      ((s.setBuf b f).buffers b').count = (s.buffers b').count := by
    intro b'
    rcases setBuf_cases s b f b' with ⟨rfl, hb⟩ | ⟨-, hb⟩
    · rw [hb]
      exact hkey _
    · rw [hb]
      exact ⟨rfl, rfl, rfl⟩
  have hbucket : ∀ b', ((s.setBuf b f).buffers b').bucket = (s.buffers b').bucket := by
    intro b'
    rw [Buffer.bucket, Buffer.bucket, (hkeys b').1, (hkeys b').2.1]
  have hhashed : ∀ b', Hashed ((s.setBuf b f).setPc t p) b' ↔ Hashed s b' := by
    intro b'
    show b' ∈ s.hash_table ((s.setBuf b f).buffers b').bucket ↔ _
    rw [hbucket]
    rfl
  have hpc : ∀ t', (t' = t ∧ ((s.setBuf b f).setPc t p).pc t' = p) ∨
      (t' ≠ t ∧ ((s.setBuf b f).setPc t p).pc t' = s.pc t') := by
    intro t'
    by_cases ht : t' = t
    · subst ht
      exact Or.inl ⟨rfl, setPc_self _ t' p⟩
    · exact Or.inr ⟨ht, setPc_other _ t p ht⟩
  refine ⟨?_, ?_, ?_, ?_, h.nodup, ?_, ?_, h.freeNodup, ?_, ?_, ?_, ?_, ?_, ?_⟩
  · intro b'
    show ((s.setBuf b f).buffers b').count = _
    rw [(hkeys b').2.2]
    exact h.count b'
  · intro t' b' hr
    exact (hhashed b').mpr (h.refs t' b' hr)
  · intro b' hb
    exact h.below b' ((hhashed b').mp hb)
  · intro i b' hb
    show ((s.setBuf b f).buffers b').bucket = i
    rw [hbucket]
    exact h.bucket i b' hb
  · intro b₁ b₂ h₁ h₂ hd hk
    change ((s.setBuf b f).buffers b₁).dev = ((s.setBuf b f).buffers b₂).dev at hd
    change ((s.setBuf b f).buffers b₁).block = ((s.setBuf b f).buffers b₂).block at hk
    rw [(hkeys b₁).1, (hkeys b₂).1] at hd
    rw [(hkeys b₁).2.1, (hkeys b₂).2.1] at hk
    exact h.unique b₁ b₂ ((hhashed b₁).mp h₁) ((hhashed b₂).mp h₂) hd hk
  · intro b' hb
    obtain ⟨hh, hr, hd⟩ := h.free b' hb
    refine ⟨(hhashed b').mpr hh, hr, ?_⟩
    show ((s.setBuf b f).buffers b').dirty = false
    rw [setBuf_other s b f (by rintro rfl; exact hr t href)]
    exact hd
  · intro b' hv
    change ((s.setBuf b f).buffers b').valid = true at hv
    refine (hhashed b').mpr ?_
    rcases setBuf_cases s b f b' with ⟨rfl, -⟩ | ⟨-, hb⟩
    · exact h.refs t b' href
    · rw [hb] at hv
      exact h.valid b' hv
  · intro t' b' hr _
    change ((s.setBuf b f).buffers b').valid = true ∨ _
    rcases setBuf_cases s b f b' with ⟨rfl, hb⟩ | ⟨hne, hb⟩
    · rw [hb]
      rcases hheld with hv | ⟨hv, hin, -⟩
      · exact Or.inl hv
      · refine Or.inr ?_
        rcases hpc t' with ⟨-, hpt⟩ | ⟨ht, hpt⟩
        · rw [hpt]
          exact hin
        · rw [hpt]
          have hnp : pending ≠ some (t', b') := by
            rcases hp with rfl | rfl
            · simp
            · intro heq
              exact ht (Prod.mk.inj (Option.some.inj heq)).1.symm
          rcases h.held t' b' hr hnp with hv' | hin'
          · rw [hv] at hv'
            cases hv'
          · exact hin'
    · rw [hb]
      have hnp : pending ≠ some (t', b') := by
        rcases hp with rfl | rfl
        · simp
        · intro heq
          exact hne (Prod.mk.inj (Option.some.inj heq)).2.symm
      rcases h.held t' b' hr hnp with hv | hin
      · exact Or.inl hv
      · refine Or.inr ?_
        rcases hpc t' with ⟨rfl, hpt⟩ | ⟨-, hpt⟩
        · -- the task worked on `b'` before, and so on `b`
          refine absurd (hold b' ?_) hne
          cases hq : s.pc t' with
          | lockWait => rw [hq] at hin; exact hin
          | reading => rw [hq] at hin; exact hin
          | user => rw [hq] at hin; exact hin.elim
          | getFree => rw [hq] at hin; exact hin.elim
          | unlocked => rw [hq] at hin; exact hin.elim
          | writing => rw [hq] at hin; exact hin.elim
        · rw [hpt]
          exact hin
  · intro b' hb' hv
    change ((s.setBuf b f).buffers b').valid = false at hv
    show ((s.setBuf b f).buffers b').dirty = false
    rcases setBuf_cases s b f b' with ⟨rfl, hb⟩ | ⟨-, hb⟩
    · rw [hb] at hv ⊢
      rcases hheld with hv' | ⟨-, -, hd⟩
      · rw [hv] at hv'
        cases hv'
      · exact hd
    · rw [hb] at hv ⊢
      exact h.quiet b' ((hhashed b').mp hb') hv
  · intro b' hv hd i
    rcases setBuf_cases s b f b' with ⟨rfl, hb⟩ | ⟨-, hb⟩
    · change ((s.setBuf b' f).buffers b').valid = true at hv
      change ((s.setBuf b' f).buffers b').dirty = false at hd
      rw [hb] at hv hd
      exact hclean hv hd i
    · change ((s.setBuf b f).buffers b').valid = true at hv
      change ((s.setBuf b f).buffers b').dirty = false at hd
      rw [hb] at hv hd
      show ((s.setBuf b f).buffers b').data i = s.disk _ _ i
      rw [show ((s.setBuf b f).setPc t p).buffers b' = s.buffers b' from hb, hb]
      exact h.clean b' hv hd i
  · intro b'
    show ((s.setBuf b f).buffers b').lock.Unheld ∨
      ∃ t' k, ((s.setBuf b f).buffers b').lock.HeldBy t' ∧ _
    rcases setBuf_cases s b f b' with ⟨rfl, hb⟩ | ⟨hne, hb⟩
    · rw [hb]
      rcases hlock with hu | ⟨t', k, hl, ⟨rfl, rfl⟩ | ⟨ht, hk⟩⟩
      · exact Or.inl hu
      · exact Or.inr ⟨t', k, hl, setPc_self _ t' _⟩
      · exact Or.inr ⟨t', k, hl, (setPc_other _ t p ht).trans hk⟩
    · rw [hb]
      rcases h.locks b' with hu | ⟨t', k, hl, hk⟩
      · exact Or.inl hu
      · rcases hpc t' with ⟨rfl, -⟩ | ⟨-, hpt⟩
        · refine absurd (hold b' ?_) hne
          rw [hk]
          rfl
        · exact Or.inr ⟨t', k, hl, hpt.trans hk⟩
  · intro t'
    rcases hpc t' with ⟨rfl, hpt⟩ | ⟨ht, hpt⟩
    · rw [hpt]
      exact hself
    · rw [hpt]
      by_cases hn : Names (s.pc t') b
      · exact hother t' ht hn (h.tasks t')
      · have hb : ∀ b', Names (s.pc t') b' → (s.setBuf b f).buffers b' = s.buffers b' := by
          intro b' hn'
          exact setBuf_other s b f (by rintro rfl; exact hn hn')
        refine (h.tasks t').frame (fun _ _ hr => hr) hb ?_
        intro b' hn' i hi
        show ((s.setBuf b f).buffers b').data i = s.disk _ _ i
        rw [show ((s.setBuf b f).setPc t p).buffers b' = s.buffers b' from hb b' hn', hb b' hn']
        exact hi

theorem onDisk_store {i : Fin BLOCK_SECS}
    (hkey : ∀ bf, (f bf).dev = bf.dev ∧ (f bf).block = bf.block ∧ (f bf).count = bf.count) :
    OnDisk ((s.setBuf b f).setPc t p) b i ↔
      (f (s.buffers b)).data i = s.disk (s.buffers b).dev (s.buffers b).block i := by
  show ((s.setBuf b f).buffers b).data i = s.disk ((s.setBuf b f).buffers b).dev
    ((s.setBuf b f).buffers b).block i ↔ _
  rw [setBuf_self, (hkey _).1, (hkey _).2.1]

/-- Another task that works on the buffer, after a store that keeps it valid and
    the sectors it has sent. -/
theorem TaskOk.other {t' : Nat} {q : Pc} (h : TaskOk s t' q) (hn : Names q b)
    (hread : ∀ k, q = .reading b k → TaskOk ((s.setBuf b f).setPc t p) t' q)
    (hvalid : (s.buffers b).valid = true → (f (s.buffers b)).valid = true)
    (hsent : ∀ k r, q = .writing b k r → ∀ i : Fin BLOCK_SECS, i.val < k → OnDisk s b i →
      OnDisk ((s.setBuf b f).setPc t p) b i) :
    TaskOk ((s.setBuf b f).setPc t p) t' q := by
  have hv : (s.buffers b).valid = true →
      (((s.setBuf b f).setPc t p).buffers b).valid = true := by
    intro hv
    show ((s.setBuf b f).buffers b).valid = true
    rw [setBuf_self]
    exact hvalid hv
  cases q with
  | user => trivial
  | getFree => trivial
  | lockWait b' => exact h
  | reading b' k =>
      obtain rfl : b' = b := hn
      exact hread k rfl
  | unlocked b' =>
      obtain rfl : b' = b := hn
      exact ⟨h.1, hv h.2⟩
  | writing b' k r =>
      obtain rfl : b' = b := hn
      exact ⟨h.1, hv h.2.1, fun i hik => hsent k r rfl i hik (h.2.2 i hik)⟩

@[simp] theorem setBuf_setBuf (f g : Buffer σ → Buffer σ) :
    (s.setBuf b f).setBuf b g = s.setBuf b fun bf => g (f bf) := by
  simp only [Cache.setBuf, Function.update_self, Function.update_idem]

theorem setBuf_id : (s.setBuf b fun bf => bf) = s := by
  simp only [Cache.setBuf, Function.update_eq_self]

theorem setPc_id (h : s.pc t = p) : s.setPc t p = s := by
  simp only [Cache.setPc, ← h, Function.update_eq_self]

/-- The reference `getblk` has made is as good as any once the buffer is valid. -/
theorem CacheInv.settle (h : CacheInv s (some (t, b))) (hv : (s.buffers b).valid = true) :
    CacheInv s none := by
  refine { h with held := ?_ }
  intro t' b' hr _
  by_cases heq : some (t, b) = some (t', b')
  · obtain ⟨rfl, rfl⟩ := Prod.mk.inj (Option.some.inj heq)
    exact Or.inl hv
  · exact h.held t' b' hr heq

/-! ## The lock of `bread` -/

/-- The lock after its only holder gave it up. -/
def freed (l : Lock) : Lock :=
  { holder := none, repeats := 0, value := false, waiters := l.waiters.dropLast }

theorem freed_unheld (l : Lock) : (freed l).Unheld := ⟨rfl, rfl, rfl⟩

/-- `bread` from its `lock_release` on: it is switched away from where a waiter
    was woken, and returns where there was none. -/
theorem breadRelease_eq (hl : (s.buffers b).lock.HeldBy t) :
    ((s.buffers b).lock.waiters ≠ [] ∧ breadRelease s t b =
      .ok ((s.setBuf b fun bf => { bf with lock := freed (s.buffers b).lock }).setPc t
        (.unlocked b))) ∨
    ((s.buffers b).lock.waiters = [] ∧ breadRelease s t b =
      .ok ((s.setBuf b fun bf =>
        { bf with lock := freed (s.buffers b).lock, dirty := false, valid := true }).setPc t
          .user)) := by
  rw [breadRelease, lockRelease_held hl, bind_ok]
  cases hw : (s.buffers b).lock.waiters.getLast? with
  | none =>
      refine Or.inr ⟨List.getLast?_eq_none_iff.mp hw, ?_⟩
      dsimp only
      rw [breadReturn, setBuf_setBuf]
      rfl
  | some w =>
      refine Or.inl ⟨?_, rfl⟩
      intro hnil
      rw [hnil] at hw
      cases hw

/-- A reader is the holder of the lock. -/
theorem CacheInv.holder {k : Nat} (h : CacheInv s pending) (hk : s.pc t = .reading b k) :
    (s.buffers b).lock.HeldBy t := by
  have ht := h.tasks t
  rw [hk] at ht
  exact ht.2.1

/-- An unheld lock has no reader behind it. -/
theorem CacheInv.no_reader (h : CacheInv s pending) (hu : (s.buffers b).lock.Unheld) (k : Nat) :
    s.pc t ≠ .reading b k := by
  intro hk
  have hh := (h.holder hk).1
  rw [hu.1] at hh
  cases hh

/-- There is one reader of a buffer. -/
theorem CacheInv.one_reader {t' k k' : Nat} (h : CacheInv s pending) (hk : s.pc t = .reading b k)
    (hk' : s.pc t' = .reading b k') : t' = t := by
  have h₁ := (h.holder hk).1
  have h₂ := (h.holder hk').1
  rw [h₁] at h₂
  exact (Option.some.inj h₂).symm

/-- A turn of the loop of `mutex_lock` in `bread`, and what follows it, where
    the last assignments of `bread` clear no `dirty` that is set. -/
theorem CacheInv.turn (h : CacheInv s pending) (hp : pending = none ∨ pending = some (t, b))
    (href : (t, b) ∈ s.refs) (hold : ∀ b', Names (s.pc t) b' → b' = b)
    (hnr : ∀ b' k, s.pc t ≠ .reading b' k)
    (hclear : (s.buffers b).valid = true → (s.buffers b).lock.value = false →
      (s.buffers b).lock.waiters = [] → (s.buffers b).dirty = false)
    (he : (do
      let (lock, turn) ← mutexTurn (s.buffers b).lock t
      breadLocked s t b lock turn) = .ok s') : CacheInv s' none := by
  rcases h.locks b with hu | ⟨t', k, hl, hk⟩
  · rw [mutexTurn_unheld hu, bind_ok] at he
    dsimp only [breadLocked] at he
    rw [setBuf_self] at he
    have hnr' : ∀ t' k, s.pc t' ≠ .reading b k := fun t' k => h.no_reader hu k
    by_cases hv : (s.buffers b).valid = true
    · rw [if_pos hv] at he
      have hheld : ((s.setBuf b fun bf => { bf with lock :=
          { (s.buffers b).lock with value := true, holder := some t, repeats := 1 } }).buffers
            b).lock.HeldBy t := by
        rw [setBuf_self]
        exact ⟨rfl, rfl, rfl⟩
      rcases breadRelease_eq hheld with ⟨-, heq⟩ | ⟨hw, heq⟩
      · rw [heq, setBuf_setBuf] at he
        rw [← Except.ok.inj he]
        refine h.touch hp href (fun _ => ⟨rfl, rfl, rfl⟩) hold (Or.inl hv) ?_
          (Or.inl (freed_unheld _)) ?_ ?_
        · intro _ hd i
          exact (onDisk_store (by exact fun _ => ⟨rfl, rfl, rfl⟩)).mpr (h.clean b hv hd i)
        · refine ⟨href, ?_⟩
          rw [setPc_buffers, setBuf_self]
          exact hv
        · intro t' _ hn hok
          refine hok.other hn (fun k hk => absurd hk (hnr' t' k)) id ?_
          intro _ _ _ i _ hi
          exact (onDisk_store (by exact fun _ => ⟨rfl, rfl, rfl⟩)).mpr hi
      · rw [heq, setBuf_setBuf] at he
        rw [← Except.ok.inj he]
        rw [setBuf_self] at hw
        have hd := hclear hv hu.2.2 hw
        refine h.touch hp href (fun _ => ⟨rfl, rfl, rfl⟩) hold (Or.inl rfl) ?_
          (Or.inl (freed_unheld _)) trivial ?_
        · intro _ _ i
          exact (onDisk_store (by exact fun _ => ⟨rfl, rfl, rfl⟩)).mpr (h.clean b hv hd i)
        · intro t' _ hn hok
          refine hok.other hn (fun k hk => absurd hk (hnr' t' k)) (fun _ => rfl) ?_
          intro _ _ _ i _ hi
          exact (onDisk_store (by exact fun _ => ⟨rfl, rfl, rfl⟩)).mpr hi
    · rw [if_neg hv] at he
      rw [← Except.ok.inj he]
      have hv' : (s.buffers b).valid = false := by simpa using hv
      have hd : (s.buffers b).dirty = false := h.quiet b (h.refs t b href) hv'
      refine h.touch hp href (fun _ => ⟨rfl, rfl, rfl⟩) hold (Or.inr ⟨hv', rfl, hd⟩) ?_
        (Or.inr ⟨t, 0, ⟨rfl, rfl, rfl⟩, Or.inl ⟨rfl, rfl⟩⟩) ?_ ?_
      · intro hv'' _ _
        exact absurd hv'' hv
      · refine ⟨href, ?_⟩
        rw [setPc_buffers, setBuf_self]
        exact ⟨⟨rfl, rfl, rfl⟩, hv', hd, fun i hi => absurd hi (Nat.not_lt_zero _)⟩
      · intro t' _ hn hok
        refine hok.other hn (fun k hk => absurd hk (hnr' t' k)) id ?_
        intro _ _ _ i _ hi
        exact (onDisk_store (by exact fun _ => ⟨rfl, rfl, rfl⟩)).mpr hi
  · have ht : t' ≠ t := by
      rintro rfl
      exact hnr b k hk
    rw [mutexTurn_held hl, bind_ok] at he
    rw [← Except.ok.inj he]
    have hok' := h.tasks t'
    rw [hk] at hok'
    obtain ⟨-, -, hv, hd, hi⟩ := hok'
    refine h.touch hp href (fun _ => ⟨rfl, rfl, rfl⟩) hold (Or.inr ⟨hv, rfl, hd⟩) ?_
      (Or.inr ⟨t', k, hl, Or.inr ⟨ht, hk⟩⟩) href ?_
    · intro hv' _ _
      exact absurd (hv.symm.trans hv') Bool.false_ne_true
    · intro t₁ _ hn hok
      refine hok.other hn ?_ id ?_
      · intro k₁ hk₁
        rw [hk₁] at hok ⊢
        obtain ⟨hr, hl₁, -, -, hi₁⟩ := hok
        refine ⟨hr, ?_⟩
        rw [setPc_buffers, setBuf_self]
        refine ⟨hl₁, hv, hd, ?_⟩
        intro i hik
        exact (onDisk_store (by exact fun _ => ⟨rfl, rfl, rfl⟩)).mpr (hi₁ i hik)
      · intro _ _ _ i _ hi
        exact (onDisk_store (by exact fun _ => ⟨rfl, rfl, rfl⟩)).mpr hi

/-- `bread` once `getblk` has returned the buffer. -/
theorem CacheInv.breadAt (h : CacheInv s (some (t, b))) (href : (t, b) ∈ s.refs)
    (hpc : ∀ b', ¬ Names (s.pc t) b') (he : breadAt s t b = .ok s') : CacheInv s' none := by
  rw [NeonixBufferCache.breadAt] at he
  have hold : ∀ b', Names (s.pc t) b' → b' = b := fun b' hn => absurd hn (hpc b')
  by_cases hv : (s.buffers b).valid = true
  · rw [if_pos hv] at he
    rw [← Except.ok.inj he, ← setBuf_id (s := s) (b := b)]
    refine (h.settle hv).touch (Or.inl rfl) href (fun _ => ⟨rfl, rfl, rfl⟩) hold (Or.inl hv) ?_
      ((h.locks b).imp id ?_) trivial ?_
    · intro _ hd i
      exact (onDisk_store (by exact fun _ => ⟨rfl, rfl, rfl⟩)).mpr (h.clean b hv hd i)
    · rintro ⟨t', k, hl, hk⟩
      refine ⟨t', k, hl, Or.inr ⟨?_, hk⟩⟩
      rintro rfl
      exact hpc b (by rw [hk]; rfl)
    · intro t' _ _ hok
      rw [setBuf_id]
      exact hok.frame (fun _ _ hr => hr) (fun _ _ => rfl) (fun _ _ _ hi => hi)
  · rw [if_neg hv] at he
    have hnr : ∀ b' k, s.pc t ≠ .reading b' k := by
      intro b' k hk
      exact hpc b' (by rw [hk]; rfl)
    -- a task outside the cache holds no lock, so the lock is not taken again
    have hne : (s.buffers b).lock.holder ≠ some t := by
      rcases h.locks b with hu | ⟨t', k, hl, hk⟩
      · rw [hu.1]
        simp
      · rw [hl.1]
        intro heq
        rw [Option.some.inj heq] at hk
        exact hnr b k hk
    rw [lockAcquire, if_pos hne] at he
    exact h.turn (Or.inr rfl) href hold hnr (fun hv' => absurd hv' hv) he

/-! ## References -/

/-- `getblk` finds the buffer in the hash table. -/
theorem CacheInv.found (h : CacheInv s none) (hb : Hashed s b) :
    CacheInv (getblkFound s t b) (some (t, b)) := by
  generalize hs' : getblkFound s t b = s'
  -- only the count of the buffer changes
  have hbuf : ∀ b', s'.buffers b' =
      { s.buffers b' with count := (s.buffers b').count + if b' = b then 1 else 0 } := by
    intro b'
    rw [← hs']
    rcases setBuf_cases { s with free_list := s.free_list.erase b, refs := (t, b) :: s.refs } b
      (fun bf => { bf with count := bf.count + 1 }) b' with ⟨rfl, heq⟩ | ⟨hne, heq⟩
    · refine heq.trans ?_
      rw [if_pos rfl]
    · refine heq.trans ?_
      rw [if_neg hne, Int.add_zero]
  have hrefs : s'.refs = (t, b) :: s.refs := by rw [← hs']; rfl
  have hfree : s'.free_list = s.free_list.erase b := by rw [← hs']; rfl
  have htable : s'.hash_table = s.hash_table := by rw [← hs']; rfl
  have hcount : s'.buffer_count = s.buffer_count := by rw [← hs']; rfl
  have hpc : s'.pc = s.pc := by rw [← hs']; rfl
  have hdisk : s'.disk = s.disk := by rw [← hs']; rfl
  clear hs'
  have hhashed : ∀ b', Hashed s' b' ↔ Hashed s b' := by
    intro b'
    rw [Hashed, htable, hbuf]
    rfl
  have hon : ∀ b' i, OnDisk s' b' i ↔ OnDisk s b' i := by
    intro b' i
    rw [OnDisk, hbuf, hdisk]
    rfl
  refine ⟨?_, ?_, ?_, ?_, ?_, ?_, ?_, ?_, ?_, ?_, ?_, ?_, ?_, ?_⟩
  · intro b'
    rw [hbuf, hrefs, List.countP_cons, Int.natCast_add, ← h.count b']
    by_cases hbb : b' = b
    · subst hbb
      simp
    · simp [hbb, Ne.symm hbb]
  · intro t' b' hr
    rw [hrefs] at hr
    rcases List.mem_cons.mp hr with heq | hr
    · rw [(Prod.mk.inj heq).2]
      exact (hhashed b).mpr hb
    · exact (hhashed b').mpr (h.refs t' b' hr)
  · intro b' hb'
    rw [hcount]
    exact h.below b' ((hhashed b').mp hb')
  · intro i b' hb'
    rw [htable] at hb'
    rw [hbuf]
    exact h.bucket i b' hb'
  · intro i
    rw [htable]
    exact h.nodup i
  · intro b₁ b₂ h₁ h₂ hd hk
    rw [hbuf, hbuf] at hd hk
    exact h.unique b₁ b₂ ((hhashed b₁).mp h₁) ((hhashed b₂).mp h₂) hd hk
  · intro b' hb'
    rw [hfree, h.freeNodup.mem_erase_iff] at hb'
    obtain ⟨hh, hr, hd⟩ := h.free b' hb'.2
    refine ⟨(hhashed b').mpr hh, ?_, by rw [hbuf]; exact hd⟩
    intro t' hmem
    rw [hrefs] at hmem
    rcases List.mem_cons.mp hmem with heq | hmem
    · exact hb'.1 (Prod.mk.inj heq).2
    · exact hr t' hmem
  · rw [hfree]
    exact h.freeNodup.erase b
  · intro b' hv
    rw [hbuf] at hv
    exact (hhashed b').mpr (h.valid b' hv)
  · intro t' b' hr hne
    rw [hrefs] at hr
    rw [hbuf, hpc]
    rcases List.mem_cons.mp hr with heq | hr
    · exact absurd (congrArg some heq.symm) hne
    · exact h.held t' b' hr (by simp)
  · intro b' hb' hv
    rw [hbuf] at hv ⊢
    exact h.quiet b' ((hhashed b').mp hb') hv
  · intro b' hv hd i
    rw [hbuf] at hv hd
    exact (hon b' i).mpr (h.clean b' hv hd i)
  · intro b'
    rw [hbuf, hpc]
    exact h.locks b'
  · intro t'
    have hok := h.tasks t'
    rw [hpc]
    cases hq : s.pc t' with
    | user => trivial
    | getFree => trivial
    | lockWait b' =>
        rw [hq] at hok
        rw [TaskOk, hrefs]
        exact List.mem_cons_of_mem _ hok
    | reading b' k =>
        rw [hq] at hok
        rw [TaskOk, hrefs, hbuf]
        exact ⟨List.mem_cons_of_mem _ hok.1, hok.2.1, hok.2.2.1, hok.2.2.2.1,
          fun i hik => (hon b' i).mpr (hok.2.2.2.2 i hik)⟩
    | unlocked b' =>
        rw [hq] at hok
        rw [TaskOk, hrefs, hbuf]
        exact ⟨List.mem_cons_of_mem _ hok.1, hok.2⟩
    | writing b' k r =>
        rw [hq] at hok
        rw [TaskOk, hrefs, hbuf]
        exact ⟨List.mem_cons_of_mem _ hok.1, hok.2.1,
          fun i hik => (hon b' i).mpr (hok.2.2 i hik)⟩

/-- A buffer on no list that nobody refers to. -/
structure Spare (s : Cache σ) (b : Nat) : Prop where
  table : ∀ i, b ∉ s.hash_table i
  refs : ∀ t, (t, b) ∉ s.refs
  free : b ∉ s.free_list
  valid : (s.buffers b).valid = false
  lock : (s.buffers b).lock.Unheld
  below : b < s.buffer_count

/-- Taking a buffer nobody refers to off its lists. -/
theorem CacheInv.retire (h : CacheInv s none) (hr : ∀ t, (t, b) ∉ s.refs)
    (hbuf : ∀ b', b' ≠ b → s'.buffers b' = s.buffers b')
    (hcount : (s'.buffers b).count = 0) (hvalid : (s'.buffers b).valid = false)
    (hlock : (s'.buffers b).lock.Unheld)
    (htable : ∀ i b', b' ∈ s'.hash_table i ↔ b' ∈ s.hash_table i ∧ b' ≠ b)
    (hnodup : ∀ i, (s'.hash_table i).Nodup)
    (hfree : ∀ b' ∈ s'.free_list, b' ∈ s.free_list ∧ b' ≠ b) (hfn : s'.free_list.Nodup)
    (hrefs : s'.refs = s.refs) (hle : s.buffer_count ≤ s'.buffer_count)
    (hlt : b < s'.buffer_count) (hpc : s'.pc = s.pc) (hdisk : s'.disk = s.disk) :
    CacheInv s' none ∧ Spare s' b := by
  have hhashed : ∀ b', Hashed s' b' ↔ Hashed s b' ∧ b' ≠ b := by
    intro b'
    rw [Hashed, htable]
    constructor
    · rintro ⟨hmem, hne⟩
      rw [hbuf b' hne] at hmem
      exact ⟨hmem, hne⟩
    · rintro ⟨hmem, hne⟩
      rw [hbuf b' hne]
      exact ⟨hmem, hne⟩
  have hne : ∀ {t' b'}, (t', b') ∈ s.refs → b' ≠ b := by
    rintro t' b' hmem rfl
    exact hr t' hmem
  refine ⟨⟨?_, ?_, ?_, ?_, hnodup, ?_, ?_, hfn, ?_, ?_, ?_, ?_, ?_, ?_⟩, ?_⟩
  · intro b'
    rw [hrefs]
    by_cases hb : b' = b
    · subst hb
      rw [hcount, List.countP_eq_zero.mpr]
      · rfl
      · intro x hx
        simpa using @hne x.1 x.2 hx
    · rw [hbuf b' hb]
      exact h.count b'
  · intro t' b' hmem
    rw [hrefs] at hmem
    exact (hhashed b').mpr ⟨h.refs t' b' hmem, hne hmem⟩
  · intro b' hb
    exact Nat.lt_of_lt_of_le (h.below b' ((hhashed b').mp hb).1) hle
  · intro i b' hb
    obtain ⟨hmem, hb⟩ := (htable i b').mp hb
    rw [hbuf b' hb]
    exact h.bucket i b' hmem
  · intro b₁ b₂ h₁ h₂ hd hk
    obtain ⟨h₁, hn₁⟩ := (hhashed b₁).mp h₁
    obtain ⟨h₂, hn₂⟩ := (hhashed b₂).mp h₂
    rw [hbuf b₁ hn₁, hbuf b₂ hn₂] at hd hk
    exact h.unique b₁ b₂ h₁ h₂ hd hk
  · intro b' hb
    obtain ⟨hmem, hn⟩ := hfree b' hb
    obtain ⟨hh, hr', hd⟩ := h.free b' hmem
    rw [hrefs, hbuf b' hn]
    exact ⟨(hhashed b').mpr ⟨hh, hn⟩, hr', hd⟩
  · intro b' hv
    by_cases hb : b' = b
    · subst hb
      rw [hvalid] at hv
      cases hv
    · rw [hbuf b' hb] at hv
      exact (hhashed b').mpr ⟨h.valid b' hv, hb⟩
  · intro t' b' hmem _
    rw [hrefs] at hmem
    rw [hbuf b' (hne hmem), hpc]
    exact h.held t' b' hmem (by simp)
  · intro b' hb hv
    obtain ⟨hh, hn⟩ := (hhashed b').mp hb
    rw [hbuf b' hn] at hv ⊢
    exact h.quiet b' hh hv
  · intro b' hv hd i
    have hb : b' ≠ b := by
      rintro rfl
      rw [hvalid] at hv
      cases hv
    rw [hbuf b' hb] at hv hd
    rw [OnDisk, hbuf b' hb, hdisk]
    exact h.clean b' hv hd i
  · intro b'
    by_cases hb : b' = b
    · subst hb
      exact Or.inl hlock
    · rw [hbuf b' hb, hpc]
      exact h.locks b'
  · intro t'
    have hok := h.tasks t'
    rw [hpc]
    have hb : ∀ b', Names (s.pc t') b' → s'.buffers b' = s.buffers b' := by
      intro b' hn
      exact hbuf b' (hne (hok.ref hn))
    refine hok.frame (fun b' _ hmem => by rw [hrefs]; exact hmem) hb ?_
    intro b' hn i hi
    rw [OnDisk, hb b' hn, hdisk]
    exact hi
  · refine ⟨?_, ?_, ?_, hvalid, hlock, hlt⟩
    · intro i hmem
      exact ((htable i b).mp hmem).2 rfl
    · rw [hrefs]
      exact hr
    · intro hmem
      exact (hfree b hmem).2 rfl

/-- The buffers of the hash table, with their keys, are as they were. -/
def KeysOf (s s' : Cache σ) : Prop :=
  ∀ b, Hashed s' b → Hashed s b ∧ (s'.buffers b).dev = (s.buffers b).dev ∧
    (s'.buffers b).block = (s.buffers b).block

/-- `get_free_buffer` hands out a spare buffer. -/
theorem CacheInv.getFreeBuffer {buffer_max : Nat} (h : CacheInv s none)
    (he : getFreeBuffer buffer_max s = .ok (some (b, s'))) :
    CacheInv s' none ∧ Spare s' b ∧ s'.pc = s.pc ∧ KeysOf s s' := by
  rw [NeonixBufferCache.getFreeBuffer] at he
  by_cases hroom : s.buffer_count < buffer_max
  · -- a buffer never used before
    rw [if_pos hroom] at he
    obtain ⟨hb, hs'⟩ := Prod.mk.inj (Option.some.inj (Except.ok.inj he))
    have hself : s'.buffers b = { s.buffers b with
        count := 0, dirty := false, valid := false, lock := lockInit } := by
      rw [← hs', ← hb]
      exact Function.update_self ..
    have hother : ∀ b', b' ≠ b → s'.buffers b' = s.buffers b' := by
      intro b' hne
      rw [← hb] at hne
      rw [← hs']
      exact Function.update_of_ne hne ..
    have hnew : ∀ b', Hashed s b' → b' ≠ b := by
      rintro b' hh rfl
      exact Nat.lt_irrefl _ (hb ▸ h.below _ hh)
    have hnt : ∀ i b', b' ∈ s.hash_table i → b' ≠ b := by
      intro i b' hmem
      refine hnew b' ?_
      rw [Hashed, h.bucket i b' hmem]
      exact hmem
    have htable : s'.hash_table = s.hash_table := by rw [← hs']; rfl
    have hfree : s'.free_list = s.free_list := by rw [← hs']; rfl
    have hcount : s'.buffer_count = b + 1 := by rw [← hs', ← hb]; rfl
    have hpc : s'.pc = s.pc := by rw [← hs']; rfl
    obtain ⟨hinv, hspare⟩ : CacheInv s' none ∧ Spare s' b :=
      h.retire (fun t' hmem => hnew b (h.refs t' b hmem) rfl)
      hother (by rw [hself]) (by rw [hself]) (by rw [hself]; exact ⟨rfl, rfl, rfl⟩)
      (fun i b' => by rw [htable]; exact ⟨fun hmem => ⟨hmem, hnt i b' hmem⟩, And.left⟩)
      (fun i => by rw [htable]; exact h.nodup i)
      (fun b' hmem => by rw [hfree] at hmem; exact ⟨hmem, hnew b' (h.free b' hmem).1⟩)
      (by rw [hfree]; exact h.freeNodup) (by rw [← hs']; rfl)
      (by rw [hcount, ← hb]; exact Nat.le_succ _) (by rw [hcount]; exact Nat.lt_succ_self _) hpc
      (by rw [← hs']; rfl)
    refine ⟨hinv, hspare, hpc, ?_⟩
    intro b' hh
    rw [Hashed, htable] at hh
    have hn := hnt _ b' hh
    rw [hother b' hn] at hh ⊢
    exact ⟨hh, rfl, rfl⟩
  · rw [if_neg hroom] at he
    cases hl : s.free_list.getLast? with
    | none =>
        rw [hl] at he
        cases he
    | some c =>
        -- the least recently released buffer
        rw [hl] at he
        obtain ⟨m, hm, he⟩ := bind_eq_ok he
        obtain ⟨_, hc, hm⟩ := bind_eq_ok hm
        obtain ⟨rfl, hs'⟩ := Prod.mk.inj (Option.some.inj (Except.ok.inj he))
        have hm := Except.ok.inj hm
        have hmem : c ∈ s.free_list := List.mem_of_getLast? hl
        obtain ⟨hch, hcr, -⟩ := h.free c hmem
        have hlist : s.free_list = s.free_list.dropLast ++ [c] := by
          obtain ⟨ys, hys⟩ := List.getLast?_eq_some_iff.mp hl
          rw [hys, List.dropLast_concat]
        have hfn : (s.free_list.dropLast ++ [c]).Nodup := hlist ▸ h.freeNodup
        obtain ⟨hdn, -, hdisj⟩ := List.nodup_append.mp hfn
        have hself : s'.buffers c = { s.buffers c with valid := false } := by
          rw [← hs', ← hm]
          exact setBuf_self _ _ _
        have hother : ∀ b', b' ≠ c → s'.buffers b' = s.buffers b' := by
          intro b' hne
          rw [← hs', ← hm]
          exact setBuf_other _ _ _ hne
        have htable : s'.hash_table = Function.update s.hash_table (s.buffers c).bucket
            ((s.hash_table (s.buffers c).bucket).erase c) := by
          rw [← hs', ← hm]
          rfl
        have hiff : ∀ i b', b' ∈ s'.hash_table i ↔ b' ∈ s.hash_table i ∧ b' ≠ c := by
          intro i b'
          rw [htable]
          by_cases hi : i = (s.buffers c).bucket
          · subst hi
            rw [Function.update_self, (h.nodup _).mem_erase_iff]
            exact and_comm
          · rw [Function.update_of_ne hi]
            refine ⟨fun hb' => ⟨hb', ?_⟩, And.left⟩
            rintro rfl
            exact hi (h.bucket i b' hb').symm
        have hfree : s'.free_list = s.free_list.dropLast := by rw [← hs', ← hm]; rfl
        have hcount : s'.buffer_count = s.buffer_count := by rw [← hs', ← hm]; rfl
        have hpc : s'.pc = s.pc := by rw [← hs', ← hm]; rfl
        have hun : (s.buffers c).lock.Unheld := by
          rcases h.locks c with hu | ⟨t', k, -, hk⟩
          · exact hu
          · have hok := h.tasks t'
            rw [hk] at hok
            exact absurd hok.1 (hcr t')
        obtain ⟨hinv, hspare⟩ : CacheInv s' none ∧ Spare s' c := h.retire hcr hother
          (by
            rw [hself]
            show (s.buffers c).count = 0
            rw [h.count c, List.countP_eq_zero.mpr]
            · rfl
            · rintro ⟨t', b'⟩ hx
              rw [decide_eq_true_eq]
              rintro rfl
              exact hcr t' hx)
          (by rw [hself]) (by rw [hself]; exact hun) hiff
          (by
            intro i
            rw [htable]
            by_cases hi : i = (s.buffers c).bucket
            · subst hi
              rw [Function.update_self]
              exact (h.nodup _).erase c
            · rw [Function.update_of_ne hi]
              exact h.nodup i)
          (by
            intro b' hb'
            rw [hfree] at hb'
            exact ⟨s.free_list.dropLast_subset hb',
              fun heq => hdisj b' hb' c List.mem_cons_self heq⟩)
          (by rw [hfree]; exact hdn) (by rw [← hs', ← hm]; rfl) (Nat.le_of_eq hcount.symm)
          (by rw [hcount]; exact h.below c hch) hpc (by rw [← hs', ← hm]; rfl)
        refine ⟨hinv, hspare, hpc, ?_⟩
        intro b' hh
        obtain ⟨hb', hne⟩ := (hiff _ b').mp hh
        rw [hother b' hne] at hb' ⊢
        exact ⟨hb', rfl, rfl⟩

/-- `getblk` gives a spare buffer to a block no buffer has. -/
theorem CacheInv.install {dev block : Nat} {m : Cache σ} (h : CacheInv s none) (hs : Spare s b)
    (hdirty : (s.buffers b).dirty = false)
    (hkey : ∀ b', Hashed s b' → ¬ ((s.buffers b').dev = dev ∧ (s.buffers b').block = block))
    (he : hashLocate (s.setBuf b fun bf => { bf with count := 1, dev := dev, block := block }) b =
      .ok m) :
    CacheInv { m with refs := (t, b) :: m.refs } (some (t, b)) ∧ m.pc = s.pc := by
  obtain ⟨_, -, hm⟩ := bind_eq_ok he
  have hm := Except.ok.inj hm
  generalize hs' : { m with refs := (t, b) :: m.refs } = s'
  have hself : s'.buffers b = { s.buffers b with count := 1, dev := dev, block := block } := by
    rw [← hs', ← hm]
    exact Function.update_self ..
  have hother : ∀ b', b' ≠ b → s'.buffers b' = s.buffers b' := by
    intro b' hne
    rw [← hs', ← hm]
    exact Function.update_of_ne hne ..
  have hrefs : s'.refs = (t, b) :: s.refs := by rw [← hs', ← hm]; rfl
  have htable : s'.hash_table =
      Function.update s.hash_table (hash dev block) (b :: s.hash_table (hash dev block)) := by
    rw [← hs', ← hm]
    simp only [setBuf_self]
    rfl
  have hfree : s'.free_list = s.free_list := by rw [← hs', ← hm]; rfl
  have hcount : s'.buffer_count = s.buffer_count := by rw [← hs', ← hm]; rfl
  have hpc : s'.pc = s.pc := by rw [← hs', ← hm]; rfl
  have hdisk : s'.disk = s.disk := by rw [← hs', ← hm]; rfl
  have hmpc : m.pc = s.pc := by rw [← hm]; rfl
  refine ⟨?_, hmpc⟩
  clear hs' he hm hmpc
  have hmem : ∀ i b', b' ∈ s'.hash_table i ↔
      b' ∈ s.hash_table i ∨ b' = b ∧ i = hash dev block := by
    intro i b'
    rw [htable]
    by_cases hi : i = hash dev block
    · subst hi
      rw [Function.update_self, List.mem_cons]
      constructor
      · rintro (rfl | hb)
        · exact Or.inr ⟨rfl, rfl⟩
        · exact Or.inl hb
      · rintro (hb | ⟨rfl, -⟩)
        · exact Or.inr hb
        · exact Or.inl rfl
    · rw [Function.update_of_ne hi]
      constructor
      · exact Or.inl
      · rintro (hb | ⟨-, hi'⟩)
        · exact hb
        · exact absurd hi' hi
  have hbb : Hashed s' b := by
    rw [Hashed, hself]
    exact (hmem _ b).mpr (Or.inr ⟨rfl, rfl⟩)
  have hhashed : ∀ b', b' ≠ b → (Hashed s' b' ↔ Hashed s b') := by
    intro b' hne
    rw [Hashed, hmem, hother b' hne]
    constructor
    · rintro (hb | ⟨hb, -⟩)
      · exact hb
      · exact absurd hb hne
    · exact Or.inl
  have hne : ∀ {t' b'}, (t', b') ∈ s.refs → b' ≠ b := by
    rintro t' b' hr rfl
    exact hs.refs t' hr
  refine ⟨?_, ?_, ?_, ?_, ?_, ?_, ?_, ?_, ?_, ?_, ?_, ?_, ?_, ?_⟩
  · intro b'
    rw [hrefs, List.countP_cons, Int.natCast_add]
    by_cases hb : b' = b
    · subst hb
      rw [hself, List.countP_eq_zero.mpr]
      · simp
      · rintro ⟨t', b''⟩ hx
        simpa using hne hx
    · rw [hother b' hb, ← h.count b']
      simp [Ne.symm hb]
  · intro t' b' hr
    rw [hrefs] at hr
    rcases List.mem_cons.mp hr with heq | hr
    · rw [(Prod.mk.inj heq).2]
      exact hbb
    · exact (hhashed b' (hne hr)).mpr (h.refs t' b' hr)
  · intro b' hb
    rw [hcount]
    by_cases hbe : b' = b
    · rw [hbe]
      exact hs.below
    · exact h.below b' ((hhashed b' hbe).mp hb)
  · intro i b' hb
    rcases (hmem i b').mp hb with hb | ⟨rfl, rfl⟩
    · have hbe : b' ≠ b := by
        rintro rfl
        exact hs.table i hb
      rw [hother b' hbe]
      exact h.bucket i b' hb
    · rw [hself]
      rfl
  · intro i
    rw [htable]
    by_cases hi : i = hash dev block
    · subst hi
      rw [Function.update_self]
      exact List.nodup_cons.mpr ⟨hs.table _, h.nodup _⟩
    · rw [Function.update_of_ne hi]
      exact h.nodup i
  · intro b₁ b₂ h₁ h₂ hd hk
    by_cases e₁ : b₁ = b
    · by_cases e₂ : b₂ = b
      · rw [e₁, e₂]
      · rw [e₁, hself, hother b₂ e₂] at hd hk
        exact absurd ⟨hd.symm, hk.symm⟩ (hkey b₂ ((hhashed b₂ e₂).mp h₂))
    · by_cases e₂ : b₂ = b
      · rw [e₂, hself, hother b₁ e₁] at hd hk
        exact absurd ⟨hd, hk⟩ (hkey b₁ ((hhashed b₁ e₁).mp h₁))
      · rw [hother b₁ e₁, hother b₂ e₂] at hd hk
        exact h.unique b₁ b₂ ((hhashed b₁ e₁).mp h₁) ((hhashed b₂ e₂).mp h₂) hd hk
  · intro b' hb
    rw [hfree] at hb
    have hbe : b' ≠ b := by
      rintro rfl
      exact hs.free hb
    obtain ⟨hh, hr, hd⟩ := h.free b' hb
    rw [hother b' hbe]
    refine ⟨(hhashed b' hbe).mpr hh, ?_, hd⟩
    intro t' hmem'
    rw [hrefs] at hmem'
    rcases List.mem_cons.mp hmem' with heq | hmem'
    · exact hbe (Prod.mk.inj heq).2
    · exact hr t' hmem'
  · rw [hfree]
    exact h.freeNodup
  · intro b' hv
    by_cases hbe : b' = b
    · rw [hbe]
      exact hbb
    · rw [hother b' hbe] at hv
      exact (hhashed b' hbe).mpr (h.valid b' hv)
  · intro t' b' hr hnp
    rw [hrefs] at hr
    rcases List.mem_cons.mp hr with heq | hr
    · exact absurd (congrArg some heq.symm) hnp
    · rw [hother b' (hne hr), hpc]
      exact h.held t' b' hr (by simp)
  · intro b' hb hv
    by_cases hbe : b' = b
    · rw [hbe, hself]
      exact hdirty
    · rw [hother b' hbe] at hv ⊢
      exact h.quiet b' ((hhashed b' hbe).mp hb) hv
  · intro b' hv hd i
    have hbe : b' ≠ b := by
      rintro rfl
      rw [hself] at hv
      exact absurd (hs.valid.symm.trans hv) Bool.false_ne_true
    rw [hother b' hbe] at hv hd
    rw [OnDisk, hother b' hbe, hdisk]
    exact h.clean b' hv hd i
  · intro b'
    by_cases hbe : b' = b
    · rw [hbe, hself]
      exact Or.inl hs.lock
    · rw [hother b' hbe, hpc]
      exact h.locks b'
  · intro t'
    have hok := h.tasks t'
    rw [hpc]
    have hb : ∀ b', Names (s.pc t') b' → s'.buffers b' = s.buffers b' := by
      intro b' hn
      exact hother b' (hne (hok.ref hn))
    refine hok.frame (fun b' _ hr => by rw [hrefs]; exact List.mem_cons_of_mem _ hr) hb ?_
    intro b' hn i hi
    rw [OnDisk, hb b' hn, hdisk]
    exact hi

/-- A task outside the cache moves, and its wait is recorded. -/
theorem CacheInv.move {wait : List Nat} (h : CacheInv s none) (hpc : ∀ b', ¬ Names (s.pc t) b')
    (hp : TaskOk s t p) : CacheInv { s.setPc t p with wait_list := wait } none := by
  refine { h with held := ?_, locks := ?_, tasks := ?_ }
  · intro t' b' hr hne
    rcases h.held t' b' hr hne with hv | hin
    · exact Or.inl hv
    · refine Or.inr ?_
      have ht : t' ≠ t := by
        rintro rfl
        refine hpc b' ?_
        cases hq : s.pc t' <;> rw [hq] at hin <;> first | exact hin | exact hin.elim
      rw [show Cache.pc _ t' = s.pc t' from setPc_other s t p ht]
      exact hin
  · intro b'
    refine (h.locks b').imp id ?_
    rintro ⟨t', k, hl, hk⟩
    have ht : t' ≠ t := by
      rintro rfl
      exact hpc b' (by rw [hk]; rfl)
    exact ⟨t', k, hl, (setPc_other s t p ht).trans hk⟩
  · intro t'
    by_cases ht : t' = t
    · subst ht
      rw [show Cache.pc _ t' = p from setPc_self s t' p]
      exact hp.frame (fun _ _ hr => hr) (fun _ _ => rfl) (fun _ _ _ hi => hi)
    · rw [show Cache.pc _ t' = s.pc t' from setPc_other s t p ht]
      exact (h.tasks t').frame (fun _ _ hr => hr) (fun _ _ => rfl) (fun _ _ _ hi => hi)

/-- `bread` from the call of `get_free_buffer` on, where no buffer has the block. -/
theorem CacheInv.breadFree {buffer_max dev block : Nat} (h : CacheInv s none)
    (hpc : ∀ b', ¬ Names (s.pc t) b')
    (hkey : s.buffer_count < buffer_max ∨ s.free_list ≠ [] →
      ∀ b', Hashed s b' → ¬ ((s.buffers b').dev = dev ∧ (s.buffers b').block = block))
    (he : breadFree buffer_max s t dev block = .ok s') : CacheInv s' none := by
  obtain ⟨r, hr, he⟩ := bind_eq_ok he
  cases r with
  | none =>
      rw [← Except.ok.inj he]
      exact h.move hpc trivial
  | some r =>
      obtain ⟨b, m⟩ := r
      have hroom : s.buffer_count < buffer_max ∨ s.free_list ≠ [] := by
        rw [NeonixBufferCache.getFreeBuffer] at hr
        by_cases hlt : s.buffer_count < buffer_max
        · exact Or.inl hlt
        · refine Or.inr ?_
          intro hnil
          rw [if_neg hlt, hnil] at hr
          cases hr
      obtain ⟨hinv, hspare, hmpc, hkeys⟩ := h.getFreeBuffer hr
      obtain ⟨_, -, he⟩ := bind_eq_ok he
      obtain ⟨_, hdirty, he⟩ := bind_eq_ok he
      obtain ⟨n, hn, he⟩ := bind_eq_ok he
      obtain ⟨hinst, hnpc⟩ := hinv.install (t := t) hspare (of_check hdirty) (by
        intro b' hb hk
        obtain ⟨hs, hd, hb⟩ := hkeys b' hb
        rw [hd, hb] at hk
        exact hkey hroom b' hs hk) hn
      refine hinst.breadAt List.mem_cons_self ?_ he
      intro b'
      rw [show Cache.pc _ t = n.pc t from rfl, hnpc, hmpc]
      exact hpc b'

/-- A reference is given back; the buffer may go on the free list with the last. -/
theorem CacheInv.unref (h : CacheInv s none) (href : (t, b) ∈ s.refs) (hpc : s.pc t = .user)
    (hdirty : (s.buffers b).dirty = false)
    (hbuf : ∀ b', s'.buffers b' =
      { s.buffers b' with count := (s.buffers b').count - if b' = b then 1 else 0 })
    (hrefs : s'.refs = s.refs.erase (t, b))
    (hfree : ∀ b' ∈ s'.free_list, b' ∈ s.free_list ∨ b' = b ∧ (s'.buffers b).count = 0)
    (hfn : s'.free_list.Nodup) (htable : s'.hash_table = s.hash_table)
    (hcount : s'.buffer_count = s.buffer_count) (hspc : s'.pc = s.pc)
    (hdisk : s'.disk = s.disk) : CacheInv s' none := by
  have hhashed : ∀ b', Hashed s' b' ↔ Hashed s b' := by
    intro b'
    rw [Hashed, htable, hbuf]
    rfl
  have hon : ∀ b' i, OnDisk s' b' i ↔ OnDisk s b' i := by
    intro b' i
    rw [OnDisk, hbuf, hdisk]
    rfl
  have hsub : ∀ {x}, x ∈ s'.refs → x ∈ s.refs := by
    intro x hx
    rw [hrefs] at hx
    exact List.mem_of_mem_erase hx
  have hcounts : ∀ b', (s'.buffers b').count = s'.refs.countP (·.2 = b') := by
    intro b'
    rw [hbuf, hrefs, List.countP_erase, h.count b']
    by_cases hb : b' = b
    · subst hb
      have hpos : 0 < s.refs.countP (·.2 = b') :=
        List.countP_pos_iff.mpr ⟨(t, b'), href, by simp⟩
      simp only [href, decide_true, and_self, if_true]
      omega
    · simp [hb, Ne.symm hb]
  refine ⟨hcounts, ?_, ?_, ?_, ?_, ?_, ?_, hfn, ?_, ?_, ?_, ?_, ?_, ?_⟩
  · intro t' b' hr
    exact (hhashed b').mpr (h.refs t' b' (hsub hr))
  · intro b' hb
    rw [hcount]
    exact h.below b' ((hhashed b').mp hb)
  · intro i b' hb
    rw [htable] at hb
    rw [hbuf]
    exact h.bucket i b' hb
  · intro i
    rw [htable]
    exact h.nodup i
  · intro b₁ b₂ h₁ h₂ hd hk
    rw [hbuf, hbuf] at hd hk
    exact h.unique b₁ b₂ ((hhashed b₁).mp h₁) ((hhashed b₂).mp h₂) hd hk
  · intro b' hb
    rw [hbuf]
    rcases hfree b' hb with hb | ⟨rfl, hz⟩
    · obtain ⟨hh, hr, hd⟩ := h.free b' hb
      exact ⟨(hhashed b').mpr hh, fun t' hr' => hr t' (hsub hr'), hd⟩
    · refine ⟨(hhashed b').mpr (h.refs t b' href), ?_, hdirty⟩
      -- the count is the number of references left
      intro t' hr'
      rw [hcounts] at hz
      have hpos : 0 < s'.refs.countP (·.2 = b') :=
        List.countP_pos_iff.mpr ⟨(t', b'), hr', by simp⟩
      omega
  · intro b' hv
    rw [hbuf] at hv
    exact (hhashed b').mpr (h.valid b' hv)
  · intro t' b' hr hne
    rw [hbuf, hspc]
    exact h.held t' b' (hsub hr) hne
  · intro b' hb hv
    rw [hbuf] at hv ⊢
    exact h.quiet b' ((hhashed b').mp hb) hv
  · intro b' hv hd i
    rw [hbuf] at hv hd
    exact (hon b' i).mpr (h.clean b' hv hd i)
  · intro b'
    rw [hbuf, hspc]
    exact h.locks b'
  · intro t'
    have hok := h.tasks t'
    rw [hspc]
    -- the task that gives the reference back works on no buffer
    have hkeep : ∀ {b'}, Names (s.pc t') b' → (t', b') ∈ s.refs → (t', b') ∈ s'.refs := by
      intro b' hn hr
      rw [hrefs]
      refine (List.mem_erase_of_ne ?_).mpr hr
      intro heq
      rw [(Prod.mk.inj heq).1, hpc] at hn
      exact hn
    cases hq : s.pc t' with
    | user => trivial
    | getFree => trivial
    | lockWait b' =>
        rw [hq] at hok hkeep
        exact hkeep rfl hok
    | reading b' k =>
        rw [hq] at hok hkeep
        rw [TaskOk, hbuf]
        exact ⟨hkeep rfl hok.1, hok.2.1, hok.2.2.1, hok.2.2.2.1,
          fun i hik => (hon b' i).mpr (hok.2.2.2.2 i hik)⟩
    | unlocked b' =>
        rw [hq] at hok hkeep
        rw [TaskOk, hbuf]
        exact ⟨hkeep rfl hok.1, hok.2⟩
    | writing b' k r =>
        rw [hq] at hok hkeep
        rw [TaskOk, hbuf]
        exact ⟨hkeep rfl hok.1, hok.2.1, fun i hik => (hon b' i).mpr (hok.2.2 i hik)⟩

/-- The end of `brelse` of a clean buffer. -/
theorem CacheInv.putBuffer (h : CacheInv s none) (href : (t, b) ∈ s.refs) (hpc : s.pc t = .user)
    (hdirty : (s.buffers b).dirty = false) (he : putBuffer s t b = .ok s') : CacheInv s' none := by
  obtain ⟨_, -, he⟩ := bind_eq_ok he
  rw [setPc_id (s := s.setBuf b fun bf => { bf with count := bf.count - 1 }) hpc] at he
  have hbuf : ∀ b', (s.setBuf b fun bf => { bf with count := bf.count - 1 }).buffers b' =
      { s.buffers b' with count := (s.buffers b').count - if b' = b then 1 else 0 } := by
    intro b'
    rcases setBuf_cases s b (fun bf => { bf with count := bf.count - 1 }) b' with
      ⟨rfl, heq⟩ | ⟨hne, heq⟩
    · rw [heq, if_pos rfl]
    · rw [heq, if_neg hne, Int.sub_zero]
  dsimp only at he
  by_cases hz : ((s.setBuf b fun bf => { bf with count := bf.count - 1 }).buffers b).count ≠ 0
  · rw [if_pos hz] at he
    rw [← Except.ok.inj he]
    exact h.unref href hpc hdirty hbuf rfl (fun _ hb => Or.inl hb) h.freeNodup rfl rfl rfl rfl
  · rw [if_neg hz] at he
    obtain ⟨_, hnf, he⟩ := bind_eq_ok he
    rw [← Except.ok.inj he]
    refine h.unref href hpc hdirty hbuf rfl ?_
      (List.nodup_cons.mpr ⟨of_check hnf, h.freeNodup⟩) rfl rfl rfl rfl
    intro b' hb
    rcases List.mem_cons.mp hb with rfl | hb
    · exact Or.inr ⟨rfl, not_not.mp hz⟩
    · exact Or.inl hb

/-! ## Requests -/

/-- A buffer a task outside the cache refers to is valid. -/
theorem CacheInv.held_valid (h : CacheInv s none) (href : (t, b) ∈ s.refs)
    (hpc : s.pc t = .user) : (s.buffers b).valid = true := by
  rcases h.held t b href (by simp) with hv | hin
  · exact hv
  · rw [hpc] at hin
    exact hin.elim

/-- Nobody reads a valid buffer. -/
theorem CacheInv.not_reading {t' k : Nat} (h : CacheInv s none) (hv : (s.buffers b).valid = true) :
    s.pc t' ≠ .reading b k := by
  intro hk
  have hok := h.tasks t'
  rw [hk] at hok
  exact absurd (hok.2.2.1.symm.trans hv) Bool.false_ne_true

/-- A lock of a valid buffer is unheld. -/
theorem CacheInv.unheld (h : CacheInv s none) (hv : (s.buffers b).valid = true) :
    (s.buffers b).lock.Unheld := by
  rcases h.locks b with hu | ⟨t', k, -, hk⟩
  · exact hu
  · exact absurd hk (h.not_reading hv)

/-- A task that refers to a valid buffer stores to it; it stays valid. -/
theorem CacheInv.store (h : CacheInv s none) (href : (t, b) ∈ s.refs)
    (hold : ∀ b', Names (s.pc t) b' → b' = b) (hv : (s.buffers b).valid = true)
    (hkey : ∀ bf, (f bf).dev = bf.dev ∧ (f bf).block = bf.block ∧ (f bf).count = bf.count)
    (hfv : (f (s.buffers b)).valid = true) (hfl : (f (s.buffers b)).lock = (s.buffers b).lock)
    (hclean : (f (s.buffers b)).dirty = false → ∀ i, OnDisk ((s.setBuf b f).setPc t p) b i)
    (hself : TaskOk ((s.setBuf b f).setPc t p) t p)
    (hsent : ∀ t' k r, t' ≠ t → s.pc t' = .writing b k r → ∀ i : Fin BLOCK_SECS, i.val < k →
      OnDisk s b i → OnDisk ((s.setBuf b f).setPc t p) b i) :
    CacheInv ((s.setBuf b f).setPc t p) none := by
  refine h.touch (Or.inl rfl) href hkey hold (Or.inl hfv) (fun _ => hclean)
    (Or.inl (hfl ▸ h.unheld hv)) hself ?_
  intro t' ht hn hok
  exact hok.other hn (fun k hk => absurd hk (h.not_reading hv)) (fun _ => hfv)
    (fun k r hq => hsent t' k r ht hq)

/-- Changing the data of a held buffer, where no sector a request has sent changes. -/
theorem CacheInv.modifyData {data : Data σ} (h : CacheInv s none) (href : (t, b) ∈ s.refs)
    (hpc : s.pc t = .user)
    (hsent : ∀ t' k r, s.pc t' = .writing b k r → ∀ i : Fin BLOCK_SECS, i.val < k →
      data i = (s.buffers b).data i) : CacheInv (modifyData s b data) none := by
  rw [NeonixBufferCache.modifyData,
    ← setPc_id (s := s.setBuf b fun bf => { bf with data := data, dirty := true }) hpc]
  refine h.store href ?_ (h.held_valid href hpc) (fun _ => ⟨rfl, rfl, rfl⟩)
    (h.held_valid href hpc) rfl ?_ trivial ?_
  · intro b' hn
    rw [hpc] at hn
    exact hn.elim
  · intro hd
    cases hd
  · intro t' k r _ hk i hik hi
    refine (onDisk_store (by exact fun _ => ⟨rfl, rfl, rfl⟩)).mpr ?_
    show data i = _
    rw [hsent t' k r hk i hik]
    exact hi

/-- `bwrite` and `brelse` start a request for a held buffer. -/
theorem CacheInv.startWrite {release : Bool} (h : CacheInv s none) (href : (t, b) ∈ s.refs)
    (hpc : s.pc t = .user) : CacheInv (s.setPc t (.writing b 0 release)) none := by
  rw [← setBuf_id (s := s) (b := b)]
  have hv := h.held_valid href hpc
  refine h.store href ?_ hv (fun _ => ⟨rfl, rfl, rfl⟩) hv rfl ?_ ?_ ?_
  · intro b' hn
    rw [hpc] at hn
    exact hn.elim
  · intro hd i
    exact (onDisk_store (by exact fun _ => ⟨rfl, rfl, rfl⟩)).mpr (h.clean b hv hd i)
  · refine ⟨href, ?_, fun i hi => absurd hi (Nat.not_lt_zero _)⟩
    rw [setPc_buffers, setBuf_self]
    exact hv
  · intro _ _ _ _ _ i _ hi
    exact (onDisk_store (by exact fun _ => ⟨rfl, rfl, rfl⟩)).mpr hi

/-- Writing a sector of one buffer takes no other from the device. -/
theorem onDisk_writeSector {b' : Nat} {k : Fin BLOCK_SECS} (h : CacheInv s pending)
    (hb : Hashed s b) (hb' : Hashed s b') (i : Fin BLOCK_SECS) :
    (OnDisk s b' i → OnDisk (writeSector s b k) b' i) ∧ OnDisk (writeSector s b k) b k := by
  have hdisk : ∀ dev block j, (writeSector s b k).disk dev block j =
      if dev = (s.buffers b).dev ∧ block = (s.buffers b).block ∧ j = k then (s.buffers b).data k
      else s.disk dev block j := by
    intro dev block j
    rw [writeSector]
    dsimp only
    by_cases hd : dev = (s.buffers b).dev
    · subst hd
      rw [Function.update_self]
      by_cases hk : block = (s.buffers b).block
      · subst hk
        rw [Function.update_self, Function.update_apply]
        by_cases hj : j = k
        · simp [hj]
        · simp [hj]
      · rw [Function.update_of_ne hk, if_neg (fun hc => hk hc.2.1)]
    · rw [Function.update_of_ne hd, if_neg (fun hc => hd hc.1)]
  refine ⟨?_, ?_⟩
  · intro hi
    show (s.buffers b').data i = (writeSector s b k).disk (s.buffers b').dev (s.buffers b').block i
    rw [hdisk]
    by_cases hc : (s.buffers b').dev = (s.buffers b).dev ∧
        (s.buffers b').block = (s.buffers b).block ∧ i = k
    · rw [if_pos hc, h.unique b' b hb' hb hc.1 hc.2.1, hc.2.2]
    · rw [if_neg hc]
      exact hi
  · show (s.buffers b).data k = (writeSector s b k).disk (s.buffers b).dev (s.buffers b).block k
    rw [hdisk, if_pos ⟨rfl, rfl, rfl⟩]

/-- The assignments of `bwrite` after its request. -/
theorem CacheInv.writeDone {k : Nat} {release : Bool} (h : CacheInv s none)
    (hk : s.pc t = .writing b k release) (hlt : ¬ k < BLOCK_SECS) :
    CacheInv ((s.setBuf b fun bf => { bf with dirty := false, valid := true }).setPc t .user)
      none := by
  have hok := h.tasks t
  rw [hk] at hok
  obtain ⟨href, hv, hi⟩ := hok
  have hall : ∀ i : Fin BLOCK_SECS, OnDisk s b i :=
    fun i => hi i (Nat.lt_of_lt_of_le i.isLt (Nat.not_lt.mp hlt))
  refine h.store href ?_ hv (fun _ => ⟨rfl, rfl, rfl⟩) rfl rfl ?_ trivial ?_
  · intro b' hn
    rw [hk] at hn
    exact hn.symm
  · intro _ i
    exact (onDisk_store (by exact fun _ => ⟨rfl, rfl, rfl⟩)).mpr (hall i)
  · intro _ _ _ _ _ i _ hi'
    exact (onDisk_store (by exact fun _ => ⟨rfl, rfl, rfl⟩)).mpr hi'

/-- A request of `bwrite` goes on: it sends a sector, or ends. -/
theorem CacheInv.writeTurn {k : Nat} {release : Bool} (h : CacheInv s none)
    (hk : s.pc t = .writing b k release) (he : writeTurn s t b k release = .ok s') :
    CacheInv s' none := by
  have hok := h.tasks t
  rw [hk] at hok
  obtain ⟨href, hv, hi⟩ := hok
  have hold : ∀ b', Names (s.pc t) b' → b' = b := by
    intro b' hn
    rw [hk] at hn
    exact hn.symm
  rw [NeonixBufferCache.writeTurn] at he
  by_cases hlt : k < BLOCK_SECS
  · rw [dif_pos hlt] at he
    rw [← Except.ok.inj he]
    have hb := h.refs t b href
    have hw : CacheInv (writeSector s b ⟨k, hlt⟩) none := by
      refine { h with clean := ?_, tasks := ?_ }
      · intro b' hv' hd' i
        exact (onDisk_writeSector h hb (h.valid b' hv') i).1 (h.clean b' hv' hd' i)
      · intro t'
        exact (h.tasks t').frame (fun _ _ hr => hr) (fun _ _ => rfl) (fun b' hn i =>
          (onDisk_writeSector h hb (h.refs t' b' ((h.tasks t').ref hn)) i).1)
    rw [← setBuf_id (s := writeSector s b ⟨k, hlt⟩) (b := b)]
    refine hw.store href hold hv (fun _ => ⟨rfl, rfl, rfl⟩) hv rfl ?_ ?_ ?_
    · intro hd i
      exact (onDisk_store (by exact fun _ => ⟨rfl, rfl, rfl⟩)).mpr (hw.clean b hv hd i)
    · refine ⟨href, ?_, ?_⟩
      · rw [setPc_buffers, setBuf_self]
        exact hv
      · intro i hik
        refine (onDisk_store (by exact fun _ => ⟨rfl, rfl, rfl⟩)).mpr ?_
        rcases Nat.lt_succ_iff_lt_or_eq.mp hik with hik | hik
        · exact (onDisk_writeSector h hb hb i).1 (hi i hik)
        · rw [show i = ⟨k, hlt⟩ from Fin.ext hik]
          exact (onDisk_writeSector h hb hb i).2
    · intro _ _ _ _ _ i _ hi'
      exact (onDisk_store (by exact fun _ => ⟨rfl, rfl, rfl⟩)).mpr hi'
  · rw [dif_neg hlt] at he
    have hdone := h.writeDone hk hlt
    cases release with
    | false =>
        rw [← Except.ok.inj he]
        exact hdone
    | true =>
        refine hdone.putBuffer (t := t) (b := b) href (setPc_self _ t _) ?_ he
        rw [setPc_buffers, setBuf_self]

/-- The request of `bread` goes on: it reads a sector, or ends. -/
theorem CacheInv.readTurn {k : Nat} (h : CacheInv s none) (hk : s.pc t = .reading b k)
    (he : readTurn s t b k = .ok s') : CacheInv s' none := by
  have hok := h.tasks t
  rw [hk] at hok
  obtain ⟨href, hl, hv, hd, hi⟩ := hok
  have hold : ∀ b', Names (s.pc t) b' → b' = b := by
    intro b' hn
    rw [hk] at hn
    exact hn.symm
  -- the others that work on the buffer wait for its lock
  have hother : ∀ {f : Buffer σ → Buffer σ} {p : Pc} t', t' ≠ t → Names (s.pc t') b →
      TaskOk s t' (s.pc t') → TaskOk ((s.setBuf b f).setPc t p) t' (s.pc t') := by
    intro f p t' ht hn hok
    cases hq : s.pc t' with
    | user => trivial
    | getFree => trivial
    | lockWait b' =>
        rw [hq] at hok
        exact hok
    | reading b' k' =>
        rw [hq] at hn
        obtain rfl : b' = b := hn
        exact absurd (h.one_reader hk hq) ht
    | unlocked b' =>
        rw [hq] at hn hok
        obtain rfl : b' = b := hn
        exact absurd (hv.symm.trans hok.2) Bool.false_ne_true
    | writing b' k' r =>
        rw [hq] at hn hok
        obtain rfl : b' = b := hn
        exact absurd (hv.symm.trans hok.2.1) Bool.false_ne_true
  rw [NeonixBufferCache.readTurn] at he
  by_cases hlt : k < BLOCK_SECS
  · rw [dif_pos hlt] at he
    rw [← Except.ok.inj he]
    refine h.touch (Or.inl rfl) href (fun _ => ⟨rfl, rfl, rfl⟩) hold (Or.inr ⟨hv, rfl, hd⟩) ?_
      (Or.inr ⟨t, k + 1, hl, Or.inl ⟨rfl, rfl⟩⟩) ?_ hother
    · intro hv' _ _
      exact absurd (hv.symm.trans hv') Bool.false_ne_true
    · refine ⟨href, ?_⟩
      rw [setPc_buffers, setBuf_self]
      refine ⟨hl, hv, hd, ?_⟩
      intro i hik
      refine (onDisk_store (by exact fun _ => ⟨rfl, rfl, rfl⟩)).mpr ?_
      dsimp only
      by_cases heq : i = ⟨k, hlt⟩
      · rw [heq, Function.update_self]
      · rw [Function.update_of_ne heq]
        refine hi i ?_
        have hne : i.val ≠ k := fun hc => heq (Fin.ext hc)
        omega
  · rw [dif_neg hlt] at he
    have hall : ∀ i : Fin BLOCK_SECS, OnDisk s b i :=
      fun i => hi i (Nat.lt_of_lt_of_le i.isLt (Nat.not_lt.mp hlt))
    have hl' : ((s.setBuf b fun bf => { bf with dirty := false, valid := true }).buffers
        b).lock.HeldBy t := by
      rw [setBuf_self]
      exact hl
    rcases breadRelease_eq hl' with ⟨-, heq⟩ | ⟨-, heq⟩
    · rw [heq, setBuf_setBuf] at he
      rw [← Except.ok.inj he]
      refine h.touch (Or.inl rfl) href (fun _ => ⟨rfl, rfl, rfl⟩) hold (Or.inl rfl) ?_
        (Or.inl (freed_unheld _)) ⟨href, ?_⟩ hother
      · intro _ _ i
        exact (onDisk_store (by exact fun _ => ⟨rfl, rfl, rfl⟩)).mpr (hall i)
      · rw [setPc_buffers, setBuf_self]
    · rw [heq, setBuf_setBuf] at he
      rw [← Except.ok.inj he]
      refine h.touch (Or.inl rfl) href (fun _ => ⟨rfl, rfl, rfl⟩) hold (Or.inl rfl) ?_
        (Or.inl (freed_unheld _)) trivial hother
      intro _ _ i
      exact (onDisk_store (by exact fun _ => ⟨rfl, rfl, rfl⟩)).mpr (hall i)

/-- The last assignments of `bread`, where `dirty` is not set. -/
theorem CacheInv.breadReturn (h : CacheInv s none) (hk : s.pc t = .unlocked b)
    (hd : (s.buffers b).dirty = false) : CacheInv (breadReturn s t b) none := by
  have hok := h.tasks t
  rw [hk] at hok
  refine h.store hok.1 ?_ hok.2 (fun _ => ⟨rfl, rfl, rfl⟩) rfl rfl ?_ trivial ?_
  · intro b' hn
    rw [hk] at hn
    exact hn.symm
  · intro _ i
    exact (onDisk_store (by exact fun _ => ⟨rfl, rfl, rfl⟩)).mpr (h.clean b hok.2 hd i)
  · intro _ _ _ _ _ i _ hi'
    exact (onDisk_store (by exact fun _ => ⟨rfl, rfl, rfl⟩)).mpr hi'

/-! ## Every reachable state -/

variable {buffer_max : Nat}

/-- The new data keeps the sectors a request in progress has sent. -/
def SentKept (s : Cache σ) (b : Nat) (data : Data σ) : Pc → Prop
  | .writing b' k _ => b' = b → ∀ i : Fin BLOCK_SECS, i.val < k → data i = (s.buffers b).data i
  | .user | .getFree _ _ | .lockWait _ | .reading _ _ | .unlocked _ => True

/-- A task that goes on from there clears no `dirty` that is set, and makes no
    second buffer of a block. -/
def ResumeOk (buffer_max : Nat) (s : Cache σ) : Pc → Prop
  | .unlocked b => (s.buffers b).dirty = false
  | .lockWait b => (s.buffers b).valid = true → (s.buffers b).lock.value = false →
      (s.buffers b).lock.waiters = [] → (s.buffers b).dirty = false
  | .getFree dev block =>
      s.buffer_count < buffer_max ∨ s.free_list ≠ [] → hashSearch s dev block = none
  | .user | .reading _ _ | .writing _ _ _ => True

/-- The steps that undo no modification. -/
def Undisturbed (buffer_max : Nat) (s : Cache σ) : Event σ → Prop
  | .modify _ b data => ∀ x ∈ s.refs, SentKept s b data (s.pc x.1)
  | .resume t => ResumeOk buffer_max s (s.pc t)
  | .bread _ _ _ | .bwrite _ _ | .brelse _ _ => True

/-- The task is in a request that writes the buffer. -/
def Writes : Pc → Nat → Prop
  | .writing b' _ _, b => b' = b
  | .user, _ | .getFree _ _, _ | .lockWait _, _ | .reading _ _, _ | .unlocked _, _ => False

theorem hashSearch_some {dev block : Nat} (h : hashSearch s dev block = some b) : Hashed s b := by
  have hkey := List.find?_some h
  have hmem := List.mem_of_find?_eq_some h
  obtain ⟨hd, hk⟩ := of_decide_eq_true hkey
  rw [Hashed, Buffer.bucket, hd, hk]
  exact hmem

theorem hashSearch_none {dev block : Nat} (h : hashSearch s dev block = none) :
    ∀ b, Hashed s b → ¬ ((s.buffers b).dev = dev ∧ (s.buffers b).block = block) := by
  rintro b hb ⟨hd, hk⟩
  rw [Hashed, Buffer.bucket, hd, hk] at hb
  have hno := List.find?_eq_none.mp h b hb
  exact hno (by simp [hd, hk])

/-- Every undisturbed step keeps the invariant. -/
theorem CacheInv.step {e : Event σ} (h : CacheInv s none) (hg : Undisturbed buffer_max s e)
    (hs : (system σ buffer_max).step s e s') : CacheInv s' none := by
  obtain ⟨hen, he⟩ := hs
  have huser : ∀ {t}, s.pc t = .user → ∀ b', ¬ Names (s.pc t) b' := by
    intro t hpc b' hn
    rw [hpc] at hn
    exact hn
  cases e with
  | bread t dev block =>
      have hpc : s.pc t = .user := hen
      simp only [exec, bread] at he
      cases hf : hashSearch s dev block with
      | some b =>
          rw [hf] at he
          exact (h.found (hashSearch_some hf)).breadAt List.mem_cons_self (huser hpc) he
      | none =>
          rw [hf] at he
          exact h.breadFree (huser hpc) (fun _ => hashSearch_none hf) he
  | modify t b data =>
      rw [← Except.ok.inj he]
      refine h.modifyData hen.2 hen.1 ?_
      intro t' k r hk i hik
      -- a request in progress holds a reference
      have hok := h.tasks t'
      rw [hk] at hok
      have hkept := hg (t', b) hok.1
      rw [hk] at hkept
      exact hkept rfl i hik
  | bwrite t b =>
      rw [← Except.ok.inj he, bwrite]
      by_cases hd : (s.buffers b).dirty = true
      · rw [if_pos hd]
        exact h.startWrite hen.2 hen.1
      · rw [if_neg hd]
        exact h
  | brelse t b =>
      simp only [exec, brelse] at he
      by_cases hd : (s.buffers b).dirty = true
      · rw [if_pos hd] at he
        rw [← Except.ok.inj he]
        exact h.startWrite hen.2 hen.1
      · rw [if_neg hd] at he
        exact h.putBuffer hen.2 hen.1 (by simpa using hd) he
  | resume t =>
      simp only [exec] at he
      change ResumeOk buffer_max s (s.pc t) at hg
      cases hpc : s.pc t with
      | user =>
          rw [hpc] at he
          rw [← Except.ok.inj he]
          exact h
      | getFree dev block =>
          rw [hpc] at he hg
          refine h.breadFree ?_ (fun hroom => hashSearch_none (hg hroom)) he
          intro b' hn
          rw [hpc] at hn
          exact hn
      | lockWait b =>
          rw [hpc] at he hg
          have href := h.tasks t
          rw [hpc] at href
          refine h.turn (Or.inl rfl) href ?_ ?_ hg he
          · intro b' hn
            rw [hpc] at hn
            exact hn.symm
          · intro b' k hk
            rw [hpc] at hk
            cases hk
      | reading b k =>
          rw [hpc] at he
          exact h.readTurn hpc he
      | unlocked b =>
          rw [hpc] at he hg
          rw [← Except.ok.inj he]
          exact h.breadReturn hpc hg
      | writing b k r =>
          rw [hpc] at he
          exact h.writeTurn hpc he

instance [DecidableEq σ] (s : Cache σ) (b : Nat) (data : Data σ) :
    (p : Pc) → Decidable (SentKept s b data p)
  | .writing _ _ _ => inferInstanceAs (Decidable (_ → _))
  | .user | .getFree _ _ | .lockWait _ | .reading _ _ | .unlocked _ =>
      inferInstanceAs (Decidable True)

instance (s : Cache σ) : (p : Pc) → Decidable (ResumeOk buffer_max s p)
  | .unlocked _ => inferInstanceAs (Decidable (_ = _))
  | .lockWait _ => inferInstanceAs (Decidable (_ → _))
  | .getFree _ _ => inferInstanceAs (Decidable (_ → _))
  | .user | .reading _ _ | .writing _ _ _ => inferInstanceAs (Decidable True)

instance [DecidableEq σ] (s : Cache σ) : (e : Event σ) → Decidable (Undisturbed buffer_max s e)
  | .modify _ _ _ => inferInstanceAs (Decidable (∀ x ∈ _, _))
  | .resume t => inferInstanceAs (Decidable (ResumeOk buffer_max s (s.pc t)))
  | .bread _ _ _ | .bwrite _ _ | .brelse _ _ => inferInstanceAs (Decidable True)

/-- A cache of no buffers over a device of zeros. -/
def emptyCache : Cache Nat where
  buffers := fun _ =>
    { data := fun _ => 0, dev := 0, block := 0, count := 0, dirty := false, valid := false
      lock := lockInit }
  buffer_count := 0
  hash_table := fun _ => []
  free_list := []
  wait_list := []
  disk := fun _ _ _ => 0
  pc := fun _ => .user
  refs := []

theorem emptyCache_init : Init emptyCache :=
  ⟨fun _ => ⟨rfl, rfl⟩, fun _ => ⟨rfl, rfl, rfl⟩, rfl, fun _ => rfl, rfl, rfl, fun _ => rfl⟩

end NeonixBufferDirty
