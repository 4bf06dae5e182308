import Neonix.BufferTable

/-! # What a reference to a buffer is worth

    A buffer that somebody refers to keeps its block, its place in the table and
    its data, whatever the other tasks do: it is evicted only with a count of
    zero, and each reference is counted.  That holds of every step, the races of
    the cache included. -/

namespace NeonixBufferRefs

open NeonixMachine NeonixMutex NeonixBufferCache NeonixBufferDirty NeonixBufferTable NeonixRuns

variable {σ : Type} {s s' m : Cache σ} {t u b c dev block buffer_max : Nat}

section Counts

variable {α : Type}

/-- The references to a buffer. -/
def refsOf (refs : List (α × Nat)) (b : Nat) : Nat := refs.countP fun r => r.2 = b

@[simp] theorem refsOf_cons (r : α × Nat) (refs : List (α × Nat)) :
    refsOf (r :: refs) b = refsOf refs b + if r.2 = b then 1 else 0 := by
  rw [refsOf, List.countP_cons]
  simp only [decide_eq_true_eq]
  rfl

theorem refsOf_pos {refs : List (α × Nat)} {o : α} (h : (o, b) ∈ refs) : 0 < refsOf refs b :=
  List.countP_pos_iff.mpr ⟨_, h, decide_eq_true rfl⟩

variable [BEq α] [LawfulBEq α] {o o' : α} {refs : List (α × Nat)}

theorem refsOf_erase (h : (o, c) ∈ refs) :
    refsOf (refs.erase (o, c)) b + (if c = b then 1 else 0) = refsOf refs b := by
  have hperm := (List.perm_cons_erase h).countP_eq fun r : α × Nat => decide (r.2 = b)
  rw [List.countP_cons] at hperm
  simp only [decide_eq_true_eq] at hperm
  exact hperm.symm

/-- Two owners make two references. -/
theorem refsOf_two (h : (o, b) ∈ refs) (h' : (o', b) ∈ refs) (hne : o' ≠ o) :
    2 ≤ refsOf refs b := by
  have hother : (o', b) ∈ refs.erase (o, b) :=
    (List.mem_erase_of_ne fun heq => hne (Prod.mk.inj heq).1).mpr h'
  have herase := refsOf_erase (b := b) h
  have hpos := refsOf_pos hother
  rw [if_pos rfl] at herase
  omega

/-- A reference that changes its owner. -/
theorem refsOf_swap (h : (o, c) ∈ refs) :
    refsOf ((o', c) :: refs.erase (o, c)) b = refsOf refs b := by
  rw [refsOf_cons]
  exact refsOf_erase h

end Counts

/-- Each reference is counted, and refers to a buffer of the table. -/
structure Backed (s : Cache σ) : Prop where
  placed : Placed s
  counted : ∀ b, (refsOf s.refs b : Int) ≤ (s.buffers b).count
  known : ∀ t b, (t, b) ∈ s.refs → InTable s b
  release : ∀ t b k, s.pc t = .writing b k true → (t, b) ∈ s.refs

/-- A buffer keeps its block, its place and its data. -/
structure Kept (s s' : Cache σ) (b : Nat) : Prop where
  dev : (s'.buffers b).dev = (s.buffers b).dev
  block : (s'.buffers b).block = (s.buffers b).block
  valid : (s.buffers b).valid = true → (s'.buffers b).valid = true
  table : InTable s b → InTable s' b

/-- What a step of task `t` leaves alone. -/
structure Frame (t : Nat) (s s' : Cache σ) : Prop where
  kept : ∀ u b, (u, b) ∈ s.refs → Kept s s' b
  refs : ∀ u b, u ≠ t → (u, b) ∈ s.refs → (u, b) ∈ s'.refs
  pc : ∀ u, u ≠ t → s'.pc u = s.pc u

theorem Kept.refl (s : Cache σ) (b : Nat) : Kept s s b := ⟨rfl, rfl, id, id⟩

theorem Kept.trans (h : Kept s m b) (h' : Kept m s' b) : Kept s s' b :=
  ⟨h'.dev.trans h.dev, h'.block.trans h.block, fun hv => h'.valid (h.valid hv),
    fun ht => h'.table (h.table ht)⟩

/-! ## Steps that leave the counts alone -/

/-- A step of task `t` on the buffers in use. -/
structure Mild (t : Nat) (s s' : Cache σ) : Prop where
  table : SameTable s s'
  refs : s'.refs = s.refs
  count : ∀ b, (s'.buffers b).count = (s.buffers b).count
  valid : ∀ b, (s.buffers b).valid = true → (s'.buffers b).valid = true
  pc : ∀ u, u ≠ t → s'.pc u = s.pc u

theorem Mild.refl (t : Nat) (s : Cache σ) : Mild t s s :=
  ⟨.refl s, rfl, fun _ => rfl, fun _ => id, fun _ _ => rfl⟩

theorem Mild.trans (h : Mild t s m) (h' : Mild t m s') : Mild t s s' :=
  ⟨h.table.trans h'.table, h'.refs.trans h.refs, fun b => (h'.count b).trans (h.count b),
    fun b hv => h'.valid b (h.valid b hv), fun u hu => (h'.pc u hu).trans (h.pc u hu)⟩

theorem Mild.kept (h : Mild t s s') (b : Nat) : Kept s s' b :=
  ⟨h.table.dev b, h.table.block b, h.valid b, h.table.inTable.mpr⟩

theorem Mild.frame (h : Mild t s s') : Frame t s s' :=
  ⟨fun _ b _ => h.kept b, fun _ _ _ hr => h.refs ▸ hr, h.pc⟩

theorem Mild.backed (h : Mild t s s') (hs : Backed s)
    (hp : ∀ b k, s'.pc t = .writing b k true → (t, b) ∈ s.refs) : Backed s' := by
  refine ⟨h.table.placed hs.placed, fun b => ?_, fun u b hr => ?_, fun u b k hpc => ?_⟩
  · rw [h.refs, h.count]
    exact hs.counted b
  · rw [h.refs] at hr
    exact h.table.inTable.mpr (hs.known u b hr)
  · rw [h.refs]
    by_cases hu : u = t
    · subst hu
      exact hp b k hpc
    · rw [h.pc u hu] at hpc
      exact hs.release u b k hpc

theorem mild_setBuf (s : Cache σ) (b : Nat) {f : Buffer σ → Buffer σ}
    (hf : ∀ bf, (f bf).dev = bf.dev ∧ (f bf).block = bf.block ∧ (f bf).count = bf.count ∧
      (bf.valid = true → (f bf).valid = true)) : Mild t s (s.setBuf b f) := by
  refine ⟨sameTable_setBuf s b fun bf => ⟨(hf bf).1, (hf bf).2.1⟩, rfl, fun c => ?_, fun c hv => ?_,
    fun _ _ => rfl⟩
  · rcases setBuf_cases s b f c with ⟨rfl, heq⟩ | ⟨-, heq⟩
    · rw [heq]
      exact (hf _).2.2.1
    · rw [heq]
  · rcases setBuf_cases s b f c with ⟨rfl, heq⟩ | ⟨-, heq⟩
    · rw [heq]
      exact (hf _).2.2.2 hv
    · rw [heq]
      exact hv

theorem mild_setPc (s : Cache σ) (t : Nat) (p : Pc) : Mild t s (s.setPc t p) :=
  ⟨sameTable_setPc, rfl, fun _ => rfl, fun _ => id, fun _ hu => setPc_other s t p hu⟩

/-! ## The rest of `bread` -/

/-- The buffer a task inside `bread` gets. -/
def Fetches : Pc → Nat → Prop
  | .lockWait b, c | .reading b _, c | .unlocked b, c => b = c
  | .user, _ | .getFree _ _, _ | .writing _ _ _, _ => False

/-- `bread` has its buffer, and returned it or is still busy with it. -/
def Arrives (t b : Nat) (s : Cache σ) : Prop :=
  s.pc t = .user ∧ (s.buffers b).valid = true ∨ Fetches (s.pc t) b

theorem Arrives.no_release (h : Arrives t b s) (c k : Nat) : s.pc t ≠ .writing c k true := by
  intro hpc
  rcases h with ⟨huser, -⟩ | hf
  · rw [hpc] at huser
    cases huser
  · rw [hpc] at hf
    exact hf

theorem breadReturn_arrives : Mild t s (breadReturn s t b) ∧ Arrives t b (breadReturn s t b) := by
  refine ⟨(mild_setBuf s b ?_).trans (mild_setPc _ t .user), Or.inl ⟨setPc_self _ _ _, ?_⟩⟩
  · exact fun _ => ⟨rfl, rfl, rfl, fun _ => rfl⟩
  · rw [breadReturn, setPc_buffers, setBuf_self]

theorem breadRelease_arrives (he : breadRelease s t b = .ok s') :
    Mild t s s' ∧ Arrives t b s' := by
  obtain ⟨⟨lock, woken⟩, -, he⟩ := bind_eq_ok he
  have hlock : Mild t s (s.setBuf b fun bf => { bf with lock := lock }) :=
    mild_setBuf s b (by exact fun _ => ⟨rfl, rfl, rfl, id⟩)
  cases woken with
  | some _ =>
      rw [← Except.ok.inj he]
      refine ⟨hlock.trans (mild_setPc _ t _), Or.inr ?_⟩
      rw [setPc_self]
      rfl
  | none =>
      rw [← Except.ok.inj he]
      obtain ⟨hmild, harrives⟩ := breadReturn_arrives
        (s := s.setBuf b fun bf => { bf with lock := lock }) (t := t) (b := b)
      exact ⟨hlock.trans hmild, harrives⟩

theorem breadLocked_arrives {lock : Lock} {turn : Turn}
    (he : breadLocked s t b lock turn = .ok s') : Mild t s s' ∧ Arrives t b s' := by
  have hlock : Mild t s (s.setBuf b fun bf => { bf with lock := lock }) :=
    mild_setBuf s b (by exact fun _ => ⟨rfl, rfl, rfl, id⟩)
  cases turn with
  | waits =>
      rw [← Except.ok.inj he]
      refine ⟨hlock.trans (mild_setPc _ t _), Or.inr ?_⟩
      rw [setPc_self]
      rfl
  | acquired =>
      simp only [breadLocked] at he
      by_cases hv : ((s.setBuf b fun bf => { bf with lock := lock }).buffers b).valid = true
      · rw [if_pos hv] at he
        obtain ⟨hmild, harrives⟩ := breadRelease_arrives he
        exact ⟨hlock.trans hmild, harrives⟩
      · rw [if_neg hv] at he
        rw [← Except.ok.inj he]
        refine ⟨hlock.trans (mild_setPc _ t _), Or.inr ?_⟩
        rw [setPc_self]
        rfl

theorem breadAt_arrives (he : breadAt s t b = .ok s') : Mild t s s' ∧ Arrives t b s' := by
  rw [breadAt] at he
  by_cases hv : (s.buffers b).valid = true
  · rw [if_pos hv] at he
    rw [← Except.ok.inj he]
    exact ⟨mild_setPc s t .user, Or.inl ⟨setPc_self _ _ _, hv⟩⟩
  · rw [if_neg hv] at he
    obtain ⟨⟨lock, turn⟩, -, he⟩ := bind_eq_ok he
    exact breadLocked_arrives he

theorem readTurn_arrives {k : Nat} (he : readTurn s t b k = .ok s') :
    Mild t s s' ∧ Arrives t b s' := by
  rw [readTurn] at he
  split at he
  · rw [← Except.ok.inj he]
    refine ⟨(mild_setBuf s b ?_).trans (mild_setPc _ t _), Or.inr ?_⟩
    · exact fun _ => ⟨rfl, rfl, rfl, id⟩
    · rw [setPc_self]
      rfl
  · obtain ⟨hmild, harrives⟩ := breadRelease_arrives he
    exact ⟨(mild_setBuf s b (by exact fun _ => ⟨rfl, rfl, rfl, fun _ => rfl⟩)).trans hmild, harrives⟩

/-- A task that has its buffer goes on with it. -/
theorem resume_fetch (hf : Fetches (s.pc t) b) (he : exec buffer_max s (.resume t) = .ok s') :
    Mild t s s' ∧ Arrives t b s' := by
  simp only [exec] at he
  cases hpc : s.pc t with
  | user | getFree _ _ | writing _ _ _ =>
      rw [hpc] at hf
      exact hf.elim
  | lockWait c =>
      rw [hpc] at hf he
      subst hf
      obtain ⟨⟨lock, turn⟩, -, he⟩ := bind_eq_ok he
      exact breadLocked_arrives he
  | reading c k =>
      rw [hpc] at hf he
      subst hf
      exact readTurn_arrives he
  | unlocked c =>
      rw [hpc] at hf he
      subst hf
      rw [← Except.ok.inj he]
      exact breadReturn_arrives

/-! ## `getblk` -/

/-- Where a task stands that asked for a block: it waits for a free buffer, or it has one
    more reference, to a buffer of the block. -/
def Asked (t dev block : Nat) (s s' : Cache σ) : Prop :=
  s'.pc t = .getFree dev block ∧ s'.refs = s.refs ∨
    ∃ b, Arrives t b s' ∧ s'.refs = (t, b) :: s.refs ∧
      (s'.buffers b).dev = dev ∧ (s'.buffers b).block = block

theorem Frame.mild (h : Frame t s m) (h' : Mild t m s') : Frame t s s' :=
  ⟨fun u c hr => (h.kept u c hr).trans (h'.kept c),
    fun u c hu hr => h'.refs ▸ h.refs u c hu hr,
    fun u hu => (h'.pc u hu).trans (h.pc u hu)⟩

/-- A buffer of the block has been found or installed, and `bread` goes on with it. -/
theorem asked_arrives (hb : Backed m) (hf : Frame t s m) (hrefs : m.refs = (t, b) :: s.refs)
    (hkey : (m.buffers b).dev = dev ∧ (m.buffers b).block = block)
    (h : Mild t m s' ∧ Arrives t b s') :
    Backed s' ∧ Frame t s s' ∧ Asked t dev block s s' := by
  obtain ⟨hmild, harrives⟩ := h
  refine ⟨hmild.backed hb fun c k hpc => absurd hpc (harrives.no_release c k), hf.mild hmild,
    Or.inr ⟨b, harrives, hmild.refs.trans hrefs, ?_, ?_⟩⟩
  · exact (hmild.table.dev b).trans hkey.1
  · exact (hmild.table.block b).trans hkey.2

theorem getblkFound_backed (h : Backed s) (hin : InTable s b) :
    Backed (getblkFound s t b) ∧ Frame t s (getblkFound s t b) := by
  have hbuf : ∀ c, ((getblkFound s t b).buffers c).dev = (s.buffers c).dev ∧
      ((getblkFound s t b).buffers c).block = (s.buffers c).block ∧
      ((getblkFound s t b).buffers c).valid = (s.buffers c).valid ∧
      ((getblkFound s t b).buffers c).count = (s.buffers c).count + if b = c then 1 else 0 := by
    intro c
    rcases setBuf_cases s b (fun bf => { bf with count := bf.count + 1 }) c with ⟨rfl, heq⟩ | ⟨hne, heq⟩
    · have hself : (getblkFound s t c).buffers c =
          { s.buffers c with count := (s.buffers c).count + 1 } := heq
      rw [hself, if_pos rfl]
      exact ⟨rfl, rfl, rfl, rfl⟩
    · have hother : (getblkFound s t b).buffers c = s.buffers c := heq
      rw [hother, if_neg (Ne.symm hne), add_zero]
      exact ⟨rfl, rfl, rfl, rfl⟩
  refine ⟨⟨sameTable_getblkFound.placed h.placed, fun c => ?_, ?_, ?_⟩, ⟨fun u c _ => ?_, ?_, ?_⟩⟩
  · show (refsOf ((t, b) :: s.refs) c : Int) ≤ _
    rw [refsOf_cons, (hbuf c).2.2.2]
    have hcount := h.counted c
    push_cast
    exact Int.add_le_add_right hcount _
  · intro u c hr
    have hr : (u, c) ∈ (t, b) :: s.refs := hr
    rw [sameTable_getblkFound.inTable]
    rcases List.mem_cons.mp hr with heq | hr
    · obtain ⟨-, rfl⟩ := Prod.mk.inj heq
      exact hin
    · exact h.known u c hr
  · intro u c k hu
    exact List.mem_cons_of_mem _ (h.release u c k hu)
  · exact ⟨(hbuf c).1, (hbuf c).2.1, fun hv => (hbuf c).2.2.1.trans hv, sameTable_getblkFound.inTable.mpr⟩
  · exact fun _ _ _ hr => List.mem_cons_of_mem _ hr
  · exact fun _ _ => rfl

/-- What `get_free_buffer` takes is referred to by nobody, where its count is zero. -/
structure Evicted (s m : Cache σ) (b : Nat) : Prop where
  refs : m.refs = s.refs
  pc : m.pc = s.pc
  other : ∀ c, c ≠ b → m.buffers c = s.buffers c
  table : ∀ c, c ≠ b → InTable s c → InTable m c
  unused : (m.buffers b).count = 0 → refsOf s.refs b = 0

theorem hashRemove_table (he : hashRemove s b = .ok m) (hne : c ≠ b) (hc : InTable s c) :
    InTable m c := by
  obtain ⟨_, -, he⟩ := bind_eq_ok he
  obtain rfl := Except.ok.inj he
  obtain ⟨i, hc⟩ := hc
  refine ⟨i, ?_⟩
  show c ∈ Function.update s.hash_table _ _ i
  by_cases hi : i = (s.buffers b).bucket
  · subst hi
    rw [Function.update_self]
    exact (List.mem_erase_of_ne hne).mpr hc
  · rw [Function.update_of_ne hi]
    exact hc

theorem getFreeBuffer_evicted (h : Backed s)
    (he : getFreeBuffer buffer_max s = .ok (some (b, m))) : Evicted s m b := by
  rw [getFreeBuffer] at he
  split at he
  · obtain ⟨rfl, rfl⟩ := Prod.mk.inj (Option.some.inj (Except.ok.inj he))
    refine ⟨rfl, rfl, fun c hc => ?_, fun c _ hc => hc, fun _ => List.countP_eq_zero.mpr ?_⟩
    · exact Function.update_of_ne hc _ _
    · rintro ⟨u, c⟩ hr heq
      have hlt := h.placed.below c (h.known u c hr)
      have hc : c = s.buffer_count := of_decide_eq_true heq
      omega
  · split at he
    · rename_i c hlast
      obtain ⟨r, hr, he⟩ := bind_eq_ok he
      obtain ⟨rfl, rfl⟩ := Prod.mk.inj (Option.some.inj (Except.ok.inj he))
      obtain ⟨_, -, hr'⟩ := bind_eq_ok hr
      have hbuf : r.buffers = s.buffers := by rw [← Except.ok.inj hr']
      refine ⟨?_, ?_, fun d hd => ?_, fun d hd hin => ?_, fun hzero => ?_⟩
      · rw [← Except.ok.inj hr']
        rfl
      · rw [← Except.ok.inj hr']
        rfl
      · rw [setBuf_other r c _ hd, hbuf]
      · have hmoved : InTable r d := hashRemove_table hr hd hin
        exact hmoved
      · rw [setBuf_self, hbuf] at hzero
        have hcount := h.counted c
        dsimp only at hzero
        omega
    · cases Except.ok.inj he

theorem hashLocate_table {n : Cache σ} (he : hashLocate m b = .ok n) :
    n.buffers = m.buffers ∧ n.refs = m.refs ∧ n.pc = m.pc ∧ InTable n b ∧
      ∀ c, InTable m c → InTable n c := by
  obtain ⟨_, -, he⟩ := bind_eq_ok he
  obtain rfl := Except.ok.inj he
  refine ⟨rfl, rfl, rfl, ⟨(m.buffers b).bucket, ?_⟩, ?_⟩
  · show b ∈ Function.update m.hash_table _ _ (m.buffers b).bucket
    rw [Function.update_self]
    exact List.mem_cons_self
  · rintro c ⟨i, hc⟩
    refine ⟨i, ?_⟩
    show c ∈ Function.update m.hash_table _ _ i
    by_cases hi : i = (m.buffers b).bucket
    · subst hi
      rw [Function.update_self]
      exact List.mem_cons_of_mem _ hc
    · rw [Function.update_of_ne hi]
      exact hc

theorem breadFree_asked (h : Backed s)
    (he : breadFree buffer_max s t dev block = .ok s') :
    Backed s' ∧ Frame t s s' ∧ Asked t dev block s s' := by
  obtain ⟨r, hfree, he⟩ := bind_eq_ok he
  cases r with
  | none =>
      obtain rfl := Except.ok.inj he
      have hmild : Mild t s { s.setPc t (.getFree dev block) with wait_list := t :: s.wait_list } :=
        ⟨⟨rfl, rfl, fun _ => rfl, fun _ => rfl⟩, rfl, fun _ => rfl, fun _ => id,
          fun u hu => setPc_other s t _ hu⟩
      have hself : (s.setPc t (.getFree dev block)).pc t = .getFree dev block := setPc_self _ _ _
      refine ⟨hmild.backed h fun c k hc => ?_, hmild.frame, Or.inl ⟨hself, rfl⟩⟩
      cases hself.symm.trans hc
  | some r =>
      obtain ⟨b, m⟩ := r
      obtain ⟨hm, hb, hlt, -⟩ := h.placed.getFreeBuffer hfree
      have hev := getFreeBuffer_evicted h hfree
      obtain ⟨_, hzero, he⟩ := bind_eq_ok he
      obtain ⟨_, -, he⟩ := bind_eq_ok he
      obtain ⟨n, hn, he⟩ := bind_eq_ok he
      have hunused := hev.unused (of_check hzero)
      obtain ⟨hplaced, -⟩ := hm.install hb hlt hn
      obtain ⟨hbuf, hrefs, hpcs, hin, htable⟩ := hashLocate_table hn
      have hself : n.buffers b = { m.buffers b with count := 1, dev := dev, block := block } := by
        rw [hbuf, setBuf_self]
      have hother : ∀ c, c ≠ b → n.buffers c = s.buffers c := fun c hc => by
        rw [hbuf, setBuf_other m b _ hc, hev.other c hc]
      have hrefs' : n.refs = s.refs := hrefs.trans hev.refs
      have hpcs' : n.pc = s.pc := hpcs.trans hev.pc
      have hne : ∀ u c, (u, c) ∈ s.refs → c ≠ b := by
        rintro u c hr rfl
        have hpos := refsOf_pos hr
        omega
      have hmoved : ∀ c, c ≠ b → InTable s c → InTable n c := fun c hc hin => by
        obtain ⟨i, hi⟩ := hev.table c hc hin
        exact htable c ⟨i, hi⟩
      refine asked_arrives (m := { n with refs := (t, b) :: n.refs }) ⟨⟨hplaced.bucket, hplaced.nodup,
        hplaced.below⟩, fun c => ?_, fun u c hr => ?_, fun u c k hu => ?_⟩
        ⟨fun u c hr => ?_, fun u c _ hr => ?_, fun u _ => ?_⟩ ?_ ?_ (breadAt_arrives he)
      · show (refsOf ((t, b) :: n.refs) c : Int) ≤ (n.buffers c).count
        rw [refsOf_cons, hrefs']
        by_cases hc : c = b
        · subst hc
          rw [hself, hunused, if_pos rfl]
          exact Int.le_refl 1
        · rw [hother c hc, if_neg (Ne.symm hc)]
          exact h.counted c
      · have hr : (u, c) ∈ (t, b) :: n.refs := hr
        rcases List.mem_cons.mp hr with heq | hr
        · obtain ⟨-, rfl⟩ := Prod.mk.inj heq
          exact hin
        · rw [hrefs'] at hr
          exact hmoved c (hne u c hr) (h.known u c hr)
      · have hu : n.pc u = .writing c k true := hu
        rw [hpcs'] at hu
        show (u, c) ∈ (t, b) :: n.refs
        rw [hrefs']
        exact List.mem_cons_of_mem _ (h.release u c k hu)
      · have hc := hne u c hr
        refine ⟨?_, ?_, ?_, hmoved c hc⟩
        · show (n.buffers c).dev = _
          rw [hother c hc]
        · show (n.buffers c).block = _
          rw [hother c hc]
        · show _ → (n.buffers c).valid = true
          rw [hother c hc]
          exact id
      · show (u, c) ∈ (t, b) :: n.refs
        rw [hrefs']
        exact List.mem_cons_of_mem _ hr
      · exact congrFun hpcs' u
      · show (t, b) :: n.refs = (t, b) :: s.refs
        rw [hrefs']
      · show (n.buffers b).dev = dev ∧ (n.buffers b).block = block
        rw [hself]
        exact ⟨rfl, rfl⟩

/-- What `bread` does up to its first blocking point. -/
theorem bread_asked (h : Backed s) (he : bread buffer_max s t dev block = .ok s') :
    Backed s' ∧ Frame t s s' ∧ Asked t dev block s s' := by
  rw [bread] at he
  cases hf : hashSearch s dev block with
  | none =>
      rw [hf] at he
      exact breadFree_asked h he
  | some b =>
      rw [hf] at he
      have hfound := List.find?_some hf
      obtain ⟨hd, hk⟩ := of_decide_eq_true hfound
      obtain ⟨hb, hframe⟩ := getblkFound_backed (t := t) h
        ⟨_, List.mem_of_find?_eq_some hf⟩
      exact asked_arrives hb hframe rfl
        ⟨(sameTable_getblkFound.dev b).trans hd, (sameTable_getblkFound.block b).trans hk⟩
        (breadAt_arrives he)

/-! ## Giving back and writing -/

theorem putBuffer_backed (h : Backed s) (href : (t, b) ∈ s.refs)
    (he : putBuffer s t b = .ok s') :
    Backed s' ∧ Frame t s s' ∧ s'.pc t = .user ∧ s'.refs = s.refs.erase (t, b) := by
  have htable := sameTable_putBuffer he
  obtain ⟨_, -, he⟩ := bind_eq_ok he
  have hstored : s'.buffers = (s.setBuf b fun bf => { bf with count := bf.count - 1 }).buffers ∧
      s'.refs = s.refs.erase (t, b) ∧ s'.pc = Function.update s.pc t .user := by
    dsimp only at he
    split at he
    · rw [← Except.ok.inj he]
      exact ⟨rfl, rfl, rfl⟩
    · obtain ⟨_, -, he⟩ := bind_eq_ok he
      rw [← Except.ok.inj he]
      exact ⟨rfl, rfl, rfl⟩
  obtain ⟨hbuf, hrefs, hpc⟩ := hstored
  have hself : s'.pc t = .user := by
    rw [hpc, Function.update_self]
  have hother : ∀ u, u ≠ t → s'.pc u = s.pc u := fun u hu => by
    rw [hpc, Function.update_of_ne hu]
  have hmem : ∀ u c, u ≠ t → (u, c) ∈ s.refs → (u, c) ∈ s'.refs := fun u c hu hr => by
    rw [hrefs]
    exact (List.mem_erase_of_ne fun heq => hu (Prod.mk.inj heq).1).mpr hr
  refine ⟨⟨htable.placed h.placed, fun c => ?_, fun u c hr => ?_, fun u c k hu => ?_⟩,
    ⟨fun u c _ => ⟨htable.dev c, htable.block c, ?_, htable.inTable.mpr⟩, hmem, hother⟩, hself, hrefs⟩
  · have hcount := h.counted c
    have herase := refsOf_erase (b := c) href
    rw [hrefs, hbuf]
    rcases setBuf_cases s b (fun bf => { bf with count := bf.count - 1 }) c with ⟨rfl, heq⟩ | ⟨hne, heq⟩
    · rw [heq]
      rw [if_pos rfl] at herase
      dsimp only
      omega
    · rw [heq]
      rw [if_neg (Ne.symm hne)] at herase
      omega
  · rw [hrefs] at hr
    exact htable.inTable.mpr (h.known u c (List.mem_of_mem_erase hr))
  · by_cases hut : u = t
    · subst hut
      cases hself.symm.trans hu
    · rw [hother u hut] at hu
      exact hmem u c hut (h.release u c k hu)
  · rw [hbuf]
    rcases setBuf_cases s b (fun bf => { bf with count := bf.count - 1 }) c with ⟨rfl, heq⟩ | ⟨-, heq⟩
    · rw [heq]
      exact id
    · rw [heq]
      exact id

/-- Where `bwrite` leaves a task: in its request, or back with a clean buffer. -/
def Writes (t b : Nat) (s : Cache σ) : Prop :=
  s.pc t = .user ∧ (s.buffers b).dirty = false ∨ ∃ k, s.pc t = .writing b k false

theorem Writes.no_release (h : Writes t b s) (c k : Nat) : s.pc t ≠ .writing c k true := by
  intro hpc
  rcases h with ⟨huser, -⟩ | ⟨j, hj⟩
  · cases huser.symm.trans hpc
  · cases hj.symm.trans hpc

theorem Writes.clean (h : Writes t b s) (hpc : s.pc t = .user) : (s.buffers b).dirty = false := by
  rcases h with ⟨-, hclean⟩ | ⟨k, hk⟩
  · exact hclean
  · cases hpc.symm.trans hk

theorem Writes.busy (h : Writes t b s) (hpc : s.pc t ≠ .user) : ∃ k, s.pc t = .writing b k false := by
  rcases h with ⟨huser, -⟩ | hbusy
  · exact absurd huser hpc
  · exact hbusy

theorem bwrite_writes (hpc : s.pc t = .user) : Mild t s (bwrite s t b) ∧ Writes t b (bwrite s t b) := by
  rw [bwrite]
  by_cases hd : (s.buffers b).dirty = true
  · rw [if_pos hd]
    exact ⟨mild_setPc s t _, Or.inr ⟨0, setPc_self _ _ _⟩⟩
  · rw [if_neg hd]
    exact ⟨.refl t s, Or.inl ⟨hpc, eq_false_of_ne_true hd⟩⟩

theorem mild_writeSector (s : Cache σ) (t b : Nat) (k : Fin BLOCK_SECS) (p : Pc) :
    Mild t s ((writeSector s b k).setPc t p) :=
  ⟨⟨rfl, rfl, fun _ => rfl, fun _ => rfl⟩, rfl, fun _ => rfl, fun _ => id,
    fun _ hu => setPc_other (writeSector s b k) t p hu⟩

theorem mild_written (s : Cache σ) (t b : Nat) :
    Mild t s ((s.setBuf b fun bf => { bf with dirty := false, valid := true }).setPc t .user) :=
  (mild_setBuf s b (by exact fun _ => ⟨rfl, rfl, rfl, fun _ => rfl⟩)).trans (mild_setPc _ t .user)

/-- A turn of a `bwrite` that nobody waits for to release the buffer. -/
theorem writeTurn_writes {k : Nat} (he : writeTurn s t b k false = .ok s') :
    Mild t s s' ∧ Writes t b s' := by
  rw [writeTurn] at he
  split at he
  · rw [← Except.ok.inj he]
    exact ⟨mild_writeSector s t b _ _, Or.inr ⟨k + 1, setPc_self _ _ _⟩⟩
  · rw [← Except.ok.inj he]
    refine ⟨mild_written s t b, Or.inl ⟨setPc_self _ _ _, ?_⟩⟩
    rw [setPc_buffers, setBuf_self]

theorem writeTurn_backed {k : Nat} {release : Bool} (h : Backed s)
    (hpc : s.pc t = .writing b k release) (he : writeTurn s t b k release = .ok s') :
    Backed s' ∧ Frame t s s' := by
  cases release with
  | false =>
      obtain ⟨hmild, hwrites⟩ := writeTurn_writes he
      exact ⟨hmild.backed h fun c j hc => absurd hc (hwrites.no_release c j), hmild.frame⟩
  | true =>
      have href := h.release t b k hpc
      rw [writeTurn] at he
      split at he
      · rename_i hk
        rw [← Except.ok.inj he]
        have hmild := mild_writeSector s t b ⟨k, hk⟩ (.writing b (k + 1) true)
        refine ⟨hmild.backed h fun c j hc => ?_, hmild.frame⟩
        rw [setPc_self] at hc
        cases hc
        exact href
      · have hmild := mild_written s t b
        have hback := hmild.backed h fun c j hc => by
          rw [setPc_self] at hc
          cases hc
        obtain ⟨hb, hframe, -⟩ := putBuffer_backed hback (hmild.refs ▸ href) he
        refine ⟨hb, ⟨fun u c hr => ?_, fun u c hu hr => ?_, fun u hu => ?_⟩⟩
        · exact (hmild.kept c).trans (hframe.kept u c (hmild.refs ▸ hr))
        · exact hframe.refs u c hu (hmild.refs ▸ hr)
        · exact (hframe.pc u hu).trans (hmild.pc u hu)

theorem brelse_backed (h : Backed s) (href : (t, b) ∈ s.refs) (he : brelse s t b = .ok s') :
    Backed s' ∧ Frame t s s' := by
  rw [brelse] at he
  split at he
  · rw [← Except.ok.inj he]
    have hmild := mild_setPc s t (.writing b 0 true)
    refine ⟨hmild.backed h fun c j hc => ?_, hmild.frame⟩
    rw [setPc_self] at hc
    cases hc
    exact href
  · obtain ⟨hb, hframe, -⟩ := putBuffer_backed h href he
    exact ⟨hb, hframe⟩

/-- Data is no concern of the references. -/
theorem mild_modifyData (s : Cache σ) (t b : Nat) (data : Data σ) : Mild t s (modifyData s b data) :=
  mild_setBuf s b (by exact fun _ => ⟨rfl, rfl, rfl, id⟩)

/-- The task an event is a step of. -/
def taskOf : Event σ → Nat
  | .bread t _ _ | .modify t _ _ | .bwrite t _ | .brelse t _ | .resume t => t

theorem resume_backed (h : Backed s) (he : exec buffer_max s (.resume t) = .ok s') :
    Backed s' ∧ Frame t s s' := by
  have hfetch : ∀ b, Fetches (s.pc t) b → Backed s' ∧ Frame t s s' := fun b hf => by
    obtain ⟨hmild, harrives⟩ := resume_fetch hf he
    exact ⟨hmild.backed h fun c k hc => absurd hc (harrives.no_release c k), hmild.frame⟩
  cases hpc : s.pc t with
  | user =>
      simp only [exec, hpc] at he
      obtain rfl := Except.ok.inj he
      exact ⟨h, (Mild.refl t s).frame⟩
  | getFree dev block =>
      simp only [exec, hpc] at he
      obtain ⟨hb, hframe, -⟩ := breadFree_asked h he
      exact ⟨hb, hframe⟩
  | lockWait b => exact hfetch b (by rw [hpc]; rfl)
  | reading b k => exact hfetch b (by rw [hpc]; rfl)
  | unlocked b => exact hfetch b (by rw [hpc]; rfl)
  | writing b k release =>
      simp only [exec, hpc] at he
      exact writeTurn_backed h hpc he

/-- **REFERENCES HOLD**: every step of the cache keeps each reference counted and leaves the
    buffers that are referred to, and the references of other tasks, alone. -/
theorem Backed.step {e : Event σ} (h : Backed s) (henabled : Enabled s e)
    (he : exec buffer_max s e = .ok s') : Backed s' ∧ Frame (taskOf e) s s' := by
  cases e with
  | bread t dev block =>
      obtain ⟨hb, hframe, -⟩ := bread_asked h he
      exact ⟨hb, hframe⟩
  | modify t b data =>
      obtain rfl := Except.ok.inj he
      have hmild := mild_modifyData s t b data
      exact ⟨hmild.backed h fun c k hc => h.release t c k hc, hmild.frame⟩
  | bwrite t b =>
      obtain rfl := Except.ok.inj he
      obtain ⟨hmild, hwrites⟩ := bwrite_writes (b := b) henabled.1
      exact ⟨hmild.backed h fun c k hc => absurd hc (hwrites.no_release c k), hmild.frame⟩
  | brelse t b => exact brelse_backed h henabled.2 he
  | resume t => exact resume_backed h he

theorem backed_init (h : Init s) : Backed s := by
  refine ⟨(placed_init h).1, fun b => ?_, fun t b hr => ?_, fun t b k hpc => ?_⟩
  · rw [h.refs, (h.buffers b).2]
    exact Int.le_refl 0
  · rw [h.refs] at hr
    cases hr
  · cases (h.pc t).symm.trans hpc

/-- **A REFERENCE PINS ITS BUFFER**: from any state the cache reaches, races included, whatever
    the other tasks do, a buffer a task refers to stays referred to, keeps its block and its
    place in the table, and stays valid. -/
theorem reference_pins (h : Reach (system σ buffer_max) free s) (href : (u, b) ∈ s.refs)
    {es : List (Event σ)} (hrun : Run (system σ buffer_max) (fun _ e => taskOf e ≠ u) s es s') :
    (u, b) ∈ s'.refs ∧ Kept s s' b := by
  have hback : Backed s := h.invariant (fun _ => backed_init)
    fun _ _ _ hs _ hst => (hs.step hst.1 hst.2).1
  have hstep : ∀ (m : Cache σ) (e : Event σ) (n : Cache σ),
      Backed m ∧ (u, b) ∈ m.refs ∧ Kept s m b → taskOf e ≠ u → (system σ buffer_max).step m e n →
      Backed n ∧ (u, b) ∈ n.refs ∧ Kept s n b := by
    rintro m e n ⟨hm, hr, hk⟩ hne hst
    obtain ⟨hn, hframe⟩ := hm.step hst.1 hst.2
    exact ⟨hn, hframe.refs u b (Ne.symm hne) hr, hk.trans (hframe.kept u b hr)⟩
  exact (hrun.preserves hstep ⟨hback, href, .refl s b⟩).2

/-- Task 1 holds a buffer while task 2 evicts the only other one. -/
theorem reference_pins_evicted : ∃ s s' : Cache Nat, (1, 0) ∈ s.refs ∧
    (s'.buffers 1).block = 7 ∧ (1, 0) ∈ s'.refs ∧ Kept s s' 0 := by
  have hrun : (follow free Enabled (exec 2) emptyCache
      [.bread 1 0 5, .resume 1, .resume 1, .resume 1, .bread 2 0 6, .resume 2, .resume 2,
        .resume 2, .brelse 2 1]).bind (fun s => (exec 2 s (.bread 2 0 7)).toOption.map fun s' =>
          (s.refs, s.pc 2, (s'.buffers 1).block)) = some ([(1, 0)], .user, 7) := by
    decide
  obtain ⟨s, hs, hrun⟩ := Option.bind_eq_some_iff.mp hrun
  obtain ⟨s', hs', hobs⟩ := Option.map_eq_some_iff.mp hrun
  simp only [Prod.mk.injEq] at hobs
  obtain ⟨hrefs, hpc, hblock⟩ := hobs
  have hmem : (1, 0) ∈ s.refs := by
    rw [hrefs]
    exact List.mem_cons_self
  have hexec : exec 2 s (.bread 2 0 7) = .ok s' := by
    cases he : exec 2 s (.bread 2 0 7) with
    | error _ =>
        rw [he] at hs'
        cases hs'
    | ok m =>
        rw [he] at hs'
        rw [Option.some.inj hs']
  have hstep : Run (system Nat 2) (fun _ e => taskOf e ≠ 1) s ([] ++ [.bread 2 0 7]) s' :=
    (Run.nil s).snoc (by decide) ⟨hpc, hexec⟩
  have hpins := reference_pins (Reach.follow _ (.start emptyCache_init) hs) hmem hstep
  exact ⟨s, s', hmem, hblock, hpins⟩

end NeonixBufferRefs
