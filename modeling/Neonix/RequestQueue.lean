import Neonix.Requests

/-! # No request is lost, none run at once

    The list of a device has one active request, the one whose task executes it
    or has been made ready; the tasks of the others are blocked.  A task that
    finishes its request hands the device on to a neighbour of it on the list,
    and the turn of the direction at both ends makes sure there is one unless
    the list is used up.

    `QueueInv` ties the lists, the requests, and where the tasks stand; the
    three kinds of steps (a request arrives, a task takes its turn, a request is
    finished) keep it. -/

namespace NeonixRequestQueue

open NeonixMachine NeonixLinkedList NeonixRequests NeonixRuns

variable {s s' : Disks} {t r : Nat} {d : Int}

/-- The request list of a device. -/
def queue (s : Disks) (d : Int) : List Nat := (s.devices d).request_list

/-- The request a task stands at. -/
def At : Pc → Nat → Prop
  | .user, _ => False
  | .waiting r', r | .executing r', r => r' = r

/-- A request whose task executes it or has been made ready for it. -/
def Active (s : Disks) (r : Nat) : Prop :=
  ∃ t, s.pc t = .executing r ∨ s.pc t = .waiting r ∧ s.blocked t = false

/-- A request whose task is blocked on it. -/
def Waiting (s : Disks) (r : Nat) : Prop := ∃ t, s.pc t = .waiting r ∧ s.blocked t = true

structure QueueInv (s : Disks) : Prop where
  fresh : ∀ r, s.allocated ≤ r → s.requests r = none
  listed : ∀ d r, r ∈ queue s d → ∃ q, s.requests r = some q ∧ q.dev = d
  nodup : ∀ d, (queue s d).Nodup
  sorted : ∀ d, (queue s d).Pairwise fun a b => requestKey s a ≤ requestKey s b
  low : ∀ r q, s.requests r = some q → q.idx.toNat < 2 ^ 31
  stands : ∀ t r, At (s.pc t) r → ∃ q, s.requests r = some q ∧ r ∈ queue s q.dev
  waits : ∀ t r, s.pc t = .waiting r → ∃ q, s.requests r = some q ∧ q.task = some t
  owner : ∀ r q, s.requests r = some q → ∃ t, At (s.pc t) r
  single : ∀ t t' r, At (s.pc t) r → At (s.pc t') r → t = t'
  blocked : ∀ t, s.blocked t = true → ∃ r, s.pc t = .waiting r
  active : ∀ d, queue s d ≠ [] → ∃ r ∈ queue s d, Active s r ∧
    ∀ r' ∈ queue s d, Active s r' → r' = r
  waitingNot : ∀ r, (∃ t, s.pc t = .waiting r) → s.executed.count r = 0
  unissued : ∀ r, s.allocated ≤ r → s.executed.count r = 0
  once : ∀ r, r < s.allocated → (∀ t, s.pc t ≠ .waiting r) → s.executed.count r = 1

/-- A request on a list is active or its task is blocked. -/
theorem QueueInv.cases (h : QueueInv s) (hr : r ∈ queue s d) : Active s r ∨ Waiting s r := by
  obtain ⟨q, hq, -⟩ := h.listed d r hr
  obtain ⟨t, ht⟩ := h.owner r q hq
  cases hpc : s.pc t with
  | user =>
      rw [hpc] at ht
      exact ht.elim
  | executing r' =>
      rw [hpc] at ht
      obtain rfl : r' = r := ht
      exact Or.inl ⟨t, Or.inl hpc⟩
  | waiting r' =>
      rw [hpc] at ht
      obtain rfl : r' = r := ht
      cases hb : s.blocked t with
      | false => exact Or.inl ⟨t, Or.inr ⟨hpc, hb⟩⟩
      | true => exact Or.inr ⟨t, hpc, hb⟩

theorem at_waiting {p : Pc} (h : p = .waiting r) : At p r := by
  rw [h]
  exact rfl

theorem at_executing {p : Pc} (h : p = .executing r) : At p r := by
  rw [h]
  exact rfl

/-- A request is not both. -/
theorem QueueInv.not_both (h : QueueInv s) (ha : Active s r) : ¬ Waiting s r := by
  rintro ⟨t, hpc, hb⟩
  obtain ⟨t', he | ⟨hw, hb'⟩⟩ := ha
  · have heq := h.single t t' r (at_waiting hpc) (at_executing he)
    rw [← heq, hpc] at he
    cases he
  · have heq := h.single t t' r (at_waiting hpc) (at_waiting hw)
    rw [← heq, hb] at hb'
    cases hb'

/-! ## The hand-off -/

/-- `request_nextreq` returns a neighbour, and `NULL` where there is none. -/
theorem requestNextreq_cases (device : Device) (r : Nat) :
    (next r device.request_list = none ∧ prev r device.request_list = none ∧
        (requestNextreq device r).1 = none) ∨
      ∃ n, (requestNextreq device r).1 = some n ∧
        (next r device.request_list = some n ∨ prev r device.request_list = some n) := by
  cases hn : next r device.request_list with
  | none =>
      cases hp : prev r device.request_list with
      | none =>
          refine Or.inl ⟨rfl, rfl, ?_⟩
          cases hd : device.direct <;> simp [requestNextreq, hn, hp, hd]
      | some p =>
          refine Or.inr ⟨p, ?_, Or.inr rfl⟩
          cases hd : device.direct <;> simp [requestNextreq, hn, hp, hd]
  | some n =>
      cases hp : prev r device.request_list with
      | none =>
          refine Or.inr ⟨n, ?_, Or.inl rfl⟩
          cases hd : device.direct <;> simp [requestNextreq, hn, hp, hd]
      | some p =>
          cases hd : device.direct with
          | up => exact Or.inr ⟨n, by simp [requestNextreq, hn, hd], Or.inl rfl⟩
          | down => exact Or.inr ⟨p, by simp [requestNextreq, hp, hd], Or.inr rfl⟩

/-- `request_nextreq` returns another request of the list. -/
theorem requestNextreq_some {device : Device} {n : Nat} (hl : device.request_list.Nodup)
    (h : (requestNextreq device r).1 = some n) : n ∈ device.request_list ∧ n ≠ r := by
  rcases requestNextreq_cases device r with ⟨-, -, hnone⟩ | ⟨m, hm, hnext | hprev⟩
  · rw [hnone] at h
    cases h
  · obtain rfl : m = n := Option.some.inj (hm.symm.trans h)
    exact ⟨next_mem hnext, next_ne hl hnext⟩
  · obtain rfl : m = n := Option.some.inj (hm.symm.trans h)
    exact ⟨prev_mem hprev, prev_ne hl hprev⟩

/-- `request_nextreq` returns `NULL` exactly for the only request. -/
theorem requestNextreq_none {device : Device} (hr : r ∈ device.request_list)
    (hl : device.request_list.Nodup) :
    (requestNextreq device r).1 = none ↔ device.request_list = [r] := by
  constructor
  · intro h
    rcases requestNextreq_cases device r with ⟨hn, hp, -⟩ | ⟨m, hm, -⟩
    · exact eq_singleton hr hn hp
    · rw [h] at hm
      cases hm
  · intro h
    cases hn : (requestNextreq device r).1 with
    | none => rfl
    | some n =>
        obtain ⟨hmem, hne⟩ := requestNextreq_some hl hn
        rw [h] at hmem
        exact absurd (List.mem_singleton.mp hmem) hne

/-! ## A request arrives -/

/-- The state once a request has been made and its task has moved. -/
structure Arrived (s s' : Disks) (t : Nat) (root : Int) (q : Request) (p : Pc) : Prop where
  requests : s'.requests = Function.update s.requests s.allocated (some q)
  allocated : s'.allocated = s.allocated + 1
  lists : ∀ d, queue s' d =
    if d = root then insertSort (requestKey s') s.allocated (queue s root) else queue s d
  pc : s'.pc = Function.update s.pc t p

/-- The task of the new request stands at it. -/
def Placed (s s' : Disks) (t : Nat) (root : Int) (q : Request) (p : Pc) : Prop :=
  (p = .executing s.allocated ∧ queue s root = [] ∧ s'.blocked = s.blocked ∧
    s'.executed = s.allocated :: s.executed) ∨
  (p = .waiting s.allocated ∧ queue s root ≠ [] ∧ s'.blocked = Function.update s.blocked t true ∧
    s'.executed = s.executed ∧ q.task = some t)

variable {root : Int} {q : Request} {p : Pc}

/-- A request that was there keeps its key. -/
theorem Arrived.key (ha : Arrived s s' t root q p) (h : QueueInv s) {a : Nat} (hq : a ∈ queue s d) :
    requestKey s' a = requestKey s a := by
  obtain ⟨qa, hqa, -⟩ := h.listed d a hq
  have hne : a ≠ s.allocated := by
    rintro rfl
    rw [h.fresh _ (Nat.le_refl _)] at hqa
    cases hqa
  rw [requestKey, requestKey, ha.requests, Function.update_of_ne hne]

theorem QueueInv.arrive (h : QueueInv s) (hpc : s.pc t = .user) (ha : Arrived s s' t root q p)
    (hp : Placed s s' t root q p) (hd : q.dev = root) (hlow : q.idx.toNat < 2 ^ 31) :
    QueueInv s' := by
  generalize hnew : s.allocated = new at *
  have hfresh : ∀ r, new ≤ r → s.requests r = none := hnew ▸ h.fresh
  -- the new request is on no list and no task stands at it
  have hold : ∀ {r q}, s.requests r = some q → r ≠ new := by
    rintro r q hr rfl
    rw [hfresh r (Nat.le_refl r)] at hr
    cases hr
  have hqold : ∀ {d r}, r ∈ queue s d → r ≠ new := by
    intro d r hr
    obtain ⟨q, hq, -⟩ := h.listed d r hr
    exact hold hq
  have hreq : ∀ {r}, r ≠ new → s'.requests r = s.requests r := by
    intro r hne
    rw [ha.requests, hnew, Function.update_of_ne hne]
  have hself : s'.requests new = some q := by
    rw [ha.requests, hnew, Function.update_self]
  have hmem : ∀ d r, r ∈ queue s' d ↔ r ∈ queue s d ∨ r = new ∧ d = root := by
    intro d r
    rw [ha.lists]
    by_cases hdr : d = root
    · rw [if_pos hdr, mem_insertSort, hdr, hnew, or_comm]
      simp
    · rw [if_neg hdr]
      simp [hdr]
  have hpcself : s'.pc t = p := by rw [ha.pc, Function.update_self]
  have hpcother : ∀ {t'}, t' ≠ t → s'.pc t' = s.pc t' := by
    intro t' ht
    rw [ha.pc, Function.update_of_ne ht]
  have hpat : ∀ r, At p r ↔ r = new := by
    intro r
    rcases hp with ⟨rfl, -⟩ | ⟨rfl, -⟩
    · rw [hnew]
      exact eq_comm
    · rw [hnew]
      exact eq_comm
  have hatold : ∀ {t' r}, At (s.pc t') r → t' ≠ t ∧ r ≠ new := by
    intro t' r hat
    refine ⟨?_, ?_⟩
    · rintro rfl
      rw [hpc] at hat
      exact hat
    · obtain ⟨q, hq, -⟩ := h.stands t' r hat
      exact hold hq
  have hblocked : ∀ {t'}, t' ≠ t → s'.blocked t' = s.blocked t' := by
    intro t' ht
    rcases hp with ⟨-, -, hb, -⟩ | ⟨-, -, hb, -⟩
    · rw [hb]
    · rw [hb, Function.update_of_ne ht]
  have hactive : ∀ {r}, r ≠ new → (Active s' r ↔ Active s r) := by
    intro r hr
    constructor
    · rintro ⟨t', ht'⟩
      have ht : t' ≠ t := by
        rintro rfl
        rw [hpcself] at ht'
        have hat : At p r := ht'.elim at_executing fun hw => at_waiting hw.1
        exact hr ((hpat r).mp hat)
      rw [hpcother ht, hblocked ht] at ht'
      exact ⟨t', ht'⟩
    · rintro ⟨t', ht'⟩
      have ht : t' ≠ t := (hatold (ht'.elim at_executing fun hw => at_waiting hw.1)).1
      rw [← hpcother ht, ← hblocked ht] at ht'
      exact ⟨t', ht'⟩
  have hcount : ∀ r, r ≠ new → s'.executed.count r = s.executed.count r := by
    intro r hr
    rcases hp with ⟨-, -, -, he⟩ | ⟨-, -, -, he, -⟩
    · rw [he, hnew, List.count_cons_of_ne (Ne.symm hr)]
    · rw [he]
  have hwaiting : ∀ {t' r}, s'.pc t' = .waiting r → r ≠ new → s.pc t' = .waiting r := by
    intro t' r hw hr
    have ht : t' ≠ t := by
      rintro rfl
      rw [hpcself] at hw
      exact hr ((hpat r).mp (at_waiting hw))
    rw [← hpcother ht]
    exact hw
  constructor
  · intro r hr
    rw [ha.allocated, hnew] at hr
    rw [hreq (by omega)]
    exact hfresh r (by omega)
  · intro d r hr
    rcases (hmem d r).mp hr with hr | ⟨rfl, rfl⟩
    · rw [hreq (hqold hr)]
      exact h.listed d r hr
    · exact ⟨q, hself, hd⟩
  · intro d
    rw [ha.lists]
    by_cases hdr : d = root
    · rw [if_pos hdr]
      refine nodup_insertSort (h.nodup root) ?_
      rw [hnew]
      exact fun hc => hqold hc rfl
    · rw [if_neg hdr]
      exact h.nodup d
  · intro d
    have hkept : ∀ d, (queue s d).Pairwise fun a b => requestKey s' a ≤ requestKey s' b := by
      intro d
      refine (h.sorted d).imp_of_mem ?_
      intro a b hma hmb hab
      rw [ha.key h hma, ha.key h hmb]
      exact hab
    rw [ha.lists]
    by_cases hdr : d = root
    · rw [if_pos hdr]
      exact sorted_insertSort (hkept root)
    · rw [if_neg hdr]
      exact hkept d
  · intro r q' hq'
    by_cases hr : r = new
    · rw [hr, hself] at hq'
      rw [← Option.some.inj hq']
      exact hlow
    · rw [hreq hr] at hq'
      exact h.low r q' hq'
  · intro t' r hat
    by_cases ht : t' = t
    · rw [ht, hpcself, hpat] at hat
      rw [hat]
      exact ⟨q, hself, (hmem _ _).mpr (Or.inr ⟨rfl, hd⟩)⟩
    · rw [hpcother ht] at hat
      obtain ⟨q', hq', hin⟩ := h.stands t' r hat
      exact ⟨q', (hreq (hold hq')).trans hq', (hmem _ _).mpr (Or.inl hin)⟩
  · intro t' r hw
    by_cases hr : r = new
    · subst hr
      have ht : t' = t := by
        by_contra ht
        rw [hpcother ht] at hw
        exact (hatold (at_waiting hw)).2 rfl
      rw [ht, hpcself] at hw
      rw [ht]
      rcases hp with ⟨he, -⟩ | ⟨-, -, -, -, htask⟩
      · rw [he] at hw
        cases hw
      · exact ⟨q, hself, htask⟩
    · obtain ⟨q', hq', htask⟩ := h.waits t' r (hwaiting hw hr)
      exact ⟨q', (hreq hr).trans hq', htask⟩
  · intro r q' hq'
    by_cases hr : r = new
    · refine ⟨t, ?_⟩
      rw [hpcself, hpat]
      exact hr
    · rw [hreq hr] at hq'
      obtain ⟨t', hat⟩ := h.owner r q' hq'
      refine ⟨t', ?_⟩
      rw [hpcother (hatold hat).1]
      exact hat
  · intro t₁ t₂ r h₁ h₂
    by_cases e₁ : t₁ = t
    · by_cases e₂ : t₂ = t
      · rw [e₁, e₂]
      · rw [e₁, hpcself, hpat] at h₁
        rw [hpcother e₂] at h₂
        exact absurd h₁ (hatold h₂).2
    · rw [hpcother e₁] at h₁
      by_cases e₂ : t₂ = t
      · rw [e₂, hpcself, hpat] at h₂
        exact absurd h₂ (hatold h₁).2
      · rw [hpcother e₂] at h₂
        exact h.single t₁ t₂ r h₁ h₂
  · intro t' hb
    by_cases ht : t' = t
    · rcases hp with ⟨-, -, hsame, -⟩ | ⟨hw, -⟩
      · rw [ht, hsame] at hb
        obtain ⟨r, hr⟩ := h.blocked t hb
        rw [hpc] at hr
        cases hr
      · exact ⟨_, by rw [ht, hpcself]; exact hw⟩
    · rw [hblocked ht] at hb
      rw [hpcother ht]
      exact h.blocked t' hb
  · intro d hne
    by_cases hempty : queue s d = []
    · -- the list was empty: the new request is the only one, and is executed
      obtain ⟨r, hr⟩ := List.exists_mem_of_ne_nil _ hne
      have honly : ∀ r ∈ queue s' d, r = new ∧ d = root := by
        intro r hr
        rcases (hmem d r).mp hr with hr | hr
        · rw [hempty] at hr
          cases hr
        · exact hr
      obtain ⟨rfl, rfl⟩ := honly r hr
      rcases hp with ⟨he, -⟩ | ⟨-, hc, -⟩
      · refine ⟨r, hr, ⟨t, Or.inl ?_⟩, fun r' hr' _ => (honly r' hr').1⟩
        rw [hpcself, he, hnew]
      · exact absurd hempty hc
    · obtain ⟨r, hr, hact, huniq⟩ := h.active d hempty
      refine ⟨r, (hmem d r).mpr (Or.inl hr), (hactive (hqold hr)).mpr hact, ?_⟩
      intro r' hr' hact'
      rcases (hmem d r').mp hr' with hr' | ⟨rfl, rfl⟩
      · exact huniq r' hr' ((hactive (hqold hr')).mp hact')
      · -- the new request waits
        obtain ⟨t', ht'⟩ := hact'
        have ht : t' = t := by
          by_contra ht
          rw [hpcother ht] at ht'
          exact (hatold (ht'.elim at_executing fun hw => at_waiting hw.1)).2 rfl
        rw [ht, hpcself] at ht'
        rcases hp with ⟨-, hc, -⟩ | ⟨hw, -, hb, -⟩
        · exact absurd hc hempty
        · rw [hw, hb, Function.update_self] at ht'
          rcases ht' with he | ⟨-, hf⟩
          · cases he
          · cases hf
  · rintro r ⟨t', hw⟩
    by_cases hr : r = new
    · rcases hp with ⟨he, -⟩ | ⟨-, -, -, he, -⟩
      · have ht : t' = t := by
          by_contra ht
          rw [hpcother ht] at hw
          exact (hatold (at_waiting hw)).2 hr
        rw [ht, hpcself, he] at hw
        cases hw
      · rw [he]
        exact h.unissued r (by omega)
    · rw [hcount r hr]
      exact h.waitingNot r ⟨t', hwaiting hw hr⟩
  · intro r hr
    rw [ha.allocated, hnew] at hr
    rw [hcount r (by omega)]
    exact h.unissued r (by omega)
  · intro r hr hnw
    by_cases heq : r = new
    · rcases hp with ⟨-, -, -, he⟩ | ⟨hw, -⟩
      · rw [he, hnew, heq, List.count_cons_self, ← hnew, h.unissued _ (Nat.le_refl _)]
      · refine absurd ?_ (hnw t)
        rw [hpcself, hw, hnew, heq]
    · rw [hcount r heq]
      rw [ha.allocated, hnew] at hr
      refine h.once r (by omega) fun t' hw => hnw t' ?_
      rw [hpcother (hatold (at_waiting hw)).1]
      exact hw

theorem queue_setDevice (s : Disks) (dev : Int) (device : Device) (d : Int) :
    queue (s.setDevice dev device) d = if d = dev then device.request_list else queue s d := by
  show (Function.update s.devices dev device d).request_list = _
  by_cases hd : d = dev
  · rw [if_pos hd, hd, Function.update_self]
  · rw [if_neg hd, Function.update_of_ne hd]
    rfl

/-- What `device_request` does before its first blocking point. -/
theorem deviceRequest_arrived {dev : Int} {buf : Nat} {count : BitVec 8} {idx : BitVec 32}
    {flags : Int} {type : ReqType}
    (he : deviceRequest s t dev buf count idx flags type = .ok s') :
    ∃ root q p, Arrived s s' t root q p ∧ Placed s s' t root q p ∧ q.dev = root ∧
      q.idx = idx + sectorStart (s.devices dev) := by
  obtain ⟨device, hdev, he⟩ := bind_eq_ok he
  have hdevice : device = s.devices dev := by
    obtain ⟨_, -, hdev⟩ := bind_eq_ok hdev
    split at hdev
    · cases hdev
    · obtain ⟨_, -, hdev⟩ := bind_eq_ok hdev
      exact (Except.ok.inj hdev).symm
  subst hdevice
  generalize hm : s.setDevice dev { s.devices dev with type := .block } = m at he
  have hqueue : ∀ d, queue m d = queue s d := by
    intro d
    rw [← hm, queue_setDevice]
    by_cases hd : d = dev
    · rw [if_pos hd, hd]
      rfl
    · rw [if_neg hd]
  have hreq : m.requests = s.requests := by rw [← hm]; rfl
  have halloc : m.allocated = s.allocated := by rw [← hm]; rfl
  have hpc : m.pc = s.pc := by rw [← hm]; rfl
  have hblocked : m.blocked = s.blocked := by rw [← hm]; rfl
  have hexec : m.executed = s.executed := by rw [← hm]; rfl
  obtain ⟨root, -, he⟩ := bind_eq_ok he
  dsimp only at he
  generalize hq : ({ dev := root, type := type, idx := idx + sectorStart (s.devices dev)
                     count := count, flags := flags, buf := buf
                     task := if (m.devices root).request_list = [] then none else some t } :
    Request) = q at he
  have hqdev : q.dev = root := by rw [← hq]
  have hqidx : q.idx = idx + sectorStart (s.devices dev) := by rw [← hq]
  generalize hn : enqueue m root q = n at he
  -- the list of the device has grown by the new request
  have hnreq : n.requests = Function.update s.requests s.allocated (some q) := by
    rw [← hn, ← hreq, ← halloc]
    rfl
  have hkey : requestKey n = requestKey { m with
      requests := Function.update m.requests m.allocated (some q), allocated := m.allocated + 1 } := by
    funext a
    rw [requestKey, requestKey, hnreq, hreq, halloc]
  have hnlists : ∀ d, queue n d =
      if d = root then insertSort (requestKey n) s.allocated (queue s root) else queue s d := by
    intro d
    rw [hkey, ← hn, enqueue, queue_setDevice, ← halloc, ← hqueue, ← hqueue]
    rfl
  have hempty : (m.devices root).request_list = [] ↔ queue s root = [] := by
    rw [← hqueue]
    rfl
  refine ⟨root, q, ?_⟩
  by_cases hnil : (m.devices root).request_list = []
  · rw [if_pos hnil] at he
    have hs' := Except.ok.inj he
    refine ⟨.executing s.allocated, ⟨?_, ?_, ?_, ?_⟩, Or.inl ⟨rfl, hempty.mp hnil, ?_, ?_⟩, hqdev,
      hqidx⟩
    · rw [← hs']
      exact hnreq
    · rw [← hs', ← halloc, ← hn]
      rfl
    · rw [← hs']
      exact hnlists
    · rw [← hs', ← halloc, ← hpc, ← hn]
      rfl
    · rw [← hs', ← hblocked, ← hn]
      rfl
    · rw [← hs', ← halloc, ← hexec, ← hn]
      rfl
  · rw [if_neg hnil] at he
    have hs' := Except.ok.inj he
    refine ⟨.waiting s.allocated, ⟨?_, ?_, ?_, ?_⟩, Or.inr ⟨rfl, fun hc => hnil (hempty.mpr hc),
      ?_, ?_, ?_⟩, hqdev, hqidx⟩
    · rw [← hs']
      exact hnreq
    · rw [← hs', ← halloc, ← hn]
      rfl
    · rw [← hs']
      exact hnlists
    · rw [← hs', ← halloc, ← hpc, ← hn]
      rfl
    · rw [← hs', ← hblocked, ← hn]
      rfl
    · rw [← hs', ← hexec, ← hn]
      rfl
    · rw [← hq]
      exact if_neg hnil

/-! ## A task takes its turn -/

/-- A task that has been made ready starts on its request. -/
theorem QueueInv.turn (h : QueueInv s) (hpc : s.pc t = .waiting r) (hb : s.blocked t = false) :
    QueueInv (doRequest s t r) := by
  have hself : (doRequest s t r).pc t = .executing r := Function.update_self ..
  have hother : ∀ {t'}, t' ≠ t → (doRequest s t r).pc t' = s.pc t' :=
    fun ht => Function.update_of_ne ht ..
  -- the task stands at the request it stood at before
  have hat : ∀ t' r', At ((doRequest s t r).pc t') r' ↔ At (s.pc t') r' := by
    intro t' r'
    by_cases ht : t' = t
    · rw [ht, hself, hpc]
      rfl
    · rw [hother ht]
  have hwaiting : ∀ t' r', (doRequest s t r).pc t' = .waiting r' ↔
      s.pc t' = .waiting r' ∧ t' ≠ t := by
    intro t' r'
    by_cases ht : t' = t
    · rw [ht, hself]
      exact iff_of_false nofun fun hc => hc.2 rfl
    · rw [hother ht]
      exact (and_iff_left ht).symm
  have hactive : ∀ r', Active (doRequest s t r) r' ↔ Active s r' := by
    intro r'
    constructor
    · rintro ⟨t', ht'⟩
      by_cases ht : t' = t
      · rw [ht, hself] at ht'
        rcases ht' with he | ⟨hw, -⟩
        · obtain rfl := Pc.executing.inj he
          exact ⟨t, Or.inr ⟨hpc, hb⟩⟩
        · cases hw
      · rw [hother ht] at ht'
        exact ⟨t', ht'⟩
    · rintro ⟨t', ht'⟩
      by_cases ht : t' = t
      · rw [ht, hpc] at ht'
        rcases ht' with he | ⟨hw, -⟩
        · cases he
        · obtain rfl := Pc.waiting.inj hw
          exact ⟨t, Or.inl hself⟩
      · rw [← hother ht] at ht'
        exact ⟨t', ht'⟩
  have hnotr : ∀ {t'}, s.pc t' = .waiting r → t' = t :=
    fun hw => h.single _ _ r (at_waiting hw) (at_waiting hpc)
  refine { h with
    stands := ?_, waits := ?_, owner := ?_, single := ?_, blocked := ?_, active := ?_,
    waitingNot := ?_, unissued := ?_, once := ?_ }
  · intro t' r' hr
    exact h.stands t' r' ((hat t' r').mp hr)
  · intro t' r' hw
    exact h.waits t' r' ((hwaiting t' r').mp hw).1
  · intro r' q hq
    obtain ⟨t', ht'⟩ := h.owner r' q hq
    exact ⟨t', (hat t' r').mpr ht'⟩
  · intro t₁ t₂ r' h₁ h₂
    exact h.single t₁ t₂ r' ((hat t₁ r').mp h₁) ((hat t₂ r').mp h₂)
  · intro t' hb'
    have ht : t' ≠ t := by
      rintro rfl
      exact absurd (hb.symm.trans hb') Bool.false_ne_true
    obtain ⟨r', hr'⟩ := h.blocked t' hb'
    exact ⟨r', (hwaiting t' r').mpr ⟨hr', ht⟩⟩
  · intro d hne
    obtain ⟨r', hr', hact, huniq⟩ := h.active d hne
    exact ⟨r', hr', (hactive r').mpr hact, fun r'' hr'' ha => huniq r'' hr'' ((hactive r'').mp ha)⟩
  · rintro r' ⟨t', hw⟩
    obtain ⟨hw, ht⟩ := (hwaiting t' r').mp hw
    show (r :: s.executed).count r' = 0
    have hne : r ≠ r' := by
      rintro rfl
      exact ht (hnotr hw)
    rw [List.count_cons_of_ne hne]
    exact h.waitingNot r' ⟨t', hw⟩
  · intro r' hr'
    show (r :: s.executed).count r' = 0
    have hne : r ≠ r' := by
      rintro rfl
      obtain ⟨q, hq, -⟩ := h.waits t r hpc
      rw [h.fresh r hr'] at hq
      cases hq
    rw [List.count_cons_of_ne hne]
    exact h.unissued r' hr'
  · intro r' hr' hnw
    show (r :: s.executed).count r' = 1
    by_cases heq : r = r'
    · rw [heq, List.count_cons_self, ← heq, h.waitingNot r ⟨t, hpc⟩]
    · rw [List.count_cons_of_ne heq]
      refine h.once r' hr' fun t' hw => hnw t' ((hwaiting t' r').mpr ⟨hw, ?_⟩)
      rintro rfl
      exact heq (Pc.waiting.inj (hpc.symm.trans hw))

/-! ## A request is finished -/

/-- The request in execution is the active one of its list. -/
theorem QueueInv.executing (h : QueueInv s) (hpc : s.pc t = .executing r) :
    ∃ q, s.requests r = some q ∧ r ∈ queue s q.dev ∧
      ∀ r' ∈ queue s q.dev, r' ≠ r → ∃ t' q', s.pc t' = .waiting r' ∧ s.blocked t' = true ∧
        s.requests r' = some q' ∧ q'.task = some t' := by
  obtain ⟨q, hq, hr⟩ := h.stands t r (at_executing hpc)
  refine ⟨q, hq, hr, ?_⟩
  intro r' hr' hne
  obtain ⟨a, -, -, huniq⟩ := h.active q.dev (List.ne_nil_of_mem hr)
  have hra : r = a := huniq r hr ⟨t, Or.inl hpc⟩
  rcases h.cases hr' with hact | ⟨t', hw, hb⟩
  · exact absurd ((huniq r' hr' hact).trans hra.symm) hne
  · obtain ⟨q', hq', htask⟩ := h.waits t' r' hw
    exact ⟨t', q', hw, hb, hq', htask⟩

/-- The state once a request is off its list, before another task is woken. -/
structure Removed (s s' : Disks) (t r : Nat) (q : Request) : Prop where
  requests : s'.requests = Function.update s.requests r none
  allocated : s'.allocated = s.allocated
  lists : ∀ d, queue s' d = if d = q.dev then (queue s d).erase r else queue s d
  pc : s'.pc = Function.update s.pc t .user
  executed : s'.executed = s.executed

/-- The neighbour that takes over, if one is left. -/
def HandedOn (s s' : Disks) (r : Nat) (q : Request) : Prop :=
  (queue s q.dev = [r] ∧ s'.blocked = s.blocked) ∨
  ∃ n t', n ∈ queue s q.dev ∧ n ≠ r ∧ s.pc t' = .waiting n ∧
    s'.blocked = Function.update s.blocked t' false

theorem QueueInv.removed (h : QueueInv s) (hpc : s.pc t = .executing r)
    (hq : s.requests r = some q) (hr : r ∈ queue s q.dev) (hm : Removed s s' t r q)
    (hn : HandedOn s s' r q) : QueueInv s' := by
  have hmem : ∀ d r', r' ∈ queue s' d ↔ r' ∈ queue s d ∧ r' ≠ r := by
    intro d r'
    rw [hm.lists]
    by_cases hd : d = q.dev
    · rw [if_pos hd, (h.nodup d).mem_erase_iff, and_comm]
    · rw [if_neg hd]
      refine (and_iff_left_of_imp ?_).symm
      rintro hr' rfl
      obtain ⟨q', hq', hd'⟩ := h.listed d r' hr'
      rw [hq] at hq'
      rw [← Option.some.inj hq'] at hd'
      exact hd hd'.symm
  have hreq : ∀ {r'}, r' ≠ r → s'.requests r' = s.requests r' := by
    intro r' hne
    rw [hm.requests, Function.update_of_ne hne]
  have hself : s'.requests r = none := by rw [hm.requests, Function.update_self]
  have hpcself : s'.pc t = .user := by rw [hm.pc, Function.update_self]
  have hpcother : ∀ {t'}, t' ≠ t → s'.pc t' = s.pc t' := by
    intro t' ht
    rw [hm.pc, Function.update_of_ne ht]
  have hat : ∀ {t' r'}, At (s'.pc t') r' → t' ≠ t ∧ r' ≠ r ∧ At (s.pc t') r' := by
    intro t' r' hat
    have ht : t' ≠ t := by
      rintro rfl
      rw [hpcself] at hat
      exact hat
    rw [hpcother ht] at hat
    refine ⟨ht, ?_, hat⟩
    rintro rfl
    exact ht (h.single t' t r' hat (at_executing hpc))
  have hwaiting : ∀ t' r', s'.pc t' = .waiting r' ↔ s.pc t' = .waiting r' := by
    intro t' r'
    by_cases ht : t' = t
    · rw [ht, hpcself, hpc]
      exact iff_of_false nofun nofun
    · rw [hpcother ht]
  have hunblocked : ∀ {t'}, s'.blocked t' = true → s.blocked t' = true := by
    intro t' hb
    rcases hn with ⟨-, hsame⟩ | ⟨n, t₁, -, -, -, hset⟩
    · rwa [hsame] at hb
    · rw [hset] at hb
      by_cases ht : t' = t₁
      · rw [ht, Function.update_self] at hb
        cases hb
      · rwa [Function.update_of_ne ht] at hb
  -- only the request the device is handed on to becomes active
  have hactive : ∀ {r'}, Active s' r' → Active s r' ∨ ∃ d, r' ∈ queue s d ∧ d = q.dev := by
    rintro r' ⟨t', he | ⟨hw, hb⟩⟩
    · obtain ⟨ht, -, -⟩ := hat (at_executing he)
      rw [hpcother ht] at he
      exact Or.inl ⟨t', Or.inl he⟩
    · rw [hwaiting] at hw
      cases hb' : s.blocked t' with
      | false => exact Or.inl ⟨t', Or.inr ⟨hw, hb'⟩⟩
      | true =>
          refine Or.inr ⟨q.dev, ?_, rfl⟩
          rcases hn with ⟨-, hsame⟩ | ⟨n, t₁, hmem', -, hw₁, hset⟩
          · rw [hsame, hb'] at hb
            cases hb
          · by_cases ht : t' = t₁
            · rw [ht, hw₁] at hw
              rw [← Pc.waiting.inj hw]
              exact hmem'
            · rw [hset, Function.update_of_ne ht, hb'] at hb
              cases hb
  have hstays : ∀ {r'}, r' ≠ r → Active s r' → Active s' r' := by
    rintro r' hne ⟨t', he | ⟨hw, hb⟩⟩
    · have ht : t' ≠ t := by
        rintro rfl
        rw [hpc] at he
        exact hne (Pc.executing.inj he).symm
      exact ⟨t', Or.inl ((hpcother ht).trans he)⟩
    · refine ⟨t', Or.inr ⟨(hwaiting t' r').mpr hw, ?_⟩⟩
      cases hb' : s'.blocked t' with
      | false => rfl
      | true => rw [hunblocked hb'] at hb; cases hb
  constructor
  · intro r' hr'
    by_cases hne : r' = r
    · rw [hne]
      exact hself
    · rw [hreq hne]
      exact h.fresh r' (hm.allocated ▸ hr')
  · intro d r' hr'
    obtain ⟨hr', hne⟩ := (hmem d r').mp hr'
    rw [hreq hne]
    exact h.listed d r' hr'
  · intro d
    rw [hm.lists]
    split
    · exact (h.nodup d).erase r
    · exact h.nodup d
  · intro d
    have hsub : (queue s' d).Sublist (queue s d) := by
      rw [hm.lists]
      split
      · exact List.erase_sublist
      · exact List.Sublist.refl _
    refine ((h.sorted d).sublist hsub).imp_of_mem ?_
    intro a b hma hmb hab
    rw [requestKey, requestKey, hreq ((hmem d a).mp hma).2, hreq ((hmem d b).mp hmb).2]
    exact hab
  · intro r' q' hq'
    by_cases hne : r' = r
    · rw [hne, hself] at hq'
      cases hq'
    · rw [hreq hne] at hq'
      exact h.low r' q' hq'
  · intro t' r' ha
    obtain ⟨-, hne, ha⟩ := hat ha
    obtain ⟨q', hq', hin⟩ := h.stands t' r' ha
    exact ⟨q', (hreq hne).trans hq', (hmem _ _).mpr ⟨hin, hne⟩⟩
  · intro t' r' hw
    obtain ⟨-, hne, -⟩ := hat (at_waiting hw)
    rw [hreq hne]
    exact h.waits t' r' ((hwaiting t' r').mp hw)
  · intro r' q' hq'
    have hne : r' ≠ r := by
      rintro rfl
      rw [hself] at hq'
      cases hq'
    rw [hreq hne] at hq'
    obtain ⟨t', ha⟩ := h.owner r' q' hq'
    refine ⟨t', ?_⟩
    rw [hpcother]
    · exact ha
    · rintro rfl
      rw [hpc] at ha
      exact hne (Eq.symm ha)
  · intro t₁ t₂ r' h₁ h₂
    exact h.single t₁ t₂ r' (hat h₁).2.2 (hat h₂).2.2
  · intro t' hb
    obtain ⟨r', hw⟩ := h.blocked t' (hunblocked hb)
    exact ⟨r', (hwaiting t' r').mpr hw⟩
  · intro d hne
    by_cases hd : d = q.dev
    · -- the list of the device: the neighbour takes over
      rcases hn with ⟨hsingle, -⟩ | ⟨n, t₁, hmem', hnr, hw, hset⟩
      · refine absurd ?_ hne
        rw [hm.lists, if_pos hd, hd, hsingle, List.erase_cons_head]
      · have hnact : Active s' n := by
          refine ⟨t₁, Or.inr ⟨(hwaiting t₁ n).mpr hw, ?_⟩⟩
          rw [hset, Function.update_self]
        refine ⟨n, (hmem d n).mpr ⟨hd ▸ hmem', hnr⟩, hnact, ?_⟩
        rintro r' hr' ⟨t', ht'⟩
        obtain ⟨hr', hner⟩ := (hmem d r').mp hr'
        obtain ⟨q₀, hq₀, -, hblocked⟩ := h.executing hpc
        rw [hq] at hq₀
        rw [hd, Option.some.inj hq₀] at hr'
        obtain ⟨t₂, -, hw₂, hb₂, -⟩ := hblocked r' hr' hner
        have hat₂ : At (s'.pc t₂) r' := at_waiting ((hwaiting t₂ r').mpr hw₂)
        have htt : t' = t₂ := by
          refine h.single t' t₂ r' (hat ?_).2.2 (hat hat₂).2.2
          exact ht'.elim at_executing fun hw => at_waiting hw.1
        rw [htt, (hwaiting t₂ r').mpr hw₂] at ht'
        rcases ht' with he | ⟨-, hb⟩
        · cases he
        · by_cases heq : t₂ = t₁
          · rw [heq, hw] at hw₂
            exact (Pc.waiting.inj hw₂).symm
          · rw [hset, Function.update_of_ne heq, hb₂] at hb
            cases hb
    · have hsame : queue s' d = queue s d := by rw [hm.lists, if_neg hd]
      rw [hsame] at hne ⊢
      obtain ⟨a, ha, hact, huniq⟩ := h.active d hne
      have har : ∀ {r'}, r' ∈ queue s d → r' ≠ r := by
        intro r' hr'
        rw [← hsame] at hr'
        exact ((hmem d r').mp hr').2
      refine ⟨a, ha, hstays (har ha) hact, ?_⟩
      intro r' hr' hact'
      rcases hactive hact' with hact' | ⟨d', hin, hd'⟩
      · exact huniq r' hr' hact'
      · -- a request is on one list
        obtain ⟨q₁, hq₁, hd₁⟩ := h.listed d r' hr'
        obtain ⟨q₂, hq₂, hd₂⟩ := h.listed d' r' hin
        rw [hq₁] at hq₂
        rw [← Option.some.inj hq₂, hd₁] at hd₂
        exact absurd (hd₂.trans hd') hd
  · rintro r' ⟨t', hw⟩
    rw [hm.executed]
    exact h.waitingNot r' ⟨t', (hwaiting t' r').mp hw⟩
  · intro r' hr'
    rw [hm.executed]
    exact h.unissued r' (hm.allocated ▸ hr')
  · intro r' hr' hnw
    rw [hm.executed]
    exact h.once r' (hm.allocated ▸ hr') fun t' hw => hnw t' ((hwaiting t' r').mpr hw)

/-- A task whose request is done takes it off the list and hands the device on. -/
theorem QueueInv.finish (h : QueueInv s) (hpc : s.pc t = .executing r) :
    ∃ s' q, finishRequest s t r = .ok s' ∧ s.requests r = some q ∧ r ∈ queue s q.dev ∧
      Removed s s' t r q ∧ HandedOn s s' r q := by
  obtain ⟨q, hq, hr, hothers⟩ := h.executing hpc
  generalize hm : ({ s.setDevice q.dev { s.devices q.dev with
      direct := (requestNextreq (s.devices q.dev) r).2
      request_list := (s.devices q.dev).request_list.erase r } with
    requests := Function.update s.requests r none
    pc := Function.update s.pc t .user } : Disks) = m
  have hremoved : Removed s m t r q := by
    rw [← hm]
    refine ⟨rfl, rfl, ?_, rfl, rfl⟩
    intro d
    refine (queue_setDevice s q.dev _ d).trans ?_
    by_cases hd : d = q.dev
    · rw [if_pos hd, if_pos hd, hd]
      rfl
    · rw [if_neg hd, if_neg hd]
  have hlist : r ∈ (s.devices q.dev).request_list := hr
  have he : finishRequest s t r =
      (requestNextreq (s.devices q.dev) r).1.elim (.ok m) (wakeRequester m) := by
    rw [finishRequest, hq]
    dsimp only
    rw [check_pos hlist, bind_ok, ← hm]
    cases (requestNextreq (s.devices q.dev) r).1 <;> rfl
  cases hn : (requestNextreq (s.devices q.dev) r).1 with
  | none =>
      rw [hn] at he
      refine ⟨m, q, he, hq, hr, hremoved, Or.inl ⟨?_, ?_⟩⟩
      · exact (requestNextreq_none hlist (h.nodup q.dev)).mp hn
      · rw [← hm]
        rfl
  | some n =>
      rw [hn] at he
      obtain ⟨hmem, hne⟩ := requestNextreq_some (h.nodup q.dev) hn
      obtain ⟨t', q', hw, -, hq', htask⟩ := hothers n hmem hne
      refine ⟨{ m with blocked := Function.update m.blocked t' false }, q, ?_, hq, hr,
        ⟨hremoved.requests, hremoved.allocated, hremoved.lists, hremoved.pc, hremoved.executed⟩,
        Or.inr ⟨n, t', hmem, hne, hw, ?_⟩⟩
      · rw [he, Option.elim_some]
        rw [wakeRequester, hremoved.requests, Function.update_of_ne hne, hq',
          Option.bind_some, htask]
      · rw [← hm]
        rfl

/-! ## Every reachable state -/

theorem QueueInv.step {e : Event} (h : QueueInv s) (hs : system.step s e s') : QueueInv s' := by
  obtain ⟨hen, he⟩ := hs
  cases e with
  | request t dev buf count idx flags type =>
      obtain ⟨hpc, hlow⟩ := hen
      obtain ⟨root, q, p, ha, hp, hd, hidx⟩ := deviceRequest_arrived he
      exact h.arrive hpc ha hp hd (hidx ▸ hlow)
  | resume t =>
      simp only [exec] at he
      cases hpc : s.pc t with
      | user =>
          rw [hpc] at he
          rw [← Except.ok.inj he]
          exact h
      | waiting r =>
          rw [hpc] at he
          rw [← Except.ok.inj he]
          exact h.turn hpc hen
      | executing r =>
          rw [hpc] at he
          obtain ⟨m, q, hm, hq, hr, hremoved, hhanded⟩ := h.finish hpc
          rw [← Except.ok.inj (hm.symm.trans he)]
          exact h.removed hpc hq hr hremoved hhanded

theorem queueInv_init (h : Init s) : QueueInv s := by
  have hnone : ∀ t r, ¬ At (s.pc t) r := by
    intro t r hat
    rw [h.pc t] at hat
    exact hat
  constructor
  · intro r _
    exact h.requests r
  · intro d r hr
    rw [queue, h.request_list d] at hr
    cases hr
  · intro d
    rw [queue, h.request_list d]
    exact List.nodup_nil
  · intro d
    rw [queue, h.request_list d]
    exact List.Pairwise.nil
  · intro r q hq
    rw [h.requests r] at hq
    cases hq
  · intro t r hat
    exact absurd hat (hnone t r)
  · intro t r hw
    exact absurd (at_waiting hw) (hnone t r)
  · intro r q hq
    rw [h.requests r] at hq
    cases hq
  · intro t t' r hat
    exact absurd hat (hnone t r)
  · intro t hb
    rw [h.blocked t] at hb
    cases hb
  · intro d hne
    exact absurd (h.request_list d) hne
  · intro r _
    rw [h.executed]
    exact List.count_nil
  · intro r _
    rw [h.executed]
    exact List.count_nil
  · intro r hr
    rw [h.allocated] at hr
    exact absurd hr (Nat.not_lt_zero r)

/-- The requests of a device are sorted by sector; one of them is active, and its
    task can go on; the tasks of the others are blocked.  `request_nextreq` finds
    nobody only behind the last request.  A request whose task does not wait for
    its turn has been executed once, and no other. -/
structure Served (s : Disks) : Prop where
  sorted : ∀ d, (queue s d).Pairwise fun a b => ∀ qa qb, s.requests a = some qa →
    s.requests b = some qb → qa.idx.toNat ≤ qb.idx.toNat
  active : ∀ d, queue s d ≠ [] → ∃ r ∈ queue s d, Active s r ∧
    ∀ r' ∈ queue s d, r' ≠ r → Waiting s r' ∧ ¬ Active s r'
  goesOn : ∀ r, Active s r → ∃ t s', At (s.pc t) r ∧ system.step s (.resume t) s'
  next : ∀ t r, s.pc t = .executing r → ∃ q, s.requests r = some q ∧ r ∈ queue s q.dev ∧
    ((requestNextreq (s.devices q.dev) r).1 = none ↔ queue s q.dev = [r])
  waiting : ∀ r, (∃ t, s.pc t = .waiting r) → s.executed.count r = 0
  executed : ∀ r, r < s.allocated → (∀ t, s.pc t ≠ .waiting r) → s.executed.count r = 1
  idle : ∀ t, s.blocked t = true → ∃ r d, s.pc t = .waiting r ∧ r ∈ queue s d ∧
    ∃ r' ∈ queue s d, Active s r'

theorem QueueInv.served (h : QueueInv s) : Served s := by
  constructor
  · intro d
    refine (h.sorted d).imp ?_
    intro a b hab qa qb ha hb
    have hla := h.low a qa ha
    have hlb := h.low b qb hb
    rw [requestKey, requestKey, ha, hb] at hab
    simp only [Option.map_some, Option.getD_some] at hab
    rw [BitVec.toInt_eq_toNat_of_lt (by omega), BitVec.toInt_eq_toNat_of_lt (by omega)] at hab
    exact Int.ofNat_le.mp hab
  · intro d hne
    obtain ⟨r, hr, hact, huniq⟩ := h.active d hne
    refine ⟨r, hr, hact, ?_⟩
    intro r' hr' hne'
    have hnot : ¬ Active s r' := fun ha => hne' (huniq r' hr' ha)
    exact ⟨(h.cases hr').resolve_left hnot, hnot⟩
  · rintro r ⟨t, he | ⟨hw, hb⟩⟩
    · obtain ⟨s', q, hfin, -⟩ := h.finish he
      refine ⟨t, s', at_executing he, ?_, ?_⟩
      · cases hb : s.blocked t with
        | false => exact hb
        | true =>
            obtain ⟨r', hr'⟩ := h.blocked t hb
            rw [he] at hr'
            cases hr'
      · simp only [exec, he]
        exact hfin
    · refine ⟨t, doRequest s t r, at_waiting hw, hb, ?_⟩
      simp only [exec, hw]
  · intro t r hpc
    obtain ⟨q, hq, hr, -⟩ := h.executing hpc
    exact ⟨q, hq, hr, requestNextreq_none hr (h.nodup q.dev)⟩
  · exact h.waitingNot
  · exact h.once
  · intro t hb
    obtain ⟨r, hw⟩ := h.blocked t hb
    obtain ⟨q, -, hin⟩ := h.stands t r (at_waiting hw)
    obtain ⟨r', hr', hact, -⟩ := h.active q.dev (List.ne_nil_of_mem hin)
    exact ⟨r, q.dev, hw, hin, r', hr', hact⟩

/-- In every reachable state the requests are served one at a time and none is
    lost. -/
theorem requests_served (h : Reach system free s) : Served s := by
  suffices hinv : QueueInv s from hinv.served
  refine h.invariant ?_ ?_
  · intro s h0
    exact queueInv_init h0
  · intro s e s' hs _ hst
    exact hs.step hst

/-- A disk with one partition, which starts at sector 100. -/
def freshDisks : Disks where
  devices := fun d =>
    { type := if d = 1 ∨ d = 2 then .block else .null
      parent := if d = 2 then 1 else 0
      ioctl := some (if d = 2 then 100 else 0)
      request_list := []
      direct := .up }
  requests := fun _ => none
  allocated := 0
  blocked := fun _ => false
  pc := fun _ => .user
  executed := []

/-- Three tasks ask for sectors 120 (20 of the partition), 50 and 130 of one
    disk; sector 130 comes after 120, and the way back to 50 last. -/
theorem requests_served_elevator : ∃ s, s.executed = [1, 2, 0] ∧ queue s 1 = [] ∧ Served s := by
  have hrun : (follow free Enabled exec freshDisks
      [.request 1 2 0 2 20 0 .read, .request 2 1 0 2 50 0 .read, .request 3 1 0 2 130 0 .write,
        .resume 1, .resume 3, .resume 3, .resume 2, .resume 2]).map
      (fun s => (s.executed, (s.devices 1).request_list)) = some ([1, 2, 0], []) := by
    decide +kernel
  obtain ⟨s, hs, hobs⟩ := Option.map_eq_some_iff.mp hrun
  obtain ⟨hexec, hlist⟩ := Prod.mk.inj hobs
  have hinit : Init freshDisks :=
    ⟨fun _ => rfl, fun _ => rfl, rfl, fun _ => rfl, fun _ => rfl, rfl⟩
  exact ⟨s, hexec, hlist, requests_served (Reach.follow _ (.start hinit) hs)⟩

end NeonixRequestQueue
