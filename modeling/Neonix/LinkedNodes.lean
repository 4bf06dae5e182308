import Mathlib.Data.List.Nodup
import Mathlib.Logic.Function.Basic

/-! # Doubly linked lists with sentinels

    Nodes are linked with `next` and `prev` pointers between the head and the tail
    of a list.  `Represents n L` says that the pointers are those of the lists `L`:
    what a list operation does to the pointers is then an operation on lists. -/

namespace NeonixLinkedNodes

/-- Where a node is: the sentinels of the list `l`, or the node of `x`. -/
inductive Addr (ι τ : Type) where
  | head (l : ι)
  | tail (l : ι)
  | node (x : τ)
  deriving DecidableEq

/-- The pointers of all nodes; `none` is `NULL`. -/
structure Nodes (ι τ : Type) where
  next : Addr ι τ → Option (Addr ι τ)
  prev : Addr ι τ → Option (Addr ι τ)

/-! ## Paths -/

variable {ι τ : Type} {n m : Nodes ι τ} {a b c x y : Addr ι τ} {xs ys : List (Addr ι τ)}

/-- From `a` the pointers lead through `xs` to `b`, and back. -/
def Path (n : Nodes ι τ) (a : Addr ι τ) : List (Addr ι τ) → Addr ι τ → Prop
  | [], b => n.next a = some b ∧ n.prev b = some a
  | x :: xs, b => (n.next a = some x ∧ n.prev x = some a) ∧ Path n x xs b

theorem path_append :
    Path n a (xs ++ y :: ys) b ↔ Path n a xs y ∧ Path n y ys b := by
  induction xs generalizing a with
  | nil => exact Iff.rfl
  | cons x xs ih =>
      show _ ∧ Path n x (xs ++ y :: ys) b ↔ (_ ∧ Path n x xs y) ∧ Path n y ys b
      rw [ih]
      exact and_assoc.symm

/-- A path depends on the `next` of its nodes and of its start, and on the `prev` of
    its nodes and of its end. -/
theorem Path.congr (h : Path n a xs b) (hnext : ∀ c ∈ a :: xs, m.next c = n.next c)
    (hprev : ∀ c ∈ b :: xs, m.prev c = n.prev c) : Path m a xs b := by
  induction xs generalizing a with
  | nil =>
      obtain ⟨h1, h2⟩ := h
      exact ⟨(hnext a List.mem_cons_self).trans h1, (hprev b List.mem_cons_self).trans h2⟩
  | cons x xs ih =>
      obtain ⟨⟨h1, h2⟩, h3⟩ := h
      have hx : x ∈ b :: x :: xs := List.mem_cons_of_mem _ List.mem_cons_self
      refine ⟨⟨(hnext a List.mem_cons_self).trans h1, (hprev x hx).trans h2⟩, ih h3 ?_ ?_⟩
      · exact fun c hc => hnext c (List.mem_cons_of_mem _ hc)
      · intro c hc
        rcases List.mem_cons.mp hc with rfl | hc
        · exact hprev c List.mem_cons_self
        · exact hprev c (List.mem_cons_of_mem _ (List.mem_cons_of_mem _ hc))

/-- The node in front of the end. -/
def lastOf (a : Addr ι τ) : List (Addr ι τ) → Addr ι τ
  | [] => a
  | x :: xs => lastOf x xs

theorem lastOf_mem : lastOf a xs ∈ a :: xs := by
  induction xs generalizing a with
  | nil => exact List.mem_cons_self
  | cons x xs ih => exact List.mem_cons_of_mem _ ih

theorem Path.last_link (h : Path n a xs b) :
    n.next (lastOf a xs) = some b ∧ n.prev b = some (lastOf a xs) := by
  induction xs generalizing a with
  | nil => exact h
  | cons x xs ih => exact ih h.2

/-- The last link of a path is redirected to another end. -/
theorem Path.redirect (h : Path n a xs b) (hnodup : (a :: xs).Nodup)
    (hnext : ∀ d ∈ a :: xs, d ≠ lastOf a xs → m.next d = n.next d)
    (hprev : ∀ d ∈ xs, m.prev d = n.prev d)
    (hlink : m.next (lastOf a xs) = some c ∧ m.prev c = some (lastOf a xs)) : Path m a xs c := by
  induction xs generalizing a with
  | nil => exact hlink
  | cons x xs ih =>
      obtain ⟨⟨h1, h2⟩, h3⟩ := h
      obtain ⟨ha, hnodup'⟩ := List.nodup_cons.mp hnodup
      have hne : a ≠ lastOf x xs := fun heq => ha (heq ▸ lastOf_mem)
      refine ⟨⟨(hnext a List.mem_cons_self hne).trans h1,
        (hprev x List.mem_cons_self).trans h2⟩, ?_⟩
      refine ih h3 hnodup' (fun d hd => hnext d (List.mem_cons_of_mem _ hd)) ?_ hlink
      exact fun d hd => hprev d (List.mem_cons_of_mem _ hd)

variable [DecidableEq ι] [DecidableEq τ]

def Nodes.setNext (n : Nodes ι τ) (a : Addr ι τ) (b : Option (Addr ι τ)) : Nodes ι τ :=
  { n with next := Function.update n.next a b }

def Nodes.setPrev (n : Nodes ι τ) (a : Addr ι τ) (b : Option (Addr ι τ)) : Nodes ι τ :=
  { n with prev := Function.update n.prev a b }

@[simp] theorem setNext_prev (n : Nodes ι τ) (a : Addr ι τ) (b : Option (Addr ι τ)) :
    (n.setNext a b).prev = n.prev := rfl

@[simp] theorem setPrev_next (n : Nodes ι τ) (a : Addr ι τ) (b : Option (Addr ι τ)) :
    (n.setPrev a b).next = n.next := rfl

@[simp] theorem setNext_next (n : Nodes ι τ) (a c : Addr ι τ) (b : Option (Addr ι τ)) :
    (n.setNext a b).next c = if c = a then b else n.next c := Function.update_apply ..

@[simp] theorem setPrev_prev (n : Nodes ι τ) (a c : Addr ι τ) (b : Option (Addr ι τ)) :
    (n.setPrev a b).prev c = if c = a then b else n.prev c := Function.update_apply ..

/-- A store of what is there. -/
theorem setNext_self {p : Option (Addr ι τ)} (h : n.next a = p) : n.setNext a p = n := by
  rw [Nodes.setNext, ← h, Function.update_eq_self]

theorem setPrev_self {p : Option (Addr ι τ)} (h : n.prev a = p) : n.setPrev a p = n := by
  rw [Nodes.setPrev, ← h, Function.update_eq_self]

/-! ## Operations

    `none` is an assertion that fails or a null pointer. -/

/-- `list_insert_after`. -/
def insertAfter (n : Nodes ι τ) (anchor node : Addr ι τ) : Option (Nodes ι τ) := do
  let n := n.setPrev node (some anchor)
  let n := n.setNext node (n.next anchor)
  let next ← n.next anchor
  let n := n.setPrev next (some node)
  return n.setNext anchor (some node)

/-- The loop of `list_search`, for at most `fuel` turns. -/
def searchFrom (n : Nodes ι τ) (l : ι) (node : Addr ι τ) : (fuel : Nat) → Option (Addr ι τ) →
    Option Bool
  | _, none => none
  | 0, _ => none
  | fuel + 1, some next =>
      if next = .tail l then some false
      else if next = node then some true
      else searchFrom n l node fuel (n.next next)

/-- `list_search`. -/
def search (n : Nodes ι τ) (l : ι) (node : Addr ι τ) (fuel : Nat) : Option Bool :=
  searchFrom n l node fuel (n.next (.head l))

/-- `list_push`. -/
def push (n : Nodes ι τ) (l : ι) (node : Addr ι τ) (fuel : Nat) : Option (Nodes ι τ) := do
  let found ← search n l node fuel
  if found = true then none else insertAfter n (.head l) node

/-- `list_remove`. -/
def remove (n : Nodes ι τ) (node : Addr ι τ) : Option (Nodes ι τ) := do
  let prev ← n.prev node
  let next ← n.next node
  let n := n.setNext prev (some next)
  let n := n.setPrev next (some prev)
  let n := n.setNext node none
  return n.setPrev node none

/-- `list_empty`. -/
def isEmpty (n : Nodes ι τ) (l : ι) : Bool := decide (n.next (.head l) = some (.tail l))

/-- `list_popback`: the node, and the list without it. -/
def popBack (n : Nodes ι τ) (l : ι) : Option (Addr ι τ × Nodes ι τ) := do
  if isEmpty n l = true then none
  else
    let node ← n.prev (.tail l)
    return (node, ← remove n node)

/-! ## The lists the pointers represent -/

/-- The pointers are those of the lists, and a node on no list has none. -/
structure Represents (n : Nodes ι τ) (L : ι → List τ) : Prop where
  path : ∀ l, Path n (.head l) ((L l).map .node) (.tail l)
  nodup : ∀ l, (L l).Nodup
  one : ∀ l l' x, x ∈ L l → x ∈ L l' → l = l'
  alone : ∀ x, (∀ l, x ∉ L l) → n.next (.node x) = none ∧ n.prev (.node x) = none
  ends : ∀ l, n.next (.tail l) = none ∧ n.prev (.head l) = none

/-- The node is met on the way from the head of the list to its tail. -/
def OnList (n : Nodes ι τ) (l : ι) (x : τ) : Prop :=
  ∃ xs, Path n (.head l) xs (.tail l) ∧ .node x ∈ xs

variable {L : ι → List τ} {l l' : ι} {u v : τ}

omit [DecidableEq ι] [DecidableEq τ] in
theorem node_injective : Function.Injective (Addr.node : τ → Addr ι τ) := fun _ _ h =>
  Addr.node.inj h

omit [DecidableEq ι] [DecidableEq τ] in
theorem mem_nodes {us : List τ} : (.node u : Addr ι τ) ∈ us.map .node ↔ u ∈ us :=
  List.mem_map_of_injective node_injective

omit [DecidableEq ι] [DecidableEq τ] in
/-- The nodes of an element and of one that is not on the list. -/
theorem node_ne {us : List τ} (hv : v ∈ us) (hu : u ∉ us) : (.node v : Addr ι τ) ≠ .node u := by
  intro heq
  rw [node_injective heq] at hv
  exact hu hv

omit [DecidableEq ι] [DecidableEq τ] in
/-- A node on a path has both pointers. -/
theorem Path.linked (h : Path n a xs b) (hx : x ∈ xs) : n.next x ≠ none ∧ n.prev x ≠ none := by
  induction xs generalizing a with
  | nil => exact absurd hx List.not_mem_nil
  | cons y ys ih =>
      rcases List.mem_cons.mp hx with rfl | hx
      · refine ⟨?_, fun h0 => Option.some_ne_none _ (h.1.2.symm.trans h0)⟩
        cases ys with
        | nil => exact fun h0 => Option.some_ne_none _ (h.2.1.symm.trans h0)
        | cons z zs => exact fun h0 => Option.some_ne_none _ (h.2.1.1.symm.trans h0)
      · exact ih h.2 hx

omit [DecidableEq ι] [DecidableEq τ] in
theorem Represents.linked (h : Represents n L) (hu : u ∈ L l) :
    n.next (.node u) ≠ none ∧ n.prev (.node u) ≠ none :=
  (h.path l).linked (mem_nodes.mpr hu)

omit [DecidableEq ι] [DecidableEq τ] in
/-- A node has pointers exactly when it is on a list. -/
theorem Represents.next_iff (h : Represents n L) : n.next (.node u) ≠ none ↔ ∃ l, u ∈ L l := by
  constructor
  · intro hne
    by_contra hno
    exact hne (h.alone u fun l hl => hno ⟨l, hl⟩).1
  · rintro ⟨l, hl⟩
    exact (h.linked hl).1

omit [DecidableEq ι] [DecidableEq τ] in
/-- There is one path to an address behind which there is none. -/
theorem Path.unique (h : Path n a xs b) (h' : Path n a ys b) (hb : n.next b = none) : xs = ys := by
  have hin : ∀ {c zs}, Path n c zs b → b ∉ zs := fun hzs hin => (hzs.linked hin).1 hb
  induction xs generalizing a ys with
  | nil =>
      cases ys with
      | nil => rfl
      | cons y ys =>
          have heq : b = y := Option.some.inj (h.1.symm.trans h'.1.1)
          exact absurd (heq ▸ List.mem_cons_self) (hin h')
  | cons x xs ih =>
      cases ys with
      | nil =>
          have heq : b = x := Option.some.inj (h'.1.symm.trans h.1.1)
          exact absurd (heq ▸ List.mem_cons_self) (hin h)
      | cons y ys =>
          obtain rfl : x = y := Option.some.inj (h.1.1.symm.trans h'.1.1)
          rw [ih h.2 h'.2]

omit [DecidableEq ι] [DecidableEq τ] in
theorem Represents.onList_iff (h : Represents n L) : OnList n l u ↔ u ∈ L l := by
  constructor
  · rintro ⟨xs, hpath, hin⟩
    rw [hpath.unique (h.path l) (h.ends l).1] at hin
    exact mem_nodes.mp hin
  · exact fun hu => ⟨_, h.path l, mem_nodes.mpr hu⟩

theorem searchFrom_none {us : List τ} {fuel : Nat} (hpath : Path n a (us.map .node) (.tail l))
    (hu : u ∉ us) (hfuel : us.length < fuel) :
    searchFrom n l (.node u) fuel (n.next a) = some false := by
  induction us generalizing a fuel with
  | nil =>
      obtain ⟨k, rfl⟩ := Nat.exists_eq_succ_of_ne_zero (Nat.pos_iff_ne_zero.mp hfuel)
      rw [hpath.1, searchFrom, if_pos rfl]
  | cons w ws ih =>
      obtain ⟨k, rfl⟩ := Nat.exists_eq_succ_of_ne_zero (Nat.ne_zero_of_lt hfuel)
      have hne : (.node w : Addr ι τ) ≠ .node u := node_ne List.mem_cons_self hu
      rw [hpath.1.1, searchFrom, if_neg (fun h => by cases h), if_neg hne]
      exact ih hpath.2 (fun h => hu (List.mem_cons_of_mem _ h)) (Nat.lt_of_succ_lt_succ hfuel)

/-- A node that is not on the list is not found on it. -/
theorem Represents.search (h : Represents n L) (hu : u ∉ L l) {fuel : Nat}
    (hfuel : (L l).length < fuel) : search n l (.node u) fuel = some false :=
  searchFrom_none (h.path l) hu hfuel

theorem Represents.isEmpty (h : Represents n L) : isEmpty n l = decide (L l = []) := by
  have hpath := h.path l
  rw [NeonixLinkedNodes.isEmpty]
  cases hL : L l with
  | nil =>
      rw [hL] at hpath
      rw [hpath.1]
      exact (decide_eq_true rfl).trans (decide_eq_true rfl).symm
  | cons w ws =>
      rw [hL] at hpath
      rw [hpath.1.1]
      exact (decide_eq_false (fun h => by cases h)).trans
        (decide_eq_false (List.cons_ne_nil _ _)).symm

/-! ## `list_push` -/

/-- The pointers with `x` between `a` and `b`. -/
def inserted (n : Nodes ι τ) (a x b : Addr ι τ) : Nodes ι τ :=
  (((n.setPrev x (some a)).setNext x (some b)).setPrev b (some x)).setNext a (some x)

theorem insertAfter_eq (hne : a ≠ x) (hnext : n.next a = some b) :
    insertAfter n a x = some (inserted n a x b) := by
  have hkept : ((n.setPrev x (some a)).setNext x (some b)).next a = some b := by
    rw [setNext_next, if_neg hne, setPrev_next, hnext]
  rw [insertAfter, setPrev_next, hnext]
  show (((n.setPrev x (some a)).setNext x (some b)).next a).bind _ = _
  rw [hkept]
  rfl

theorem inserted_next : (inserted n a x b).next c =
    if c = a then some x else if c = x then some b else n.next c := by
  simp only [inserted, setNext_next, setPrev_next]

theorem inserted_prev : (inserted n a x b).prev c =
    if c = b then some x else if c = x then some a else n.prev c := by
  simp only [inserted, setNext_prev, setPrev_prev]

omit [DecidableEq τ] in
/-- A node is on one list more. -/
theorem mem_update {us : List τ} {k : ι} :
    v ∈ Function.update L l us k ↔ if k = l then v ∈ us else v ∈ L k := by
  by_cases hk : k = l
  · subst hk
    rw [Function.update_self, if_pos rfl]
  · rw [Function.update_of_ne hk, if_neg hk]

omit [DecidableEq ι] [DecidableEq τ] in
/-- The other lists are on other paths. -/
theorem Represents.others (h : Represents n L) (hl : l' ≠ l)
    (hnext : ∀ c, c ≠ .head l → (∀ v ∈ L l, c ≠ .node v) → c ≠ .node u → m.next c = n.next c)
    (hprev : ∀ c, c ≠ .tail l → (∀ v ∈ L l, c ≠ .node v) → c ≠ .node u → m.prev c = n.prev c)
    (hu : u ∉ L l') : Path m (.head l') ((L l').map .node) (.tail l') := by
  have hapart : ∀ v ∈ L l, v ∉ L l' := fun v hv hv' => hl (h.one l l' v hv hv').symm
  refine (h.path l').congr (fun c hc => ?_) fun c hc => ?_
  · rcases List.mem_cons.mp hc with rfl | hc
    · exact hnext _ (fun heq => hl (Addr.head.inj heq)) (fun v _ heq => by cases heq)
        (fun heq => by cases heq)
    · obtain ⟨w, hw, rfl⟩ := List.mem_map.mp hc
      exact hnext _ (fun heq => by cases heq) (fun v hv => node_ne hw (hapart v hv)) (node_ne hw hu)
  · rcases List.mem_cons.mp hc with rfl | hc
    · exact hprev _ (fun heq => hl (Addr.tail.inj heq)) (fun v _ heq => by cases heq)
        (fun heq => by cases heq)
    · obtain ⟨w, hw, rfl⟩ := List.mem_map.mp hc
      exact hprev _ (fun heq => by cases heq) (fun v hv => node_ne hw (hapart v hv)) (node_ne hw hu)

/-- A path with a node in front. -/
theorem Path.inserted {us : List τ} (h : Path n (.head l) (us.map .node) (.tail l))
    (hnodup : us.Nodup) (hu : u ∉ us) (hb : n.next (.head l) = some b) :
    Path (inserted n (.head l) (.node u) b) (.head l) ((u :: us).map .node) (.tail l) := by
  cases us with
  | nil =>
      obtain rfl : Addr.tail l = b := Option.some.inj (h.1.symm.trans hb)
      refine ⟨⟨?_, ?_⟩, ?_, ?_⟩
      · rw [inserted_next, if_pos rfl]
      · rw [inserted_prev, if_neg (fun heq => by cases heq), if_pos rfl]
      · rw [inserted_next, if_neg (fun heq => by cases heq), if_pos rfl]
      · rw [inserted_prev, if_pos rfl]
  | cons w ws =>
      obtain rfl : Addr.node w = b := Option.some.inj (h.1.1.symm.trans hb)
      obtain ⟨hw, -⟩ := List.nodup_cons.mp hnodup
      have hne : (Addr.node u : Addr ι τ) ≠ .node w := (node_ne List.mem_cons_self hu).symm
      refine ⟨⟨?_, ?_⟩, ⟨?_, ?_⟩, h.2.congr (fun c hc => ?_) fun c hc => ?_⟩
      · rw [inserted_next, if_pos rfl]
      · rw [inserted_prev, if_neg hne, if_pos rfl]
      · rw [inserted_next, if_neg (fun heq => by cases heq), if_pos rfl]
      · rw [inserted_prev, if_pos rfl]
      · obtain ⟨z, hz, rfl⟩ := List.mem_map.mp (show c ∈ (w :: ws).map Addr.node from hc)
        rw [inserted_next, if_neg (fun heq => by cases heq), if_neg (node_ne hz hu)]
      · rcases List.mem_cons.mp hc with rfl | hc
        · rw [inserted_prev, if_neg (fun heq => by cases heq), if_neg (fun heq => by cases heq)]
        · obtain ⟨z, hz, rfl⟩ := List.mem_map.mp hc
          rw [inserted_prev, if_neg (node_ne hz hw),
            if_neg (node_ne (List.mem_cons_of_mem _ hz) hu)]

omit [DecidableEq ι] [DecidableEq τ] in
/-- What is behind the head. -/
theorem Represents.first (h : Represents n L) : ∃ b, n.next (.head l) = some b ∧
    (b = .tail l ∨ ∃ v ∈ L l, b = .node v) := by
  have hpath := h.path l
  cases hL : L l with
  | nil =>
      rw [hL] at hpath
      exact ⟨_, hpath.1, .inl rfl⟩
  | cons w ws =>
      rw [hL] at hpath
      exact ⟨_, hpath.1.1, .inr ⟨w, List.mem_cons_self, rfl⟩⟩

/-- A node on no list is put in front of a list. -/
theorem Represents.push (h : Represents n L) (hu : ∀ l, u ∉ L l) {fuel : Nat}
    (hfuel : (L l).length < fuel) : ∃ m, push n l (.node u) fuel = some m ∧
      Represents m (Function.update L l (u :: L l)) := by
  obtain ⟨b, hb, hfirst⟩ := h.first (l := l)
  refine ⟨inserted n (.head l) (.node u) b, ?_, fun k => ?_, fun k => ?_, fun k k' v => ?_,
    fun v hv => ?_, fun k => ?_⟩
  · rw [NeonixLinkedNodes.push, h.search (hu l) hfuel]
    exact insertAfter_eq (fun heq => by cases heq) hb
  · by_cases hk : k = l
    · subst hk
      rw [Function.update_self]
      exact (h.path k).inserted (h.nodup k) (hu k) hb
    · rw [Function.update_of_ne hk]
      refine h.others hk (fun c hhead hnode hcu => ?_) (fun c htail hnode hcu => ?_) (hu k)
      · rw [inserted_next, if_neg hhead, if_neg hcu]
      · have hcb : c ≠ b := by
          rcases hfirst with rfl | ⟨v, hv, rfl⟩
          · exact htail
          · exact hnode v hv
        rw [inserted_prev, if_neg hcb, if_neg hcu]
  · by_cases hk : k = l
    · subst hk
      rw [Function.update_self]
      exact List.nodup_cons.mpr ⟨hu k, h.nodup k⟩
    · rw [Function.update_of_ne hk]
      exact h.nodup k
  · have hin : ∀ j, v ∈ Function.update L l (u :: L l) j → (v = u ∧ j = l) ∨ v ∈ L j := by
      intro j hj
      rw [mem_update] at hj
      by_cases hjl : j = l
      · rw [if_pos hjl] at hj
        rcases List.mem_cons.mp hj with hj | hj
        · exact .inl ⟨hj, hjl⟩
        · exact .inr (hjl ▸ hj)
      · rw [if_neg hjl] at hj
        exact .inr hj
    intro hk hk'
    rcases hin k hk with ⟨hvu, hkl⟩ | hin₁
    · rcases hin k' hk' with ⟨-, hk'l⟩ | hin₂
      · exact hkl.trans hk'l.symm
      · exact absurd (hvu ▸ hin₂) (hu k')
    · rcases hin k' hk' with ⟨hvu, -⟩ | hin₂
      · exact absurd (hvu ▸ hin₁) (hu k)
      · exact h.one k k' v hin₁ hin₂
  · have hvu : v ≠ u := by
      rintro rfl
      exact hv l (mem_update.mpr (by rw [if_pos rfl]; exact List.mem_cons_self))
    have hno : ∀ k, v ∉ L k := by
      intro k hk
      refine hv k (mem_update.mpr ?_)
      by_cases hkl : k = l
      · rw [if_pos hkl, ← hkl]
        exact List.mem_cons_of_mem _ hk
      · rw [if_neg hkl]
        exact hk
    have hvb : (Addr.node v : Addr ι τ) ≠ b := by
      rcases hfirst with rfl | ⟨w, hw, rfl⟩
      · exact fun heq => by cases heq
      · exact fun heq => hno l (Addr.node.inj heq ▸ hw)
    have hvn : (Addr.node v : Addr ι τ) ≠ .node u := fun heq => hvu (Addr.node.inj heq)
    rw [inserted_next, inserted_prev, if_neg (fun heq => by cases heq), if_neg hvn, if_neg hvb,
      if_neg hvn]
    exact h.alone v hno
  · have hhead : (Addr.head k : Addr ι τ) ≠ b := by
      rcases hfirst with rfl | ⟨w, -, rfl⟩
      · exact fun heq => by cases heq
      · exact fun heq => by cases heq
    rw [inserted_next, inserted_prev, if_neg (fun heq => by cases heq),
      if_neg (fun heq => by cases heq), if_neg hhead, if_neg (fun heq => by cases heq)]
    exact h.ends k

/-! ## `list_remove` -/

/-- The pointers without `x`, which was between `a` and `b`. -/
def bridged (n : Nodes ι τ) (a x b : Addr ι τ) : Nodes ι τ :=
  (((n.setNext a (some b)).setPrev b (some a)).setNext x none).setPrev x none

theorem remove_eq (hprev : n.prev x = some a) (hnext : n.next x = some b) :
    remove n x = some (bridged n a x b) := by
  rw [remove, hprev, hnext]
  rfl

theorem bridged_next : (bridged n a x b).next c =
    if c = x then none else if c = a then some b else n.next c := by
  simp only [bridged, setNext_next, setPrev_next]

theorem bridged_prev : (bridged n a x b).prev c =
    if c = x then none else if c = b then some a else n.prev c := by
  simp only [bridged, setNext_prev, setPrev_prev]

/-- The nodes around one of the nodes of a path. -/
def firstOf (b : Addr ι τ) : List (Addr ι τ) → Addr ι τ
  | [] => b
  | x :: _ => x

omit [DecidableEq ι] [DecidableEq τ] in
theorem Path.first_link (h : Path n a xs b) :
    n.next a = some (firstOf b xs) ∧ n.prev (firstOf b xs) = some a := by
  cases xs with
  | nil => exact h
  | cons x xs => exact h.1

/-- A path without one of its nodes. -/
theorem Path.bridged (h : Path n a (xs ++ x :: ys) b) (hnodup : (a :: (xs ++ x :: ys)).Nodup)
    (hb : b ∉ a :: (xs ++ x :: ys)) :
    Path (bridged n (lastOf a xs) x (firstOf b ys)) a (xs ++ ys) b := by
  obtain ⟨hleft, hright⟩ := path_append.mp h
  have hperm : (a :: (xs ++ x :: ys)).Perm (x :: (a :: xs ++ ys)) :=
    show ((a :: xs) ++ x :: ys).Perm (x :: (a :: xs ++ ys)) from List.perm_middle
  obtain ⟨hx, hrest⟩ := List.nodup_cons.mp (hperm.nodup_iff.mp hnodup)
  have hxb : b ≠ x := fun heq => hb (heq ▸ hperm.mem_iff.mpr List.mem_cons_self)
  have hbrest : ∀ c ∈ a :: xs ++ ys, c ≠ b := fun c hc heq =>
    hb (heq ▸ hperm.mem_iff.mpr (List.mem_cons_of_mem _ hc))
  have hxrest : ∀ c ∈ a :: xs ++ ys, c ≠ x := fun c hc heq => hx (heq ▸ hc)
  obtain ⟨hnodupl, -, hdisj⟩ := List.nodup_append.mp hrest
  have hin : ∀ c ∈ a :: xs, c ∈ a :: xs ++ ys := fun c hc => List.mem_append_left _ hc
  have hfirst : firstOf b ys ≠ x := by
    cases ys with
    | nil => exact hxb
    | cons y ys => exact hxrest y (List.mem_append_right _ List.mem_cons_self)
  -- up to the last node of the left part only one link is new
  have hleft' : Path (NeonixLinkedNodes.bridged n (lastOf a xs) x (firstOf b ys)) a xs (firstOf b ys) := by
    refine hleft.redirect hnodupl (fun d hd hlast => ?_) (fun d hd => ?_) ⟨?_, ?_⟩
    · rw [bridged_next, if_neg (hxrest d (hin d hd)), if_neg hlast]
    · have hdin := hin d (List.mem_cons_of_mem _ hd)
      have hdf : d ≠ firstOf b ys := by
        cases ys with
        | nil => exact hbrest d hdin
        | cons y ys => exact hdisj d (List.mem_cons_of_mem _ hd) y List.mem_cons_self
      rw [bridged_prev, if_neg (hxrest d hdin), if_neg hdf]
    · rw [bridged_next, if_neg (hxrest _ (hin _ lastOf_mem)), if_pos rfl]
    · rw [bridged_prev, if_neg hfirst, if_pos rfl]
  cases ys with
  | nil =>
      rw [List.append_nil]
      exact hleft'
  | cons y ys =>
      refine path_append.mpr ⟨hleft', hright.2.congr (fun c hc => ?_) fun c hc => ?_⟩
      · have hcl : c ≠ lastOf a xs := (hdisj _ lastOf_mem c hc).symm
        rw [bridged_next, if_neg (hxrest c (List.mem_append_right _ hc)), if_neg hcl]
      · rcases List.mem_cons.mp hc with rfl | hc
        · have hcy : c ≠ y := (hbrest y (List.mem_append_right _ List.mem_cons_self)).symm
          rw [bridged_prev, if_neg hxb, firstOf, if_neg hcy]
        · have hyc : y ∉ ys := (List.nodup_cons.mp (List.nodup_append.mp hrest).2.1).1
          have hcy : c ≠ y := fun heq => hyc (heq ▸ hc)
          have hcx := hxrest c (List.mem_append_right _ (List.mem_cons_of_mem _ hc))
          rw [bridged_prev, if_neg hcx, firstOf, if_neg hcy]

/-- A node is taken off its list. -/
theorem Represents.remove (h : Represents n L) (hu : u ∈ L l) :
    ∃ m, remove n (.node u) = some m ∧ Represents m (Function.update L l ((L l).erase u)) := by
  obtain ⟨as, bs, hL⟩ := List.append_of_mem hu
  have hnodup := h.nodup l
  have hpath := h.path l
  rw [hL, List.map_append, List.map_cons] at hpath
  obtain ⟨hleft, hright⟩ := path_append.mp hpath
  have herase : (L l).erase u = as ++ bs := by
    have hno : u ∉ as := by
      rw [hL] at hnodup
      exact fun hin => (List.nodup_append.mp hnodup).2.2 u hin u List.mem_cons_self rfl
    rw [hL, List.erase_append_right _ hno, List.erase_cons_head]
  have hsub : ∀ v, v ∈ (L l).erase u ↔ v ≠ u ∧ v ∈ L l := fun v => hnodup.mem_erase_iff
  -- the neighbours are sentinels of the list or nodes of it
  have hlast : ∀ c : Addr ι τ, c ≠ .head l → (∀ v ∈ L l, c ≠ .node v) →
      c ≠ lastOf (.head l) (as.map .node) := by
    rintro c hhead hnode rfl
    have hmem : lastOf (.head l) (as.map .node) ∈ .head l :: as.map .node := lastOf_mem
    rcases List.mem_cons.mp hmem with heq | hin
    · exact hhead heq
    · obtain ⟨v, hv, heq⟩ := List.mem_map.mp hin
      exact hnode v (hL ▸ List.mem_append_left _ hv) heq.symm
  have hfirst : ∀ c : Addr ι τ, c ≠ .tail l → (∀ v ∈ L l, c ≠ .node v) →
      c ≠ firstOf (.tail l) (bs.map .node) := by
    rintro c htail hnode rfl
    cases hbs : bs with
    | nil =>
        rw [hbs] at htail
        exact htail rfl
    | cons y ys =>
        rw [hbs] at hnode hL
        exact hnode y (hL ▸ List.mem_append_right _ (List.mem_cons_of_mem _ List.mem_cons_self)) rfl
  refine ⟨NeonixLinkedNodes.bridged n (lastOf (.head l) (as.map .node)) (.node u)
    (firstOf (.tail l) (bs.map .node)), remove_eq hleft.last_link.2 hright.first_link.1,
    fun k => ?_, fun k => ?_, fun k k' v hk hk' => ?_, fun v hv => ?_, fun k => ?_⟩
  · by_cases hk : k = l
    · subst hk
      rw [Function.update_self, herase, List.map_append]
      refine hpath.bridged ?_ ?_
      · rw [← List.map_cons, ← List.map_append, ← hL]
        refine List.nodup_cons.mpr ⟨?_, hnodup.map node_injective⟩
        exact fun hin => by
          obtain ⟨v, -, hv⟩ := List.mem_map.mp hin
          cases hv
      · rw [← List.map_cons, ← List.map_append]
        intro hin
        rcases List.mem_cons.mp hin with heq | hin
        · cases heq
        · obtain ⟨v, -, hv⟩ := List.mem_map.mp hin
          cases hv
    · rw [Function.update_of_ne hk]
      have huk : u ∉ L k := fun hin => hk (h.one k l u hin hu)
      refine h.others hk (fun c hhead hnode hcu => ?_) (fun c htail hnode hcu => ?_) huk
      · rw [bridged_next, if_neg hcu, if_neg (hlast c hhead hnode)]
      · rw [bridged_prev, if_neg hcu, if_neg (hfirst c htail hnode)]
  · by_cases hk : k = l
    · subst hk
      rw [Function.update_self]
      exact hnodup.erase u
    · rw [Function.update_of_ne hk]
      exact h.nodup k
  · have hin : ∀ j, v ∈ Function.update L l ((L l).erase u) j → v ∈ L j := by
      intro j hj
      rw [mem_update] at hj
      by_cases hjl : j = l
      · rw [if_pos hjl, hsub] at hj
        exact hjl ▸ hj.2
      · rw [if_neg hjl] at hj
        exact hj
    exact h.one k k' v (hin k hk) (hin k' hk')
  · by_cases hvu : v = u
    · subst hvu
      rw [bridged_next, bridged_prev, if_pos rfl, if_pos rfl]
      exact ⟨rfl, rfl⟩
    have hno : ∀ k, v ∉ L k := by
      intro k hk
      refine hv k (mem_update.mpr ?_)
      by_cases hkl : k = l
      · rw [if_pos hkl, hsub]
        exact ⟨hvu, hkl ▸ hk⟩
      · rw [if_neg hkl]
        exact hk
    have hvn : (Addr.node v : Addr ι τ) ≠ .node u := fun heq => hvu (Addr.node.inj heq)
    have hnode : ∀ w ∈ L l, (Addr.node v : Addr ι τ) ≠ .node w := fun w hw =>
      (node_ne hw (hno l)).symm
    rw [bridged_next, bridged_prev, if_neg hvn, if_neg hvn,
      if_neg (hlast _ (fun heq => by cases heq) hnode),
      if_neg (hfirst _ (fun heq => by cases heq) hnode)]
    exact h.alone v hno
  · have htail := hlast (.tail k) (fun heq => by cases heq) fun _ _ heq => by cases heq
    have hhead := hfirst (.head k) (fun heq => by cases heq) fun _ _ heq => by cases heq
    rw [bridged_next, bridged_prev, if_neg (fun heq => by cases heq), if_neg htail,
      if_neg (fun heq => by cases heq), if_neg hhead]
    exact h.ends k

/-- The last node of a list is taken off it. -/
theorem Represents.popBack (h : Represents n L) (hne : L l ≠ []) :
    ∃ u m, u ∈ L l ∧ popBack n l = some (.node u, m) ∧ n.prev (.tail l) = some (.node u) ∧
      Represents m (Function.update L l ((L l).erase u)) := by
  obtain ⟨us, u, hL⟩ : ∃ us u, L l = us ++ [u] :=
    ⟨_, _, (List.dropLast_append_getLast hne).symm⟩
  have hu : u ∈ L l := by
    rw [hL]
    exact List.mem_append_right _ List.mem_cons_self
  have hpath := h.path l
  rw [hL, List.map_append, List.map_cons, List.map_nil] at hpath
  have hprev : n.prev (.tail l) = some (.node u) := (path_append.mp hpath).2.2
  obtain ⟨m, hm, hrep⟩ := h.remove hu
  refine ⟨u, m, hu, ?_, hprev, hrep⟩
  rw [NeonixLinkedNodes.popBack, h.isEmpty, decide_eq_false hne, if_neg Bool.false_ne_true, hprev]
  show (NeonixLinkedNodes.remove n (.node u)).bind _ = _
  rw [hm]
  rfl

end NeonixLinkedNodes
