import Neonix.LinkedList
import Neonix.LinkedNodes

/-! # `lib/list.c`: every call of the lists

    The calls `LinkedNodes` leaves out, and one fact for all of them: a call puts
    a node between two neighbours or takes one from between two.  A node on no
    list may have any pointers here; `list_insert_sort` asserts that its node has
    none, which is so for a node that was removed. -/

namespace NeonixListCalls

open NeonixLinkedNodes
open NeonixLinkedList (insertSort insertSort_perm)

variable {ι τ : Type} {n m : Nodes ι τ} {a b c x y : Addr ι τ} {xs ys : List (Addr ι τ)}

section Calls

variable [DecidableEq ι] [DecidableEq τ]

/-- `list_init`. -/
def listInit (n : Nodes ι τ) (l : ι) : Nodes ι τ :=
  (((n.setPrev (.head l) none).setNext (.tail l) none).setNext (.head l) (some (.tail l))).setPrev
    (.tail l) (some (.head l))

/-- `list_insert_before`. -/
def insertBefore (n : Nodes ι τ) (anchor node : Addr ι τ) : Option (Nodes ι τ) := do
  let n := n.setPrev node (n.prev anchor)
  let n := n.setNext node (some anchor)
  let prev ← n.prev anchor
  let n := n.setNext prev (some node)
  return n.setPrev anchor (some node)

/-- `list_pushback`. -/
def pushBack (turns : Nat) (n : Nodes ι τ) (l : ι) (node : Addr ι τ) : Option (Nodes ι τ) := do
  let found ← search n l node turns
  if found = true then none else insertBefore n (.tail l) node

/-- `list_pop`: the node, and the list without it. -/
def pop (n : Nodes ι τ) (l : ι) : Option (Addr ι τ × Nodes ι τ) := do
  if isEmpty n l = true then none
  else
    let node ← n.next (.head l)
    return (node, ← remove n node)

/-- The loop of `list_size`. -/
def sizeFrom (n : Nodes ι τ) (l : ι) : (turns : Nat) → (size : BitVec 32) → Option (Addr ι τ) →
    Option (BitVec 32)
  | _, _, none => none
  | 0, _, _ => none
  | turns + 1, size, some next =>
      if next = .tail l then some size else sizeFrom n l turns (size + 1) (n.next next)

/-- `list_size`. -/
def size (turns : Nat) (n : Nodes ι τ) (l : ι) : Option (BitVec 32) :=
  sizeFrom n l turns 0 (n.next (.head l))

/-- The loop of `list_insert_sort`, from `ptr` on. -/
def sortAnchor (n : Nodes ι τ) (l : ι) (elementKey : Addr ι τ → BitVec 32) (key : BitVec 32) :
    (turns : Nat) → Option (Addr ι τ) → Option (Addr ι τ)
  | _, none => none
  | 0, _ => none
  | turns + 1, some ptr =>
      if ptr = .tail l then some (.tail l)
      else if (elementKey ptr).toInt > key.toInt then some ptr
      else sortAnchor n l elementKey key turns (n.next ptr)

/-- `list_insert_sort`, where `elementKey` reads the word at the offset from a
    node. -/
def listInsertSort (turns : Nat) (n : Nodes ι τ) (l : ι) (node : Addr ι τ)
    (elementKey : Addr ι τ → BitVec 32) : Option (Nodes ι τ) := do
  let anchor ← sortAnchor n l elementKey (elementKey node) turns (n.next (.head l))
  if n.next node = none ∧ n.prev node = none then insertBefore n anchor node else none

end Calls

/-! ## The addresses of the lists -/

theorem firstOf_mem : firstOf b xs ∈ b :: xs := by
  cases xs with
  | nil => exact List.mem_cons_self
  | cons x xs => exact List.mem_cons_of_mem _ List.mem_cons_self

/-- The part of a path up to the first node of its rest. -/
theorem Path.left (h : Path n a (xs ++ ys) b) : Path n a xs (firstOf b ys) := by
  cases ys with
  | nil =>
      rw [List.append_nil] at h
      exact h
  | cons y ys => exact (path_append.mp h).1

/-- The pointers are those of the lists. -/
structure Linked (n : Nodes ι τ) (L : ι → List τ) : Prop where
  path : ∀ l, Path n (.head l) ((L l).map .node) (.tail l)
  nodup : ∀ l, (L l).Nodup
  one : ∀ l l' x, x ∈ L l → x ∈ L l' → l = l'
  ends : ∀ l, n.next (.tail l) = none ∧ n.prev (.head l) = none

/-- The addresses of a list: its sentinels and its nodes. -/
def Own (L : ι → List τ) (l : ι) (c : Addr ι τ) : Prop :=
  c = .head l ∨ c = .tail l ∨ ∃ v ∈ L l, c = .node v

variable {L : ι → List τ} {l k : ι} {u v : τ} {us p q : List τ}

theorem own_path (hc : c ∈ .head l :: (L l).map .node ∨ c ∈ .tail l :: (L l).map .node) :
    Own L l c := by
  have hin : ∀ {c : Addr ι τ}, c ∈ (L l).map .node → Own L l c := by
    intro c hc
    obtain ⟨v, hv, rfl⟩ := List.mem_map.mp hc
    exact .inr (.inr ⟨v, hv, rfl⟩)
  rcases hc with hc | hc
  · rcases List.mem_cons.mp hc with rfl | hc
    · exact .inl rfl
    · exact hin hc
  · rcases List.mem_cons.mp hc with rfl | hc
    · exact .inr (.inl rfl)
    · exact hin hc

/-- Two lists have no address in common. -/
theorem Linked.apart (h : Linked n L) (hk : k ≠ l) (hc : Own L k c) : ¬ Own L l c := by
  rintro (rfl | rfl | ⟨v, hv, rfl⟩)
  · rcases hc with heq | heq | ⟨w, -, heq⟩
    · exact hk (Addr.head.inj heq).symm
    · cases heq
    · cases heq
  · rcases hc with heq | heq | ⟨w, -, heq⟩
    · cases heq
    · exact hk (Addr.tail.inj heq).symm
    · cases heq
  · rcases hc with heq | heq | ⟨w, hw, heq⟩
    · cases heq
    · cases heq
    · obtain rfl := Addr.node.inj heq
      exact hk (h.one k l _ hw hv)

/-- The neighbours of a place on a list. -/
theorem lastOf_own (hL : L l = p ++ q) : Own L l (lastOf (.head l) (p.map .node)) := by
  have hmem : lastOf (.head l) (p.map .node) ∈ (.head l :: p.map .node : List (Addr ι τ)) :=
    lastOf_mem
  rcases List.mem_cons.mp hmem with heq | hin
  · exact .inl heq
  · obtain ⟨v, hv, heq⟩ := List.mem_map.mp hin
    exact .inr (.inr ⟨v, hL ▸ List.mem_append_left _ hv, heq.symm⟩)

theorem firstOf_own (hL : L l = p ++ q) : Own L l (firstOf (.tail l) (q.map .node)) := by
  have hmem : firstOf (.tail l) (q.map .node) ∈ (.tail l :: q.map .node : List (Addr ι τ)) :=
    firstOf_mem
  rcases List.mem_cons.mp hmem with heq | hin
  · exact .inr (.inl heq)
  · obtain ⟨v, hv, heq⟩ := List.mem_map.mp hin
    exact .inr (.inr ⟨v, hL ▸ List.mem_append_right _ hv, heq.symm⟩)

theorem lastOf_ne_tail : lastOf (.head l) (p.map .node) ≠ (.tail k : Addr ι τ) := by
  intro heq
  have hmem : (.tail k : Addr ι τ) ∈ .head l :: p.map .node := heq ▸ lastOf_mem
  rcases List.mem_cons.mp hmem with heq | hin
  · cases heq
  · obtain ⟨v, -, heq⟩ := List.mem_map.mp hin
    cases heq

theorem firstOf_ne_head : firstOf (.tail l) (q.map .node) ≠ (.head k : Addr ι τ) := by
  intro heq
  have hmem : (.head k : Addr ι τ) ∈ .tail l :: q.map .node := heq ▸ firstOf_mem
  rcases List.mem_cons.mp hmem with heq | hin
  · cases heq
  · obtain ⟨v, -, heq⟩ := List.mem_map.mp hin
    cases heq

/-- The addresses of a list, from its head on, are different. -/
theorem path_nodup (hus : us.Nodup) :
    (.head l :: us.map .node : List (Addr ι τ)).Nodup ∧
      (.tail l : Addr ι τ) ∉ (.head l :: us.map .node : List (Addr ι τ)) := by
  refine ⟨List.nodup_cons.mpr ⟨fun hin => ?_, hus.map node_injective⟩, fun hin => ?_⟩
  · obtain ⟨v, -, heq⟩ := List.mem_map.mp hin
    cases heq
  · rcases List.mem_cons.mp hin with heq | hin
    · cases heq
    · obtain ⟨v, -, heq⟩ := List.mem_map.mp hin
      cases heq

theorem not_own_node (h : ∀ k, u ∉ L k) : ¬ Own L l (.node u) := by
  rintro (heq | heq | ⟨v, hv, heq⟩)
  · cases heq
  · cases heq
  · exact h l (Addr.node.inj heq ▸ hv)

/-! ## A node between two others -/

variable [DecidableEq ι] [DecidableEq τ]

/-- A path with a node more. -/
theorem Path.insert (h : Path n a (xs ++ ys) b) (hnodup : (a :: (xs ++ ys)).Nodup)
    (hb : b ∉ a :: (xs ++ ys)) (hx : x ∉ a :: (xs ++ ys)) (hxb : x ≠ b) :
    Path (inserted n (lastOf a xs) x (firstOf b ys)) a (xs ++ x :: ys) b := by
  have hleft := Path.left h
  have hin : ∀ d ∈ a :: xs, d ∈ a :: (xs ++ ys) := fun d hd =>
    show d ∈ (a :: xs) ++ ys from List.mem_append_left _ hd
  have hin' : ∀ d ∈ ys, d ∈ a :: (xs ++ ys) := fun d hd =>
    show d ∈ (a :: xs) ++ ys from List.mem_append_right _ hd
  obtain ⟨hnodupl, hnodupr, hdisj⟩ :=
    List.nodup_append.mp (show ((a :: xs) ++ ys).Nodup from hnodup)
  have hxin : ∀ d ∈ a :: (xs ++ ys), d ≠ x := fun d hd heq => hx (heq ▸ hd)
  have hfirst : ∀ d ∈ a :: xs, d ≠ firstOf b ys := by
    intro d hd heq
    rcases List.mem_cons.mp (heq ▸ firstOf_mem : d ∈ b :: ys) with rfl | hd'
    · exact hb (hin d hd)
    · exact hdisj d hd d hd' rfl
  have hlast : lastOf a xs ≠ x := hxin _ (hin _ lastOf_mem)
  have hxf : x ≠ firstOf b ys := by
    intro heq
    rcases List.mem_cons.mp (heq ▸ firstOf_mem : x ∈ b :: ys) with hx' | hx'
    · exact hxb hx'
    · exact hx (hin' x hx')
  -- the left part ends at the new node
  have hleft' : Path (inserted n (lastOf a xs) x (firstOf b ys)) a xs x := by
    refine hleft.redirect hnodupl (fun d hd hne => ?_) (fun d hd => ?_) ⟨?_, ?_⟩
    · rw [inserted_next, if_neg hne, if_neg (hxin d (hin d hd))]
    · have hd' := List.mem_cons_of_mem a hd
      rw [inserted_prev, if_neg (hfirst d hd'), if_neg (hxin d (hin d hd'))]
    · rw [inserted_next, if_pos rfl]
    · rw [inserted_prev, if_neg hxf, if_pos rfl]
  refine path_append.mpr ⟨hleft', ?_⟩
  have hnext : (inserted n (lastOf a xs) x (firstOf b ys)).next x = some (firstOf b ys) := by
    rw [inserted_next, if_neg hlast.symm, if_pos rfl]
  have hprev : (inserted n (lastOf a xs) x (firstOf b ys)).prev (firstOf b ys) = some x := by
    rw [inserted_prev, if_pos rfl]
  cases ys with
  | nil => exact ⟨hnext, hprev⟩
  | cons y ys =>
      refine ⟨⟨hnext, hprev⟩, (path_append.mp h).2.congr (fun d hd => ?_) fun d hd => ?_⟩
      · have hdl : d ≠ lastOf a xs := fun heq => hdisj _ lastOf_mem d hd heq.symm
        rw [inserted_next, if_neg hdl, if_neg (hxin d (hin' d hd))]
      · rcases List.mem_cons.mp hd with rfl | hd
        · have hdy : d ≠ y := fun heq => hb (heq ▸ hin' y List.mem_cons_self)
          rw [inserted_prev, firstOf, if_neg hdy, if_neg hxb.symm]
        · have hdy : d ≠ y := fun heq => (List.nodup_cons.mp hnodupr).1 (heq ▸ hd)
          have hd' := hin' d (List.mem_cons_of_mem _ hd)
          rw [inserted_prev, firstOf, if_neg hdy, if_neg (hxin d hd')]

omit [DecidableEq τ] in
/-- One list is changed, with the pointers of its own addresses and of one node
    that is on no other list: the other lists stay what they are. -/
theorem Linked.update (h : Linked n L) (hpath : Path m (.head l) (us.map .node) (.tail l))
    (hnodup : us.Nodup) (hown : ∀ v ∈ us, v = u ∨ v ∈ L l) (hu : ∀ k, k ≠ l → u ∉ L k)
    (hkept : ∀ c, ¬ Own L l c → c ≠ .node u → m.next c = n.next c ∧ m.prev c = n.prev c)
    (hends : m.next (.tail l) = none ∧ m.prev (.head l) = none) :
    Linked m (Function.update L l us) := by
  have hother : ∀ k, k ≠ l → ∀ v ∈ us, v ∉ L k := by
    intro k hk v hv hvk
    rcases hown v hv with rfl | hvl
    · exact hu k hk hvk
    · exact hk (h.one k l v hvk hvl)
  have hframe : ∀ k, k ≠ l → ∀ c, Own L k c → m.next c = n.next c ∧ m.prev c = n.prev c := by
    intro k hk c hc
    refine hkept c (h.apart hk hc) ?_
    rintro rfl
    rcases hc with heq | heq | ⟨v, hv, heq⟩
    · cases heq
    · cases heq
    · exact hu k hk (Addr.node.inj heq ▸ hv)
  refine ⟨fun k => ?_, fun k => ?_, fun j k v hj hk => ?_, fun k => ?_⟩
  · by_cases hk : k = l
    · subst hk
      rw [Function.update_self]
      exact hpath
    · rw [Function.update_of_ne hk]
      refine (h.path k).congr (fun c hc => ?_) fun c hc => ?_
      · exact (hframe k hk c (own_path (.inl hc))).1
      · exact (hframe k hk c (own_path (.inr hc))).2
  · by_cases hk : k = l
    · subst hk
      rw [Function.update_self]
      exact hnodup
    · rw [Function.update_of_ne hk]
      exact h.nodup k
  · rw [mem_update] at hj hk
    by_cases hjl : j = l
    · by_cases hkl : k = l
      · exact hjl.trans hkl.symm
      · rw [if_pos hjl] at hj
        rw [if_neg hkl] at hk
        exact absurd hk (hother k hkl v hj)
    · rw [if_neg hjl] at hj
      by_cases hkl : k = l
      · rw [if_pos hkl] at hk
        exact absurd hj (hother j hjl v hk)
      · rw [if_neg hkl] at hk
        exact h.one j k v hj hk
  · by_cases hk : k = l
    · subst hk
      exact hends
    · rw [(hframe k hk _ (.inr (.inl rfl))).1, (hframe k hk _ (.inl rfl)).2]
      exact h.ends k

/-- The pointers with a node at a place of a list. -/
def placed (n : Nodes ι τ) (l : ι) (u : τ) (p q : List τ) : Nodes ι τ :=
  inserted n (lastOf (.head l) (p.map .node)) (.node u) (firstOf (.tail l) (q.map .node))

/-- Only the list and the node get other pointers. -/
theorem placed_kept (hL : L l = p ++ q) (hc : ¬ Own L l c) (hcu : c ≠ .node u) :
    (placed n l u p q).next c = n.next c ∧ (placed n l u p q).prev c = n.prev c := by
  have hlast : c ≠ lastOf (.head l) (p.map .node) := fun heq => hc (heq ▸ lastOf_own hL)
  have hfirst : c ≠ firstOf (.tail l) (q.map .node) := fun heq => hc (heq ▸ firstOf_own hL)
  rw [placed, inserted_next, inserted_prev, if_neg hlast, if_neg hcu, if_neg hfirst, if_neg hcu]
  exact ⟨rfl, rfl⟩

/-- A node of no list is put at a place of a list. -/
theorem Linked.place (h : Linked n L) (hL : L l = p ++ q) (hu : ∀ k, u ∉ L k) :
    Linked (placed n l u p q) (Function.update L l (p ++ u :: q)) := by
  have hnodup := h.nodup l
  have hpath := h.path l
  have hno := hu l
  rw [hL] at hnodup hpath hno
  obtain ⟨hdistinct, htail⟩ := path_nodup (l := l) hnodup
  rw [List.map_append] at hpath hdistinct htail
  have hnew : (.node u : Addr ι τ) ∉ .head l :: (p.map .node ++ q.map .node) := by
    intro hin
    rcases List.mem_cons.mp hin with heq | hin
    · cases heq
    · rw [← List.map_append] at hin
      exact hno (mem_nodes.mp hin)
  have hplaced := Path.insert hpath hdistinct htail hnew (fun heq => by cases heq)
  refine h.update (u := u) ?_ ?_ (fun v hv => ?_) (fun k _ => hu k)
    (fun c hc hcu => placed_kept hL hc hcu) ⟨?_, ?_⟩
  · rw [List.map_append, List.map_cons]
    exact hplaced
  · exact List.perm_middle.nodup_iff.mpr (List.nodup_cons.mpr ⟨hno, hnodup⟩)
  · rw [hL]
    exact List.mem_cons.mp (List.perm_middle.mem_iff.mp hv)
  · rw [placed, inserted_next, if_neg lastOf_ne_tail.symm, if_neg (fun heq => by cases heq)]
    exact (h.ends l).1
  · rw [placed, inserted_prev, if_neg firstOf_ne_head.symm, if_neg (fun heq => by cases heq)]
    exact (h.ends l).2

/-- The pointers without a node of a list. -/
def taken (n : Nodes ι τ) (l : ι) (u : τ) (p q : List τ) : Nodes ι τ :=
  bridged n (lastOf (.head l) (p.map .node)) (.node u) (firstOf (.tail l) (q.map .node))

theorem taken_kept (hL : L l = p ++ u :: q) (hc : ¬ Own L l c) (hcu : c ≠ .node u) :
    (taken n l u p q).next c = n.next c ∧ (taken n l u p q).prev c = n.prev c := by
  have hL' : L l = (p ++ [u]) ++ q := by rw [hL, List.append_assoc, List.singleton_append]
  have hlast : c ≠ lastOf (.head l) (p.map .node) := fun heq => hc (heq ▸ lastOf_own hL)
  have hfirst : c ≠ firstOf (.tail l) (q.map .node) := fun heq => hc (heq ▸ firstOf_own hL')
  rw [taken, bridged_next, bridged_prev, if_neg hcu, if_neg hcu, if_neg hlast, if_neg hfirst]
  exact ⟨rfl, rfl⟩

/-- A node is taken from its place; then it has no pointers. -/
theorem Linked.take (h : Linked n L) (hL : L l = p ++ u :: q) :
    remove n (.node u) = some (taken n l u p q) ∧
      Linked (taken n l u p q) (Function.update L l (p ++ q)) ∧
      (taken n l u p q).next (.node u) = none ∧ (taken n l u p q).prev (.node u) = none := by
  have hnodup := h.nodup l
  have hpath := h.path l
  rw [hL] at hnodup hpath
  obtain ⟨hdistinct, htail⟩ := path_nodup (l := l) hnodup
  rw [List.map_append, List.map_cons] at hpath hdistinct htail
  obtain ⟨hleft, hright⟩ := path_append.mp hpath
  have hrest : (p ++ q).Nodup := (List.nodup_cons.mp (List.perm_middle.nodup_iff.mp hnodup)).2
  refine ⟨remove_eq hleft.last_link.2 hright.first_link.1, ?_, ?_, ?_⟩
  · refine h.update (u := u) ?_ hrest (fun v hv => .inr ?_) (fun k hk hin => ?_)
      (fun c hc hcu => taken_kept hL hc hcu) ⟨?_, ?_⟩
    · rw [List.map_append]
      exact hpath.bridged hdistinct htail
    · rw [hL]
      exact List.perm_middle.mem_iff.mpr (List.mem_cons_of_mem _ hv)
    · refine hk (h.one k l u hin ?_)
      rw [hL]
      exact List.mem_append_right _ List.mem_cons_self
    · rw [taken, bridged_next, if_neg (fun heq => by cases heq), if_neg lastOf_ne_tail.symm]
      exact (h.ends l).1
    · rw [taken, bridged_prev, if_neg (fun heq => by cases heq), if_neg firstOf_ne_head.symm]
      exact (h.ends l).2
  · rw [taken, bridged_next, if_pos rfl]
  · rw [taken, bridged_prev, if_pos rfl]

/-! ## What the loops find -/

omit [DecidableEq ι] [DecidableEq τ] in
/-- The neighbours of a place are linked. -/
theorem Linked.between (h : Linked n L) (hL : L l = p ++ q) :
    n.next (lastOf (.head l) (p.map .node)) = some (firstOf (.tail l) (q.map .node)) ∧
      n.prev (firstOf (.tail l) (q.map .node)) = some (lastOf (.head l) (p.map .node)) := by
  have hpath := h.path l
  rw [hL, List.map_append] at hpath
  exact (Path.left hpath).last_link

/-- `list_insert_before`, at a place of a list. -/
theorem Linked.insertBefore (h : Linked n L) (hL : L l = p ++ q) (hu : ∀ k, u ∉ L k) :
    insertBefore n (firstOf (.tail l) (q.map .node)) (.node u) = some (placed n l u p q) := by
  obtain ⟨b, hb⟩ : ∃ b, b = firstOf (.tail l) (q.map (.node : τ → Addr ι τ)) := ⟨_, rfl⟩
  have hne : b ≠ .node u := fun heq => not_own_node hu (heq ▸ hb ▸ firstOf_own hL)
  have hprev := (h.between hL).2
  rw [placed, ← hb]
  rw [← hb] at hprev
  have hkept : ((n.setPrev (.node u) (n.prev b)).setNext (.node u) (some b)).prev b =
      some (lastOf (.head l) (p.map .node)) := by
    rw [setNext_prev, setPrev_prev, if_neg hne, hprev]
  show (((n.setPrev (.node u) (n.prev b)).setNext (.node u) (some b)).prev b).bind _ = _
  rw [hkept, hprev]
  rfl

/-- `list_insert_after`, at a place of a list. -/
theorem Linked.insertAfter (h : Linked n L) (hL : L l = p ++ q) (hu : ∀ k, u ∉ L k) :
    insertAfter n (lastOf (.head l) (p.map .node)) (.node u) = some (placed n l u p q) := by
  refine insertAfter_eq (fun heq => ?_) (h.between hL).1
  have hown : Own L l (lastOf (.head l) (p.map .node)) := lastOf_own hL
  rw [heq] at hown
  exact not_own_node hu hown

/-- The loop of `list_size` counts the nodes it passes. -/
theorem sizeFrom_eq {s : BitVec 32} {turns : Nat} (h : Path n a (us.map .node) (.tail l))
    (hturns : us.length < turns) :
    sizeFrom n l turns s (n.next a) = some (s + BitVec.ofNat 32 us.length) := by
  induction us generalizing a s turns with
  | nil =>
      obtain ⟨k, rfl⟩ := Nat.exists_eq_succ_of_ne_zero (Nat.ne_zero_of_lt hturns)
      rw [h.1, sizeFrom, if_pos rfl]
      exact congrArg some (BitVec.add_zero s).symm
  | cons w ws ih =>
      obtain ⟨k, rfl⟩ := Nat.exists_eq_succ_of_ne_zero (Nat.ne_zero_of_lt hturns)
      rw [h.1.1, sizeFrom, if_neg (fun heq => by cases heq), ih h.2 (Nat.lt_of_succ_lt_succ hturns),
        List.length_cons, Nat.add_comm ws.length 1, BitVec.ofNat_add, BitVec.add_assoc]
      rfl

/-- `list_size`. -/
theorem Linked.size (h : Linked n L) {turns : Nat} (hturns : (L l).length < turns) :
    size turns n l = some (BitVec.ofNat 32 (L l).length) := by
  rw [NeonixListCalls.size, sizeFrom_eq (h.path l) hturns]
  exact congrArg some (BitVec.zero_add _)

/-- The signed keys of the nodes. -/
def keyOf (elementKey : Addr ι τ → BitVec 32) (v : τ) : Int := (elementKey (.node v)).toInt

/-- The loop of `list_insert_sort` passes the nodes whose keys are not greater. -/
theorem sortAnchor_eq {elementKey : Addr ι τ → BitVec 32} {key : BitVec 32} {turns : Nat}
    (h : Path n a (us.map .node) (.tail l)) (hturns : us.length < turns) :
    sortAnchor n l elementKey key turns (n.next a) = some (firstOf (.tail l)
      ((us.dropWhile fun v => keyOf elementKey v ≤ key.toInt).map .node)) := by
  induction us generalizing a turns with
  | nil =>
      obtain ⟨k, rfl⟩ := Nat.exists_eq_succ_of_ne_zero (Nat.ne_zero_of_lt hturns)
      rw [h.1, sortAnchor, if_pos rfl]
      rfl
  | cons w ws ih =>
      obtain ⟨k, rfl⟩ := Nat.exists_eq_succ_of_ne_zero (Nat.ne_zero_of_lt hturns)
      rw [h.1.1, sortAnchor, if_neg (fun heq => by cases heq), List.dropWhile_cons]
      by_cases hkey : (elementKey (.node w)).toInt > key.toInt
      · have hle : ¬ decide (keyOf elementKey w ≤ key.toInt) = true :=
          fun hx => Int.not_lt.mpr (of_decide_eq_true hx) hkey
        rw [if_pos hkey, if_neg hle]
        rfl
      · have hle : decide (keyOf elementKey w ≤ key.toInt) = true :=
          decide_eq_true (Int.not_lt.mp hkey)
        rw [if_neg hkey, if_pos hle]
        exact ih h.2 (Nat.lt_of_succ_lt_succ hturns)

end NeonixListCalls
