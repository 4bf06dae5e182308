import Mathlib.Data.List.Infix
import Mathlib.Data.List.Nodup
import Mathlib.Data.List.Pairwise
import Mathlib.Logic.Function.Basic

/-! # Doubly linked lists in a word memory

    A node is two words, `prev` and `next`, and a list is two nodes, its head and its
    tail.  `IsList m l xs` says that the nodes of the list at `l` are `xs`; a list is a
    fact about the words of its nodes, and the operations change no others. -/

namespace NeonixMemoryLists

/-- The words of a memory by their addresses. -/
abbrev Words : Type := Nat → Nat

def Words.store (m : Words) (a x : Nat) : Words := Function.update m a x

theorem store_apply (m : Words) (a x w : Nat) : m.store a x w = if w = a then x else m w :=
  Function.update_apply ..

/-! ## Operations

    `none` is an assertion that fails, a null pointer, or a search that is not over
    after its turns. -/

/-- `node->prev`. -/
def prevOf (m : Words) (node : Nat) : Nat := m node

/-- `node->next`. -/
def nextOf (m : Words) (node : Nat) : Nat := m (node + 4)

/-- `&list->tail`; the head is the list itself. -/
def tailOf (list : Nat) : Nat := list + 8

def setPrev (m : Words) (node x : Nat) : Option Words :=
  if node = 0 then none else some (m.store node x)

def setNext (m : Words) (node x : Nat) : Option Words :=
  if node = 0 then none else some (m.store (node + 4) x)

/-- `list_init`. -/
def listInit (m : Words) (list : Nat) : Option Words := do
  let m ← setPrev m list 0
  let m ← setNext m (tailOf list) 0
  let m ← setNext m list (tailOf list)
  setPrev m (tailOf list) list

/-- `list_insert_after`. -/
def listInsertAfter (m : Words) (anchor node : Nat) : Option Words := do
  let m ← setPrev m node anchor
  let m ← setNext m node (nextOf m anchor)
  let m ← setPrev m (nextOf m anchor) node
  setNext m anchor node

/-- The loop of `list_search`. -/
def searchFrom (m : Words) (list node : Nat) : (turns : Nat) → (next : Nat) → Option Bool
  | 0, _ => none
  | turns + 1, next =>
      if next = tailOf list then some false
      else if next = node then some true
      else searchFrom m list node turns (nextOf m next)

/-- `list_search`. -/
def listSearch (turns : Nat) (m : Words) (list node : Nat) : Option Bool :=
  searchFrom m list node turns (nextOf m list)

/-- `list_empty`. -/
def listEmpty (m : Words) (list : Nat) : Bool := decide (nextOf m list = tailOf list)

/-- `list_push`. -/
def listPush (turns : Nat) (m : Words) (list node : Nat) : Option Words := do
  let found ← listSearch turns m list node
  if found = true then none else listInsertAfter m list node

/-- `list_remove`. -/
def listRemove (m : Words) (node : Nat) : Option Words := do
  if prevOf m node = 0 ∨ nextOf m node = 0 then none
  else
    let m ← setNext m (prevOf m node) (nextOf m node)
    let m ← setPrev m (nextOf m node) (prevOf m node)
    let m ← setNext m node 0
    setPrev m node 0

/-- `list_pop`. -/
def listPop (m : Words) (list : Nat) : Option (Nat × Words) := do
  if listEmpty m list = true then none
  else
    let node := nextOf m list
    return (node, ← listRemove m node)

/-- The nodes of a list, for at most so many turns. -/
def walk (m : Words) (list : Nat) : (turns : Nat) → (next : Nat) → List Nat
  | 0, _ => []
  | turns + 1, next =>
      if next = tailOf list then [] else next :: walk m list turns (nextOf m next)

def nodesOf (turns : Nat) (m : Words) (list : Nat) : List Nat :=
  walk m list turns (nextOf m list)

/-! ## Links -/

variable {m m' : Words} {l x y z w turns : Nat} {xs ys pre post : List Nat}

/-- Each node is linked to the next one, both ways. -/
def Links (m : Words) : List Nat → Prop
  | x :: y :: rest => nextOf m x = y ∧ prevOf m y = x ∧ Links m (y :: rest)
  | _ => True

theorem links_append : ∀ {pre : List Nat},
    Links m (pre ++ x :: post) ↔ Links m (pre ++ [x]) ∧ Links m (x :: post)
  | [] => ⟨fun h => ⟨trivial, h⟩, fun h => h.2⟩
  | [a] => by
      show _ ∧ _ ∧ Links m (x :: post) ↔ (_ ∧ _ ∧ True) ∧ Links m (x :: post)
      tauto
  | a :: b :: pre => by
      have ih : Links m (b :: pre ++ x :: post) ↔ Links m (b :: pre ++ [x]) ∧ Links m (x :: post) :=
        links_append
      show _ ∧ _ ∧ Links m (b :: pre ++ x :: post) ↔
        (_ ∧ _ ∧ Links m (b :: pre ++ [x])) ∧ Links m (x :: post)
      rw [ih]
      tauto

/-- Links are about the `next` of all nodes but the last, and the `prev` of all but the
    first. -/
theorem Links.congr : ∀ {xs : List Nat}, Links m xs →
    (∀ a b, [a, b] <:+: xs → nextOf m' a = nextOf m a ∧ prevOf m' b = prevOf m b) → Links m' xs
  | [], _, _ => trivial
  | [_], _, _ => trivial
  | a :: b :: rest, ⟨hn, hp, hrest⟩, hsame => by
      obtain ⟨hna, hpb⟩ := hsame a b ⟨[], rest, rfl⟩
      refine ⟨hna.trans hn, hpb.trans hp, hrest.congr fun c d hcd => hsame c d ?_⟩
      exact hcd.trans (List.infix_cons List.infix_rfl)

/-- The two words of a node are none of another's. -/
def Apart (x y : Nat) : Prop := x + 8 ≤ y ∨ y + 8 ≤ x

theorem Apart.symm (h : Apart x y) : Apart y x := Or.symm h

instance : Std.Symm Apart := ⟨fun _ _ => Apart.symm⟩

/-- A word of no node. -/
def Outside (xs : List Nat) (w : Nat) : Prop := ∀ a ∈ xs, w ≠ a ∧ w ≠ a + 4

/-- A node is put between two others. -/
theorem Links.insert (h : Links m (pre ++ x :: z :: post)) (h1 : nextOf m' x = y)
    (h2 : prevOf m' y = x) (h3 : nextOf m' y = z) (h4 : prevOf m' z = y)
    (hsame : ∀ a b, [a, b] <:+: pre ++ [x] ∨ [a, b] <:+: z :: post →
      nextOf m' a = nextOf m a ∧ prevOf m' b = prevOf m b) :
    Links m' (pre ++ x :: y :: z :: post) := by
  obtain ⟨hpre, -, -, hpost⟩ := links_append.mp h
  refine links_append.mpr ⟨hpre.congr fun a b hab => hsame a b (Or.inl hab), h1, h2, h3, h4, ?_⟩
  exact hpost.congr fun a b hab => hsame a b (Or.inr hab)

/-- A node is taken out from between two others. -/
theorem Links.unlink (h : Links m (pre ++ x :: y :: z :: post)) (hn : nextOf m' x = z)
    (hp : prevOf m' z = x)
    (hsame : ∀ a b, [a, b] <:+: pre ++ [x] ∨ [a, b] <:+: z :: post →
      nextOf m' a = nextOf m a ∧ prevOf m' b = prevOf m b) :
    Links m' (pre ++ x :: z :: post) := by
  obtain ⟨hpre, -, -, -, -, hpost⟩ := links_append.mp h
  refine links_append.mpr ⟨hpre.congr fun a b hab => hsame a b (Or.inl hab), hn, hp, ?_⟩
  exact hpost.congr fun a b hab => hsame a b (Or.inr hab)

theorem mem_of_infix_cons {a b : Nat} (h : [a, b] <:+: z :: post) : a ∈ z :: post ∧ b ∈ post := by
  refine ⟨h.subset List.mem_cons_self, ?_⟩
  obtain ⟨s, t, heq⟩ := h
  cases s with
  | nil =>
      obtain ⟨-, rfl⟩ := List.cons.inj heq
      exact List.mem_cons_self
  | cons c s =>
      obtain ⟨-, rfl⟩ := List.cons.inj heq
      simp

theorem mem_of_infix_concat {a b : Nat} (h : [a, b] <:+: pre ++ [x]) :
    a ∈ pre ∧ b ∈ pre ++ [x] := by
  refine ⟨?_, h.subset (by simp)⟩
  rw [← List.reverse_infix, List.reverse_append] at h
  exact List.mem_reverse.mp (mem_of_infix_cons h).2

/-- A list with its nodes. -/
structure IsList (m : Words) (l : Nat) (xs : List Nat) : Prop where
  links : Links m (l :: (xs ++ [tailOf l]))
  spaced : (l :: (xs ++ [tailOf l])).Pairwise Apart
  pos : ∀ x ∈ l :: (xs ++ [tailOf l]), x ≠ 0

/-- A list is a fact about the words of its nodes. -/
theorem IsList.congr (h : IsList m l xs)
    (hsame : ∀ w, ¬ Outside (l :: (xs ++ [tailOf l])) w → m' w = m w) : IsList m' l xs := by
  refine ⟨h.links.congr fun a b hab => ⟨hsame _ fun hout => ?_, hsame _ fun hout => ?_⟩,
    h.spaced, h.pos⟩
  · exact (hout a (hab.subset List.mem_cons_self)).2 rfl
  · exact (hout b (hab.subset (by simp))).1 rfl

theorem IsList.nodup (h : IsList m l xs) : xs.Nodup := by
  have hxs := (List.pairwise_append.mp (List.pairwise_cons.mp h.spaced).2).1
  refine hxs.imp fun hab heq => ?_
  rw [Apart, heq] at hab
  omega

theorem IsList.tail_not_mem (h : IsList m l xs) : tailOf l ∉ xs := by
  intro hin
  have hapart := (List.pairwise_append.mp (List.pairwise_cons.mp h.spaced).2).2.2 _ hin _
    List.mem_cons_self
  rw [Apart] at hapart
  omega

/-! ## `list_search`, and the nodes of a list -/

theorem searchFrom_eq (hlinks : Links m (x :: (xs ++ [tailOf l]))) (htail : tailOf l ∉ xs)
    (hturns : xs.length < turns) :
    searchFrom m l y turns (nextOf m x) = some (decide (y ∈ xs)) := by
  induction xs generalizing x turns with
  | nil =>
      obtain ⟨k, rfl⟩ := Nat.exists_eq_succ_of_ne_zero (Nat.ne_zero_of_lt hturns)
      rw [show nextOf m x = tailOf l from hlinks.1, searchFrom, if_pos rfl,
        decide_eq_false List.not_mem_nil]
  | cons a xs ih =>
      obtain ⟨k, rfl⟩ := Nat.exists_eq_succ_of_ne_zero (Nat.ne_zero_of_lt hturns)
      have hne : a ≠ tailOf l := fun heq => htail (heq ▸ List.mem_cons_self)
      rw [show nextOf m x = a from hlinks.1, searchFrom, if_neg hne]
      by_cases hy : a = y
      · rw [if_pos hy, decide_eq_true (hy ▸ List.mem_cons_self)]
      · rw [if_neg hy, ih hlinks.2.2 (fun h => htail (List.mem_cons_of_mem _ h))
          (Nat.lt_of_succ_lt_succ hturns)]
        refine congrArg some (decide_eq_decide.mpr ?_)
        rw [List.mem_cons]
        exact ⟨Or.inr, fun h => h.resolve_left fun heq => hy heq.symm⟩

theorem IsList.search (h : IsList m l xs) (hturns : xs.length < turns) (y : Nat) :
    listSearch turns m l y = some (decide (y ∈ xs)) :=
  searchFrom_eq h.links h.tail_not_mem hturns

theorem walk_eq (hlinks : Links m (x :: (xs ++ [tailOf l]))) (htail : tailOf l ∉ xs)
    (hturns : xs.length < turns) : walk m l turns (nextOf m x) = xs := by
  induction xs generalizing x turns with
  | nil =>
      obtain ⟨k, rfl⟩ := Nat.exists_eq_succ_of_ne_zero (Nat.ne_zero_of_lt hturns)
      rw [show nextOf m x = tailOf l from hlinks.1, walk, if_pos rfl]
  | cons a xs ih =>
      obtain ⟨k, rfl⟩ := Nat.exists_eq_succ_of_ne_zero (Nat.ne_zero_of_lt hturns)
      have hne : a ≠ tailOf l := fun heq => htail (heq ▸ List.mem_cons_self)
      rw [show nextOf m x = a from hlinks.1, walk, if_neg hne, ih hlinks.2.2
        (fun h => htail (List.mem_cons_of_mem _ h)) (Nat.lt_of_succ_lt_succ hturns)]

theorem IsList.nodes (h : IsList m l xs) (hturns : xs.length < turns) : nodesOf turns m l = xs :=
  walk_eq h.links h.tail_not_mem hturns

theorem IsList.empty_iff (h : IsList m l xs) : listEmpty m l = decide (xs = []) := by
  refine decide_eq_decide.mpr ?_
  have htail := h.tail_not_mem
  have hlinks := h.links
  cases xs with
  | nil => exact ⟨fun _ => rfl, fun _ => hlinks.1⟩
  | cons a xs =>
      rw [show nextOf m l = a from hlinks.1]
      exact ⟨fun heq => absurd (heq ▸ List.mem_cons_self) htail, fun heq => by cases heq⟩

/-! ## `list_init` -/

theorem listInit_list (hl : l ≠ 0) : ∃ m', listInit m l = some m' ∧ IsList m' l [] ∧
    ∀ w, Outside [l, tailOf l] w → m' w = m w := by
  have htail : tailOf l ≠ 0 := Nat.succ_ne_zero _
  refine ⟨(((m.store l 0).store (tailOf l + 4) 0).store (l + 4) (tailOf l)).store (tailOf l) l, ?_,
    ⟨⟨?_, ?_, trivial⟩, ?_, ?_⟩, fun w hw => ?_⟩
  · simp only [listInit, setPrev, setNext, if_neg hl, if_neg htail, Option.bind_eq_bind,
      Option.bind_some]
  · rw [nextOf, store_apply, store_apply, if_pos rfl, if_neg]
    show ¬ l + 4 = l + 8
    omega
  · rw [prevOf, store_apply, if_pos rfl]
  · exact List.pairwise_pair.mpr (Or.inl (Nat.le_refl _))
  · intro x hx
    simp only [List.nil_append, List.mem_cons, List.not_mem_nil, or_false] at hx
    rcases hx with rfl | rfl
    · exact hl
    · exact htail
  · obtain ⟨h1, h2⟩ := hw l List.mem_cons_self
    obtain ⟨h3, h4⟩ := hw (tailOf l) (by simp)
    rw [store_apply, store_apply, store_apply, store_apply, if_neg h3, if_neg h2, if_neg h4,
      if_neg h1]

/-! ## `list_push` -/

/-- The memory with `y` between `x` and `z`. -/
def inserted (m : Words) (x y z : Nat) : Words :=
  (((m.store y x).store (y + 4) z).store z y).store (x + 4) y

theorem insertAfter_eq (hz : nextOf m x = z) (hxy : Apart x y) (hx : x ≠ 0) (hy : y ≠ 0)
    (hz0 : z ≠ 0) : listInsertAfter m x y = some (inserted m x y z) := by
  have h1 : nextOf (m.store y x) x = z := by
    rw [nextOf, store_apply, if_neg (by rw [Apart] at hxy; omega)]
    exact hz
  have h2 : nextOf ((m.store y x).store (y + 4) z) x = z := by
    rw [nextOf, store_apply, if_neg (by rw [Apart] at hxy; omega)]
    exact h1
  rw [listInsertAfter, setPrev, if_neg hy]
  show (setNext (m.store y x) y (nextOf (m.store y x) x)).bind _ = _
  rw [h1, setNext, if_neg hy]
  show (setPrev ((m.store y x).store (y + 4) z) (nextOf ((m.store y x).store (y + 4) z) x) y).bind _ = _
  rw [h2, setPrev, if_neg hz0]
  show setNext _ x y = _
  rw [setNext, if_neg hx]
  rfl

theorem inserted_apply : inserted m x y z w = if w = x + 4 then y else if w = z then y
    else if w = y + 4 then z else if w = y then x else m w := by
  simp only [inserted, store_apply]

/-- A node is put in front of a list. -/
theorem IsList.push (h : IsList m l xs) (hy : y ≠ 0)
    (hapart : ∀ x ∈ l :: (xs ++ [tailOf l]), Apart y x)
    (hturns : xs.length < turns) : ∃ m', listPush turns m l y = some m' ∧ IsList m' l (y :: xs) ∧
      ∀ w, Outside (l :: (y :: xs ++ [tailOf l])) w → m' w = m w := by
  have hno : y ∉ xs := by
    intro hin
    have hself := hapart y (List.mem_cons_of_mem _ (List.mem_append_left _ hin))
    rw [Apart] at hself
    omega
  obtain ⟨z, post, hchain⟩ : ∃ z post, xs ++ [tailOf l] = z :: post := by
    cases xs with
    | nil => exact ⟨_, _, rfl⟩
    | cons a xs => exact ⟨_, _, rfl⟩
  have hlinks := h.links
  have hspaced := h.spaced
  have hpos := h.pos
  rw [hchain] at hapart hlinks hspaced hpos
  obtain ⟨hl, hrest⟩ := List.pairwise_cons.mp hspaced
  obtain ⟨hzpost, -⟩ := List.pairwise_cons.mp hrest
  have hly := hapart l List.mem_cons_self
  have hzy := hapart z (by simp)
  have hlz := hl z List.mem_cons_self
  rw [Apart] at hly hzy hlz
  have hinsert : listInsertAfter m l y = some (inserted m l y z) :=
    insertAfter_eq hlinks.1 hly.symm (hpos l List.mem_cons_self) hy (hpos z (by simp))
  refine ⟨inserted m l y z, ?_, ⟨?_, ?_, ?_⟩, fun w hw => ?_⟩
  · rw [listPush, h.search hturns, decide_eq_false hno]
    exact hinsert
  · show Links _ (l :: y :: (xs ++ [tailOf l]))
    rw [hchain]
    have hfirst : Links m ([] ++ l :: z :: post) := hlinks
    refine hfirst.insert ?_ ?_ ?_ ?_ fun a b hab => ?_
    · rw [nextOf, inserted_apply, if_pos rfl]
    · rw [prevOf, inserted_apply, if_neg (by omega), if_neg (by omega), if_neg (by omega),
        if_pos rfl]
    · rw [nextOf, inserted_apply, if_neg (by omega), if_neg (by omega), if_pos rfl]
    · rw [prevOf, inserted_apply, if_neg (by omega), if_pos rfl]
    · rcases hab with hab | hab
      · have hle := hab.length_le
        simp at hle
      · -- nodes behind `z`, but for the `next` of `z` itself
        obtain ⟨ha, hb⟩ := mem_of_infix_cons hab
        have hal := hl a ha
        have hay := hapart a (List.mem_cons_of_mem _ ha)
        have hbl := hl b (List.mem_cons_of_mem _ hb)
        have hby := hapart b (List.mem_cons_of_mem _ (List.mem_cons_of_mem _ hb))
        have hbz := hzpost b hb
        have haz : a + 4 ≠ z := by
          rcases List.mem_cons.mp ha with rfl | ha
          · omega
          · have := hzpost a ha
            rw [Apart] at this
            omega
        rw [Apart] at hal hay hbl hby hbz
        constructor
        · rw [nextOf, nextOf, inserted_apply, if_neg (by omega), if_neg haz, if_neg (by omega),
            if_neg (by omega)]
        · rw [prevOf, prevOf, inserted_apply, if_neg (by omega), if_neg (by omega),
            if_neg (by omega),
            if_neg (by omega)]
  · show (l :: y :: (xs ++ [tailOf l])).Pairwise Apart
    rw [hchain]
    refine List.pairwise_cons.mpr ⟨fun a ha => ?_, List.pairwise_cons.mpr ⟨fun a ha => ?_, hrest⟩⟩
    · rcases List.mem_cons.mp ha with rfl | ha
      · exact hly.symm
      · exact hl a ha
    · exact hapart a (List.mem_cons_of_mem _ ha)
  · show ∀ a ∈ l :: y :: (xs ++ [tailOf l]), a ≠ 0
    rw [hchain]
    intro a ha
    rcases List.mem_cons.mp ha with rfl | ha
    · exact hpos a List.mem_cons_self
    · rcases List.mem_cons.mp ha with rfl | ha
      · exact hy
      · exact hpos a (List.mem_cons_of_mem _ ha)
  · change Outside (l :: y :: (xs ++ [tailOf l])) w at hw
    rw [hchain] at hw
    rw [inserted_apply, if_neg (hw l List.mem_cons_self).2, if_neg (hw z (by simp)).1,
      if_neg (hw y (by simp)).2, if_neg (hw y (by simp)).1]

/-! ## `list_remove` and `list_pop` -/

/-- The memory without `y`, which was between `x` and `z`. -/
def removed (m : Words) (x y z : Nat) : Words :=
  (((m.store (x + 4) z).store z x).store (y + 4) 0).store y 0

theorem remove_eq (hp : prevOf m y = x) (hn : nextOf m y = z) (hxy : Apart x y) (hx : x ≠ 0)
    (hy : y ≠ 0) (hz : z ≠ 0) : listRemove m y = some (removed m x y z) := by
  rw [Apart] at hxy
  have hn' : nextOf (m.store (x + 4) z) y = z := by
    rw [nextOf, store_apply, if_neg (by omega)]
    exact hn
  have hp' : prevOf (m.store (x + 4) z) y = x := by
    rw [prevOf, store_apply, if_neg (by omega)]
    exact hp
  simp only [listRemove, hp, hn, hx, hz, or_self, if_false, setNext, setPrev, hn', hp', if_neg hy,
    Option.bind_eq_bind, Option.bind_some, removed]

theorem removed_apply : removed m x y z w = if w = y then 0 else if w = y + 4 then 0
    else if w = z then x else if w = x + 4 then z else m w := by
  simp only [removed, store_apply]

/-- No `prev` is the `next` of a node. -/
theorem ne_next {L : List Nat} (h : L.Pairwise Apart) {a b : Nat} (ha : a ∈ L) (hb : b ∈ L) :
    a ≠ b + 4 := by
  by_cases hab : a = b
  · omega
  · have hapart := h.forall ha hb hab
    rw [Apart] at hapart
    omega

/-- A node is taken off its list. -/
theorem IsList.remove (h : IsList m l (xs ++ y :: ys)) : ∃ m', listRemove m y = some m' ∧
    IsList m' l (xs ++ ys) ∧ ∀ w, Outside (l :: (xs ++ y :: ys ++ [tailOf l])) w → m' w = m w := by
  obtain ⟨pre, x, hpre⟩ : ∃ pre x, l :: xs = pre ++ [x] :=
    ⟨_, _, (List.dropLast_append_getLast (List.cons_ne_nil l xs)).symm⟩
  obtain ⟨z, post, hpost⟩ : ∃ z post, ys ++ [tailOf l] = z :: post := by
    cases ys with
    | nil => exact ⟨_, _, rfl⟩
    | cons a ys => exact ⟨_, _, rfl⟩
  have hchain : l :: (xs ++ y :: ys ++ [tailOf l]) = pre ++ x :: y :: z :: post := by
    rw [List.append_assoc, List.cons_append, hpost, ← List.cons_append, hpre, List.append_assoc]
    rfl
  have hchain' : l :: (xs ++ ys ++ [tailOf l]) = pre ++ x :: z :: post := by
    rw [List.append_assoc, ← List.cons_append, hpre, List.append_assoc, hpost]
    rfl
  obtain ⟨hlinks, hspaced, hpos⟩ := h
  rw [hchain] at hlinks hspaced hpos ⊢
  have hnodup : (pre ++ x :: y :: z :: post).Nodup := by
    refine hspaced.imp fun hab heq => ?_
    rw [Apart, heq] at hab
    omega
  have hcross := fun {a b : Nat} => ne_next (a := a) (b := b) hspaced
  obtain ⟨-, hright, hdisj⟩ := List.nodup_append.mp hnodup
  obtain ⟨hx, hright⟩ := List.nodup_cons.mp hright
  obtain ⟨hy, hright⟩ := List.nodup_cons.mp hright
  obtain ⟨hz, -⟩ := List.nodup_cons.mp hright
  have hxin : x ∈ pre ++ x :: y :: z :: post := by simp
  have hyin : y ∈ pre ++ x :: y :: z :: post := by simp
  have hzin : z ∈ pre ++ x :: y :: z :: post := by simp
  have hxy : Apart x y := hspaced.forall hxin hyin fun heq =>
    hx (heq ▸ List.mem_cons_self)
  obtain ⟨-, hlink⟩ := links_append.mp hlinks
  have hremove : listRemove m y = some (removed m x y z) :=
    remove_eq hlink.2.1 hlink.2.2.1 hxy (hpos x hxin) (hpos y hyin) (hpos z hzin)
  refine ⟨removed m x y z, hremove, ⟨?_, ?_, ?_⟩, fun w hw => ?_⟩
  · rw [hchain']
    have hzy : z ≠ y := fun heq => hy (heq ▸ List.mem_cons_self)
    have hxy' : x ≠ y := fun heq => hx (heq ▸ List.mem_cons_self)
    refine hlinks.unlink ?_ ?_ fun a b hab => ?_
    · rw [nextOf, removed_apply, if_neg fun h => hcross hyin hxin h.symm, if_neg (by omega),
        if_neg fun h => hcross hzin hxin h.symm, if_pos rfl]
    · rw [prevOf, removed_apply, if_neg hzy, if_neg (hcross hzin hyin), if_pos rfl]
    · -- other nodes than `x` and `y` have their `next`, others than `y` and `z` their `prev`
      have hsame : a ∈ pre ++ x :: y :: z :: post → b ∈ pre ++ x :: y :: z :: post → a ≠ x → a ≠ y →
          b ≠ y → b ≠ z → nextOf (removed m x y z) a = nextOf m a ∧
            prevOf (removed m x y z) b = prevOf m b := by
        intro ha hb hax hay hby hbz
        constructor
        · rw [nextOf, removed_apply, if_neg fun h => hcross hyin ha h.symm, if_neg (by omega),
            if_neg fun h => hcross hzin ha h.symm, if_neg (by omega)]
          rfl
        · rw [prevOf, removed_apply, if_neg hby, if_neg (hcross hb hyin), if_neg hbz,
            if_neg (hcross hb hxin)]
          rfl
      rcases hab with hab | hab
      · obtain ⟨ha, hb⟩ := mem_of_infix_concat hab
        have hbin : b ∈ pre ∨ b = x := by simpa using hb
        refine hsame (List.mem_append_left _ ha) ?_ (hdisj a ha x (by simp)) (hdisj a ha y (by simp)) ?_ ?_
        · rcases hbin with hb | rfl
          · exact List.mem_append_left _ hb
          · exact hxin
        · rcases hbin with hb | rfl
          · exact hdisj b hb y (by simp)
          · exact hxy'
        · rcases hbin with hb | rfl
          · exact hdisj b hb z (by simp)
          · exact fun heq => hx (heq ▸ by simp)
      · obtain ⟨ha, hb⟩ := mem_of_infix_cons hab
        refine hsame (by simp at ha ⊢; tauto) (by simp; tauto) ?_ ?_ ?_ ?_
        · exact fun heq => hx (heq ▸ List.mem_cons_of_mem _ ha)
        · exact fun heq => hy (heq ▸ ha)
        · exact fun heq => hy (heq ▸ List.mem_cons_of_mem _ hb)
        · exact fun heq => hz (heq ▸ hb)
  · rw [hchain']
    refine hspaced.sublist ((List.append_sublist_append_left pre).mpr ?_)
    exact (List.sublist_cons_self y _).cons_cons x
  · rw [hchain']
    intro a ha
    refine hpos a ?_
    simp at ha ⊢
    tauto
  · rw [removed_apply, if_neg (hw y hyin).1, if_neg (hw y hyin).2, if_neg (hw z hzin).1,
      if_neg (hw x hxin).2]

/-- A node of a list is taken off it. -/
theorem IsList.erase (h : IsList m l xs) (hy : y ∈ xs) : ∃ m', listRemove m y = some m' ∧
    IsList m' l (xs.erase y) ∧ ∀ w, Outside (l :: (xs ++ [tailOf l])) w → m' w = m w := by
  obtain ⟨as, bs, rfl⟩ := List.append_of_mem hy
  have hno : y ∉ as := fun hin => (List.nodup_append.mp h.nodup).2.2 y hin y List.mem_cons_self rfl
  rw [List.erase_append_right _ hno, List.erase_cons_head]
  exact h.remove

/-- The first node is taken off a list. -/
theorem IsList.pop (h : IsList m l (y :: ys)) : ∃ m', listPop m l = some (y, m') ∧
    IsList m' l ys ∧ ∀ w, Outside (l :: (y :: ys ++ [tailOf l])) w → m' w = m w := by
  have hfirst : IsList m l ([] ++ y :: ys) := h
  obtain ⟨m', hremove, hlist, hsame⟩ := hfirst.remove
  refine ⟨m', ?_, hlist, hsame⟩
  rw [listPop, h.empty_iff, decide_eq_false (List.cons_ne_nil y ys), if_neg Bool.false_ne_true,
    show nextOf m l = y from h.links.1]
  show (listRemove m y).bind _ = _
  rw [hremove]
  rfl

end NeonixMemoryLists
