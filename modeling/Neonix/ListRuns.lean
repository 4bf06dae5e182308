import Neonix.ListCalls
import Neonix.Runs

/-! # `lib/list.c` implements finite sequences

    What the lists are for: a family of sequences without a node in common.  The
    calls of the sequences change one of them each; the calls on the pointers
    answer as they do and keep the pointers those of the sequences.  A loop gets
    a number of turns, and any that is greater than the length of the list will
    do. -/

namespace NeonixListRuns

open NeonixRuns NeonixLinkedNodes NeonixListCalls
open NeonixLinkedList (insertSort insertSort_eq sorted_insertSort dropWhile_greater)

variable {ι τ : Type}

inductive Call (ι τ : Type) where
  | push (l : ι) (u : τ)
  | pushBack (l : ι) (u : τ)
  | pop (l : ι)
  | popBack (l : ι)
  | insertBefore (anchor : Addr ι τ) (u : τ)
  | insertAfter (anchor : Addr ι τ) (u : τ)
  /-- `elementKey` is the word at the offset from a node -/
  | insertSort (l : ι) (u : τ) (elementKey : Addr ι τ → BitVec 32)
  | remove (u : τ)

/-! ## Sequences -/

/-- The sequences, and the nodes that have no pointers when they are on none. -/
structure Lists (ι τ : Type) where
  lists : ι → List τ
  clean : τ → Prop

variable [DecidableEq ι] [DecidableEq τ]

/-- A node in front of another. -/
def before (v u : τ) : List τ → List τ
  | [] => []
  | w :: ws => if w = v then u :: w :: ws else w :: before v u ws

/-- A node behind another. -/
def after (v u : τ) : List τ → List τ
  | [] => []
  | w :: ws => if w = v then w :: u :: ws else w :: after v u ws

namespace Lists

/-- The node is on no list. -/
def Loose (A : Lists ι τ) (u : τ) : Prop := ∀ l, u ∉ A.lists l

/-- One sequence is another. -/
def set (A : Lists ι τ) (l : ι) (us : List τ) : Lists ι τ :=
  { A with lists := Function.update A.lists l us }

/-- The node is left without pointers. -/
def freed (A : Lists ι τ) (u : τ) : Lists ι τ := { A with clean := fun v => v = u ∨ A.clean v }

/-- What a call answers, and the sequences it leaves. -/
def act (A : Lists ι τ) : Call ι τ → Option (Addr ι τ) × Lists ι τ
  | .push l u => (none, A.set l (u :: A.lists l))
  | .pushBack l u => (none, A.set l (A.lists l ++ [u]))
  | .pop l =>
      match A.lists l with
      | [] => (none, A)
      | u :: us => (some (.node u), (A.set l us).freed u)
  | .popBack l =>
      match (A.lists l).getLast? with
      | none => (none, A)
      | some u => (some (.node u), (A.set l (A.lists l).dropLast).freed u)
  | .insertBefore (.tail l) u => (none, A.set l (A.lists l ++ [u]))
  | .insertBefore (.node v) u => (none, { A with lists := fun l => before v u (A.lists l) })
  | .insertBefore (.head _) _ => (none, A)
  | .insertAfter (.head l) u => (none, A.set l (u :: A.lists l))
  | .insertAfter (.node v) u => (none, { A with lists := fun l => after v u (A.lists l) })
  | .insertAfter (.tail _) _ => (none, A)
  | .insertSort l u elementKey => (none, A.set l (insertSort (keyOf elementKey) u (A.lists l)))
  | .remove u => (none, Lists.freed { A with lists := fun l => (A.lists l).erase u } u)

/-- A node that goes on a list is on none, and one that leaves is on one; an
    anchor is on a list.  The node of `list_insert_sort` has no pointers. -/
def Allowed (A : Lists ι τ) (turns : Nat) : Call ι τ → Prop
  | .push l u | .pushBack l u => A.Loose u ∧ (A.lists l).length < turns
  | .pop l | .popBack l => A.lists l ≠ []
  | .insertBefore anchor u =>
      A.Loose u ∧ ∃ l, anchor = .tail l ∨ ∃ v ∈ A.lists l, anchor = .node v
  | .insertAfter anchor u =>
      A.Loose u ∧ ∃ l, anchor = .head l ∨ ∃ v ∈ A.lists l, anchor = .node v
  | .insertSort l u _ => A.Loose u ∧ A.clean u ∧ (A.lists l).length < turns
  | .remove u => ∃ l, u ∈ A.lists l

open Classical in
/-- A call of the sequences. -/
noncomputable def call (c : Nat × Call ι τ) (A : Lists ι τ) :
    Except Unit (Option (Addr ι τ) × Lists ι τ) :=
  if A.Allowed c.1 c.2 then .ok (A.act c.2) else .error ()

end Lists

/-! ## Calls on the pointers -/

/-- A call whose loop has so many turns. -/
def exec (turns : Nat) (n : Nodes ι τ) : Call ι τ → Option (Option (Addr ι τ) × Nodes ι τ)
  | .push l u => (push n l (.node u) turns).map (none, ·)
  | .pushBack l u => (pushBack turns n l (.node u)).map (none, ·)
  | .pop l => (pop n l).map fun r => (some r.1, r.2)
  | .popBack l => (popBack n l).map fun r => (some r.1, r.2)
  | .insertBefore anchor u => (insertBefore n anchor (.node u)).map (none, ·)
  | .insertAfter anchor u => (insertAfter n anchor (.node u)).map (none, ·)
  | .insertSort l u elementKey => (listInsertSort turns n l (.node u) elementKey).map (none, ·)
  | .remove u => (remove n (.node u)).map (none, ·)

def call (c : Nat × Call ι τ) (n : Nodes ι τ) : Except Unit (Option (Addr ι τ) × Nodes ι τ) :=
  match exec c.1 n c.2 with
  | none => .error ()
  | some r => .ok r

/-! ## The pointers are those of the sequences -/

variable {n : Nodes ι τ} {A : Lists ι τ} {l : ι} {u v : τ} {us p q : List τ} {turns : Nat}

/-- The pointers are those of the sequences, and the clean nodes on no sequence are
    those without pointers. -/
structure Models (n : Nodes ι τ) (A : Lists ι τ) : Prop where
  linked : Linked n A.lists
  clean : ∀ u, A.Loose u → (A.clean u ↔ n.next (.node u) = none ∧ n.prev (.node u) = none)

/-- A node goes to a place of a list. -/
theorem Models.place (h : Models n A) (hL : A.lists l = p ++ q) (hu : A.Loose u) :
    Models (placed n l u p q) (A.set l (p ++ u :: q)) := by
  refine ⟨h.linked.place hL hu, fun w hw => ?_⟩
  have hne : w ≠ u := by
    rintro rfl
    refine hw l (mem_update.mpr ?_)
    rw [if_pos rfl]
    exact List.mem_append_right _ List.mem_cons_self
  have hloose : A.Loose w := by
    intro k hk
    refine hw k (mem_update.mpr ?_)
    split
    · rename_i hkl
      have hwL : w ∈ p ++ q := hL ▸ hkl ▸ hk
      exact List.perm_middle.mem_iff.mpr (List.mem_cons_of_mem _ hwL)
    · exact hk
  obtain ⟨hnext, hprev⟩ := placed_kept (u := u) hL (not_own_node hloose)
    (fun heq => hne (node_injective heq))
  rw [hnext, hprev]
  exact h.clean w hloose

/-- A node leaves its place of a list. -/
theorem Models.take (h : Models n A) (hL : A.lists l = p ++ u :: q) :
    remove n (.node u) = some (taken n l u p q) ∧
      Models (taken n l u p q) ((A.set l (p ++ q)).freed u) := by
  obtain ⟨hremove, hlinked, hnext, hprev⟩ := h.linked.take hL
  refine ⟨hremove, hlinked, fun w hw => ?_⟩
  by_cases hwu : w = u
  · subst hwu
    exact ⟨fun _ => ⟨hnext, hprev⟩, fun _ => .inl rfl⟩
  have hloose : A.Loose w := by
    intro k hk
    refine hw k (mem_update.mpr ?_)
    split
    · rename_i hkl
      rw [hkl, hL] at hk
      rcases List.mem_cons.mp (List.perm_middle.mem_iff.mp hk) with hx | hx
      · exact absurd hx hwu
      · exact hx
    · exact hk
  obtain ⟨hn, hp⟩ := taken_kept hL (not_own_node hloose) (fun heq => hwu (node_injective heq))
  rw [hn, hp]
  refine Iff.trans ⟨fun hc => ?_, .inr⟩ (h.clean w hloose)
  exact hc.resolve_left hwu

/-! ## One call -/

omit [DecidableEq ι] in
theorem before_eq (hv : v ∉ p) : before v u (p ++ v :: q) = p ++ u :: v :: q := by
  induction p with
  | nil => exact if_pos rfl
  | cons w p ih =>
      have hne : w ≠ v := fun heq => hv (heq ▸ List.mem_cons_self)
      rw [List.cons_append, before, if_neg hne, ih fun h => hv (List.mem_cons_of_mem _ h)]
      rfl

omit [DecidableEq ι] in
theorem after_eq (hv : v ∉ p) : after v u (p ++ v :: q) = p ++ v :: u :: q := by
  induction p with
  | nil => exact if_pos rfl
  | cons w p ih =>
      have hne : w ≠ v := fun heq => hv (heq ▸ List.mem_cons_self)
      rw [List.cons_append, after, if_neg hne, ih fun h => hv (List.mem_cons_of_mem _ h)]
      rfl

omit [DecidableEq ι] in
theorem before_other (hv : v ∉ us) : before v u us = us := by
  induction us with
  | nil => rfl
  | cons w us ih =>
      have hne : w ≠ v := fun heq => hv (heq ▸ List.mem_cons_self)
      rw [before, if_neg hne, ih fun h => hv (List.mem_cons_of_mem _ h)]

omit [DecidableEq ι] in
theorem after_other (hv : v ∉ us) : after v u us = us := by
  induction us with
  | nil => rfl
  | cons w us ih =>
      have hne : w ≠ v := fun heq => hv (heq ▸ List.mem_cons_self)
      rw [after, if_neg hne, ih fun h => hv (List.mem_cons_of_mem _ h)]

omit [DecidableEq τ] in
/-- A change of each sequence that changes one of them only. -/
theorem eq_update {L : ι → List τ} {f : List τ → List τ} (hl : f (L l) = us)
    (hk : ∀ k, k ≠ l → f (L k) = L k) : (fun k => f (L k)) = Function.update L l us := by
  funext k
  by_cases h : k = l
  · rw [h, Function.update_self, hl]
  · rw [Function.update_of_ne h, hk k h]

omit [DecidableEq ι] [DecidableEq τ] in
/-- The place of a node that is on a list. -/
theorem Models.split (h : Models n A) (hv : v ∈ A.lists l) :
    ∃ p q, A.lists l = p ++ v :: q ∧ v ∉ p ∧ ∀ k, k ≠ l → v ∉ A.lists k := by
  obtain ⟨p, q, hL⟩ := List.append_of_mem hv
  have hnodup := h.linked.nodup l
  rw [hL] at hnodup
  have hno : v ∉ p := fun hin => (List.nodup_append.mp hnodup).2.2 v hin v List.mem_cons_self rfl
  exact ⟨p, q, hL, hno, fun k hk hvk => hk (h.linked.one k l v hvk hv)⟩

/-- A node that is on no list is not found. -/
theorem Models.search (h : Models n A) (hu : A.Loose u) (hturns : (A.lists l).length < turns) :
    search n l (.node u) turns = some false :=
  searchFrom_none (h.linked.path l) (hu l) hturns

theorem Models.isEmpty (h : Models n A) (hne : A.lists l ≠ []) : isEmpty n l = false := by
  obtain ⟨w, ws, hL⟩ := List.exists_cons_of_ne_nil hne
  have hfirst := (h.linked.between (l := l) (p := []) (q := w :: ws) hL).1
  refine decide_eq_false fun heq => ?_
  have hboth := Option.some.inj (hfirst.symm.trans heq)
  cases hboth

theorem Models.push (h : Models n A) (hu : A.Loose u) (hturns : (A.lists l).length < turns) :
    ∃ m, push n l (.node u) turns = some m ∧ Models m (A.set l (u :: A.lists l)) := by
  refine ⟨_, ?_, h.place (p := []) rfl hu⟩
  rw [NeonixLinkedNodes.push, h.search hu hturns]
  exact h.linked.insertAfter (p := []) rfl hu

/-- A node comes last on a list. -/
theorem Models.last (h : Models n A) (hu : A.Loose u) :
    insertBefore n (.tail l) (.node u) = some (placed n l u (A.lists l) []) ∧
      Models (placed n l u (A.lists l) []) (A.set l (A.lists l ++ [u])) := by
  have hL : A.lists l = A.lists l ++ [] := (List.append_nil _).symm
  exact ⟨h.linked.insertBefore hL hu, h.place hL hu⟩

theorem Models.pushBack (h : Models n A) (hu : A.Loose u) (hturns : (A.lists l).length < turns) :
    ∃ m, pushBack turns n l (.node u) = some m ∧ Models m (A.set l (A.lists l ++ [u])) := by
  refine ⟨_, ?_, (h.last hu).2⟩
  rw [NeonixListCalls.pushBack, h.search hu hturns]
  exact (h.last hu).1

theorem Models.pop (h : Models n A) (hL : A.lists l = u :: us) :
    ∃ m, pop n l = some (.node u, m) ∧ Models m ((A.set l us).freed u) := by
  obtain ⟨hremove, htake⟩ := h.take (p := []) hL
  refine ⟨_, ?_, htake⟩
  have hnext : n.next (.head l) = some (.node u) := (h.linked.between (p := []) hL).1
  rw [NeonixListCalls.pop, h.isEmpty (hL ▸ List.cons_ne_nil _ _), if_neg Bool.false_ne_true, hnext]
  show (NeonixLinkedNodes.remove n (.node u)).bind _ = _
  rw [hremove]
  rfl

omit [DecidableEq ι] [DecidableEq τ] in
theorem lastOf_concat {a b : Addr ι τ} {xs : List (Addr ι τ)} : lastOf a (xs ++ [b]) = b := by
  induction xs generalizing a with
  | nil => rfl
  | cons x xs ih => exact ih

theorem Models.popBack (h : Models n A) (hL : A.lists l = us ++ [u]) :
    ∃ m, popBack n l = some (.node u, m) ∧ Models m ((A.set l us).freed u) := by
  obtain ⟨hremove, htake⟩ := h.take (p := us) (q := []) hL
  rw [List.append_nil] at htake
  refine ⟨_, ?_, htake⟩
  have hprev := (h.linked.between (l := l) (p := us ++ [u]) (q := [])
    (by rw [hL, List.append_nil])).2
  rw [List.map_append, List.map_singleton, lastOf_concat] at hprev
  replace hprev : n.prev (.tail l) = some (.node u) := hprev
  have hne : A.lists l ≠ [] := by
    rw [hL]
    exact List.append_ne_nil_of_right_ne_nil _ (List.cons_ne_nil _ _)
  rw [NeonixLinkedNodes.popBack, h.isEmpty hne, if_neg Bool.false_ne_true, hprev]
  show (NeonixLinkedNodes.remove n (.node u)).bind _ = _
  rw [hremove]
  rfl

theorem Models.remove (h : Models n A) (hu : u ∈ A.lists l) :
    ∃ m, remove n (.node u) = some m ∧
      Models m (Lists.freed { A with lists := fun l => (A.lists l).erase u } u) := by
  obtain ⟨p, q, hL, hno, hother⟩ := h.split hu
  obtain ⟨hremove, htake⟩ := h.take hL
  refine ⟨_, hremove, ?_⟩
  have herase : (fun k => (A.lists k).erase u) = Function.update A.lists l (p ++ q) := by
    refine eq_update (f := fun us => us.erase u) ?_ fun k hk => ?_
    · rw [hL, List.erase_append_right _ hno, List.erase_cons_head]
    · exact List.erase_of_not_mem (hother k hk)
  rw [herase]
  exact htake

theorem Models.before (h : Models n A) (hu : A.Loose u) (hv : v ∈ A.lists l) :
    ∃ m, insertBefore n (.node v) (.node u) = some m ∧
      Models m { A with lists := fun l => before v u (A.lists l) } := by
  obtain ⟨p, q, hL, hno, hother⟩ := h.split hv
  refine ⟨_, h.linked.insertBefore hL hu, ?_⟩
  have hbefore : (fun k => NeonixListRuns.before v u (A.lists k)) =
      Function.update A.lists l (p ++ u :: v :: q) := by
    refine eq_update ?_ fun k hk => before_other (hother k hk)
    rw [hL, before_eq hno]
  rw [hbefore]
  exact h.place hL hu

theorem Models.after (h : Models n A) (hu : A.Loose u) (hv : v ∈ A.lists l) :
    ∃ m, insertAfter n (.node v) (.node u) = some m ∧
      Models m { A with lists := fun l => after v u (A.lists l) } := by
  obtain ⟨p, q, hL, hno, hother⟩ := h.split hv
  have hL' : A.lists l = (p ++ [v]) ++ q := by rw [hL, List.append_assoc, List.singleton_append]
  have hinsert := h.linked.insertAfter hL' hu
  rw [List.map_append, List.map_singleton, lastOf_concat] at hinsert
  refine ⟨_, hinsert, ?_⟩
  have hafter : (fun k => NeonixListRuns.after v u (A.lists k)) =
      Function.update A.lists l ((p ++ [v]) ++ u :: q) := by
    refine eq_update ?_ fun k hk => after_other (hother k hk)
    rw [hL, after_eq hno, List.append_assoc, List.singleton_append]
  rw [hafter]
  exact h.place hL' hu

theorem Models.insertSort (h : Models n A) (hu : A.Loose u) (hclean : A.clean u)
    (hturns : (A.lists l).length < turns) (elementKey : Addr ι τ → BitVec 32) :
    ∃ m, listInsertSort turns n l (.node u) elementKey = some m ∧
      Models m (A.set l (insertSort (keyOf elementKey) u (A.lists l))) := by
  have hL : A.lists l = (A.lists l).takeWhile (fun v => keyOf elementKey v ≤ keyOf elementKey u) ++
      (A.lists l).dropWhile fun v => keyOf elementKey v ≤ keyOf elementKey u :=
    List.takeWhile_append_dropWhile.symm
  refine ⟨_, ?_, insertSort_eq (keyOf elementKey) u (A.lists l) ▸ h.place hL hu⟩
  rw [listInsertSort, sortAnchor_eq (h.linked.path l) hturns]
  show (if n.next (.node u) = none ∧ n.prev (.node u) = none then _ else none) = _
  rw [if_pos ((h.clean u hu).mp hclean)]
  exact h.linked.insertBefore hL hu

/-- A call of the pointers answers as that of the sequences. -/
theorem Models.exec (h : Models n A) {c : Call ι τ} (hc : A.Allowed turns c) :
    ∃ m, exec turns n c = some ((A.act c).1, m) ∧ Models m (A.act c).2 := by
  cases c with
  | push l u =>
      obtain ⟨m, hm, hmodels⟩ := h.push hc.1 hc.2
      exact ⟨m, congrArg (Option.map (none, ·)) hm, hmodels⟩
  | pushBack l u =>
      obtain ⟨m, hm, hmodels⟩ := h.pushBack hc.1 hc.2
      exact ⟨m, congrArg (Option.map (none, ·)) hm, hmodels⟩
  | pop l =>
      obtain ⟨u, us, hL⟩ := List.exists_cons_of_ne_nil hc
      obtain ⟨m, hm, hmodels⟩ := h.pop hL
      have hact : A.act (.pop l) = (some (.node u), (A.set l us).freed u) := by
        rw [Lists.act, hL]
      rw [hact]
      refine ⟨m, ?_, hmodels⟩
      rw [NeonixListRuns.exec, hm]
      rfl
  | popBack l =>
      have hlast : A.lists l = (A.lists l).dropLast ++ [(A.lists l).getLast hc] :=
        (List.dropLast_append_getLast hc).symm
      obtain ⟨m, hm, hmodels⟩ := h.popBack hlast
      have hact : A.act (.popBack l) = (some (.node ((A.lists l).getLast hc)),
          (A.set l (A.lists l).dropLast).freed ((A.lists l).getLast hc)) := by
        rw [Lists.act, List.getLast?_eq_some_getLast hc]
      rw [hact]
      refine ⟨m, ?_, hmodels⟩
      rw [NeonixListRuns.exec, hm]
      rfl
  | insertBefore anchor u =>
      obtain ⟨hu, l, rfl | ⟨v, hv, rfl⟩⟩ := hc
      · exact ⟨_, congrArg (Option.map (none, ·)) (h.last hu).1, (h.last hu).2⟩
      · obtain ⟨m, hm, hmodels⟩ := h.before hu hv
        exact ⟨m, congrArg (Option.map (none, ·)) hm, hmodels⟩
  | insertAfter anchor u =>
      obtain ⟨hu, l, rfl | ⟨v, hv, rfl⟩⟩ := hc
      · refine ⟨_, congrArg (Option.map (none, ·)) (h.linked.insertAfter (p := []) rfl hu), ?_⟩
        exact h.place (p := []) rfl hu
      · obtain ⟨m, hm, hmodels⟩ := h.after hu hv
        exact ⟨m, congrArg (Option.map (none, ·)) hm, hmodels⟩
  | insertSort l u elementKey =>
      obtain ⟨m, hm, hmodels⟩ := h.insertSort hc.1 hc.2.1 hc.2.2 elementKey
      exact ⟨m, congrArg (Option.map (none, ·)) hm, hmodels⟩
  | remove u =>
      obtain ⟨l, hu⟩ := hc
      obtain ⟨m, hm, hmodels⟩ := h.remove hu
      exact ⟨m, congrArg (Option.map (none, ·)) hm, hmodels⟩

/-! ## Any calls -/

/-- `list_init` of a list, whatever the pointers were. -/
structure Ready (n : Nodes ι τ) (l : ι) : Prop where
  path : Path n (.head l) [] (.tail l)
  ends : n.next (.tail l) = none ∧ n.prev (.head l) = none

theorem listInit_next {c : Addr ι τ} : (listInit n l).next c =
    if c = .head l then some (.tail l) else if c = .tail l then none else n.next c := by
  simp only [listInit, setPrev_next, setNext_next]

theorem listInit_prev {c : Addr ι τ} : (listInit n l).prev c =
    if c = .tail l then some (.head l) else if c = .head l then none else n.prev c := by
  simp only [listInit, setNext_prev, setPrev_prev]

theorem ready_init : Ready (listInit n l) l := by
  refine ⟨⟨?_, ?_⟩, ?_, ?_⟩
  · rw [listInit_next, if_pos rfl]
  · rw [listInit_prev, if_pos rfl]
  · rw [listInit_next, if_neg (fun heq => by cases heq), if_pos rfl]
  · rw [listInit_prev, if_neg (fun heq => by cases heq), if_pos rfl]

/-- `list_init` of one list does not touch another. -/
theorem Ready.init {k : ι} (h : Ready n k) : Ready (listInit n l) k := by
  by_cases hk : k = l
  · exact hk ▸ ready_init
  have hhead : (.head k : Addr ι τ) ≠ .head l := fun heq => hk (Addr.head.inj heq)
  have htail : (.tail k : Addr ι τ) ≠ .tail l := fun heq => hk (Addr.tail.inj heq)
  refine ⟨⟨?_, ?_⟩, ?_, ?_⟩
  · rw [listInit_next, if_neg hhead, if_neg (fun heq => by cases heq)]
    exact h.path.1
  · rw [listInit_prev, if_neg htail, if_neg (fun heq => by cases heq)]
    exact h.path.2
  · rw [listInit_next, if_neg (fun heq => by cases heq), if_neg htail]
    exact h.ends.1
  · rw [listInit_prev, if_neg (fun heq => by cases heq), if_neg hhead]
    exact h.ends.2

theorem ready_all (ls : List ι) (n : Nodes ι τ) :
    (∀ l, Ready n l ∨ l ∈ ls → Ready (ls.foldl listInit n) l) ∧
      ∀ u, (ls.foldl listInit n).next (.node u) = n.next (.node u) ∧
        (ls.foldl listInit n).prev (.node u) = n.prev (.node u) := by
  induction ls generalizing n with
  | nil => exact ⟨fun l h => h.resolve_right List.not_mem_nil, fun _ => ⟨rfl, rfl⟩⟩
  | cons k ls ih =>
      obtain ⟨hready, hnodes⟩ := ih (listInit n k)
      refine ⟨fun l h => hready l ?_, fun u => ?_⟩
      · rcases h with h | h
        · exact .inl h.init
        · rcases List.mem_cons.mp h with rfl | h
          · exact .inl ready_init
          · exact .inr h
      · have hnext : (listInit n k).next (.node u) = n.next (.node u) := by
          rw [listInit_next, if_neg (fun heq => by cases heq), if_neg (fun heq => by cases heq)]
        have hprev : (listInit n k).prev (.node u) = n.prev (.node u) := by
          rw [listInit_prev, if_neg (fun heq => by cases heq), if_neg (fun heq => by cases heq)]
        rw [List.foldl_cons, (hnodes u).1, (hnodes u).2, hnext, hprev]
        exact ⟨rfl, rfl⟩

/-- After `list_init` of every list the sequences are empty. -/
theorem models_init (ls : List ι) (hall : ∀ l, l ∈ ls) (n : Nodes ι τ) :
    Models (ls.foldl listInit n)
      ⟨fun _ => [], fun u => n.next (.node u) = none ∧ n.prev (.node u) = none⟩ := by
  obtain ⟨hready, hnodes⟩ := ready_all ls n
  refine ⟨⟨fun l => (hready l (.inr (hall l))).path, fun _ => List.nodup_nil,
    fun _ _ _ hx => absurd hx List.not_mem_nil, fun l => (hready l (.inr (hall l))).ends⟩, ?_⟩
  intro u _
  rw [(hnodes u).1, (hnodes u).2]

theorem Models.call (c : Nat × Call ι τ) (n : Nodes ι τ) (A : Lists ι τ) (r : Option (Addr ι τ))
    (B : Lists ι τ) (h : Models n A) (hc : Lists.call c A = .ok (r, B)) :
    ∃ m, NeonixListRuns.call c n = .ok (r, m) ∧ Models m B := by
  rw [Lists.call] at hc
  by_cases hallowed : A.Allowed c.1 c.2
  · rw [if_pos hallowed] at hc
    have hact := Except.ok.inj hc
    obtain ⟨m, hm, hmodels⟩ := h.exec hallowed
    rw [hact] at hm hmodels
    refine ⟨m, ?_, hmodels⟩
    rw [NeonixListRuns.call, hm]
  · rw [if_neg hallowed] at hc
    cases hc

/-- No key is greater than one behind it. -/
def Sorted (elementKey : Addr ι τ → BitVec 32) (us : List τ) : Prop :=
  us.Pairwise fun v w => keyOf elementKey v ≤ keyOf elementKey w

/-- Any calls of the sequences are answered by the pointers, which are then those
    of the sequences; and `list_insert_sort` puts its node into a sorted list
    behind those of equal keys. -/
theorem lists_follow (h : Models n A) (calls : List (Nat × Call ι τ))
    (rs : List (Option (Addr ι τ)))
    (B : Lists ι τ) (hcalls : answers Lists.call calls A = .ok (rs, B)) :
    (∃ m, answers call calls n = .ok (rs, m) ∧ Models m B) ∧
      ∀ (C : Lists ι τ) (l : ι) (u : τ) (elementKey : Addr ι τ → BitVec 32),
        Sorted elementKey (C.lists l) →
          Sorted elementKey ((C.act (.insertSort l u elementKey)).2.lists l) ∧
            ∃ p q, C.lists l = p ++ q ∧
              (C.act (.insertSort l u elementKey)).2.lists l = p ++ u :: q ∧
              (∀ v ∈ p, keyOf elementKey v ≤ keyOf elementKey u) ∧
              ∀ v ∈ q, keyOf elementKey u < keyOf elementKey v := by
  refine ⟨answers_simulated Models.call calls n A rs B h hcalls, fun C l u elementKey hsorted => ?_⟩
  have hact : (C.act (.insertSort l u elementKey)).2.lists l =
      insertSort (keyOf elementKey) u (C.lists l) := Function.update_self ..
  rw [hact]
  refine ⟨sorted_insertSort hsorted, _, _, List.takeWhile_append_dropWhile.symm,
    insertSort_eq (keyOf elementKey) u (C.lists l), fun v hv => ?_, fun v hv => ?_⟩
  · exact of_decide_eq_true (List.all_eq_true.mp List.all_takeWhile v hv)
  · exact dropWhile_greater hsorted hv

theorem call_allowed {c : Call ι τ} (h : A.Allowed turns c) :
    Lists.call (turns, c) A = .ok (A.act c) := if_pos h

/-- Two nodes on one of two lists, of which the first moves to the other. -/
def moves : List (Nat × Call Bool Nat) :=
  [(1, .push false 7), (2, .insertSort false 8 fun _ => 0), (0, .pop false),
    (0, .insertAfter (.head true) 7), (0, .remove 8)]

theorem lists_follow_moves : ∃ m B,
    answers call moves ([false, true].foldl listInit ⟨fun _ => none, fun _ => none⟩) =
      .ok ([none, none, some (.node 7), none, none], m) ∧
    Models m B ∧ B.lists true = [7] ∧ B.lists false = [] := by
  have hempty := models_init [false, true] (fun l => by cases l <;> decide)
    (⟨fun _ => none, fun _ => none⟩ : Nodes Bool Nat)
  have hstart : Models _ (⟨fun _ => [], fun _ => True⟩ : Lists Bool Nat) :=
    ⟨hempty.linked, fun u hu => (iff_of_true trivial ⟨rfl, rfl⟩).trans (hempty.clean u hu)⟩
  have hfirst := call_allowed (A := (⟨fun _ => [], fun _ => True⟩ : Lists Bool Nat))
    (c := .push false 7) ⟨fun l => by cases l <;> decide, Nat.zero_lt_one⟩
  obtain ⟨m, hm, hmodels⟩ := (lists_follow hstart moves _ _
    (answers_cons hfirst
      (answers_cons (call_allowed ⟨fun l => by cases l <;> decide, by trivial, by decide⟩)
        (answers_cons (call_allowed (List.cons_ne_nil _ _))
          (answers_cons (call_allowed ⟨fun l => by cases l <;> decide, true, .inl rfl⟩)
            (answers_cons (call_allowed ⟨false, by decide⟩) rfl)))))).1
  exact ⟨m, _, hm, hmodels, rfl, rfl⟩

end NeonixListRuns
