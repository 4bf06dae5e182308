import Neonix.Fifo
import Neonix.Runs

/-! # `lib/fifo.c` implements a bounded queue

    What the ring is for: a queue of at most `capacity` elements, and to put one
    into a full queue drops the oldest.  Each call of the ring answers as the
    queue does, so every list of calls does; a `fifo_get` of the empty queue is
    the one call neither answers. -/

namespace NeonixFifoQueues

open NeonixByteBits NeonixMachine NeonixRuns NeonixFifo

/-! ## The queue -/

/-- A queue of so many elements at most, the oldest first. -/
structure Queue (α : Type) (capacity : Nat) where
  items : List α
  room : items.length ≤ capacity

inductive Call (α : Type) where
  | put (a : α)
  | get

namespace Queue

variable {α : Type} {capacity : Nat}

def empty (α : Type) (capacity : Nat) : Queue α capacity := ⟨[], Nat.zero_le _⟩

/-- A new element comes last; the oldest one leaves a full queue. -/
def put (q : Queue α capacity) (a : α) (h : 0 < capacity) : Queue α capacity where
  items := (if q.items.length = capacity then q.items.tail else q.items) ++ [a]
  room := by
    have hroom := q.room
    split
    · rw [List.length_append, List.length_tail, List.length_singleton]
      omega
    · rw [List.length_append, List.length_singleton]
      omega

theorem items_put_full {q : Queue α capacity} {a : α} {h : 0 < capacity}
    (hq : q.items.length = capacity) : (q.put a h).items = q.items.tail ++ [a] := by
  show (if q.items.length = capacity then q.items.tail else q.items) ++ [a] = q.items.tail ++ [a]
  rw [if_pos hq]

theorem items_put_room {q : Queue α capacity} {a : α} {h : 0 < capacity}
    (hq : q.items.length ≠ capacity) : (q.put a h).items = q.items ++ [a] := by
  show (if q.items.length = capacity then q.items.tail else q.items) ++ [a] = q.items ++ [a]
  rw [if_neg hq]

/-- The oldest element, and the queue without it. -/
def get (q : Queue α capacity) : Option (α × Queue α capacity) :=
  match q with
  | ⟨[], _⟩ => none
  | ⟨a :: items, h⟩ => some (a, ⟨items, Nat.le_of_succ_le h⟩)

/-- A call of the queue: an element is the answer to `get` only. -/
def call (h : 0 < capacity) : Call α → Queue α capacity → Except Unit (Option α × Queue α capacity)
  | .put a, q => .ok (none, q.put a h)
  | .get, q =>
      match q.get with
      | none => .error ()
      | some (a, q) => .ok (some a, q)

end Queue

/-! ## The ring -/

/-- A call of the ring. -/
def call : Call Byte → Fifo → Res (Option Byte × Fifo)
  | .put byte, f => do
      let f ← fifoPut f byte
      return (none, f)
  | .get, f => do
      let (byte, f) ← fifoGet f
      return (some byte, f)

variable {f g : Fifo} {byte : Byte} {capacity : Nat}

/-- A full queue holds a byte. -/
theorem full_nonempty (h2 : 2 ≤ f.length) (hf : f.Full) : ¬ f.Empty := by
  rw [empty_iff]
  rw [full_iff] at hf
  omega

/-- The loop of `fifo_put` ends with its second test at the latest. -/
theorem makeRoom_full (h2 : 2 ≤ f.length) (hf : f.Full) {n : Nat} :
    makeRoom (n + 2) f = .ok f.drop := by
  have hne := full_nonempty h2 hf
  rw [makeRoom, if_pos hf, fifoGet_ok hne]
  show makeRoom (n + 1) f.drop = .ok f.drop
  rw [makeRoom, if_neg (drop_not_full hne hf)]

/-- `fifo_put` into a full queue. -/
theorem fifoPut_full (h2 : 2 ≤ f.length) (hf : f.Full) :
    fifoPut f byte = .ok (f.drop.append byte) := by
  obtain ⟨n, hn⟩ : ∃ n, f.length + 1 = n + 2 := ⟨f.length - 1, by omega⟩
  rw [fifoPut, hn, makeRoom_full h2 hf]
  rfl

/-- The ring holds what the queue holds. -/
structure Holds (f : Fifo) (q : Queue Byte capacity) : Prop where
  length : f.length = capacity + 1
  contents : f.contents = q.items

theorem Holds.empty_iff {q : Queue Byte capacity} (h : Holds f q) :
    f.Empty ↔ q.items.length = 0 := by
  rw [← h.contents, length_contents]
  exact NeonixFifo.empty_iff f

theorem Holds.full_iff {q : Queue Byte capacity} (h : Holds f q) :
    f.Full ↔ q.items.length = capacity := by
  rw [NeonixFifo.full_iff, ← h.contents, length_contents, h.length]
  omega

/-- `fifo_put` puts. -/
theorem Holds.put {q : Queue Byte capacity} (h : Holds f q) (h0 : 0 < capacity) (byte : Byte) :
    ∃ g, fifoPut f byte = .ok g ∧ Holds g (q.put byte h0) := by
  have h2 : 2 ≤ f.length := by
    rw [h.length]
    omega
  by_cases hf : f.Full
  · have hne := full_nonempty h2 hf
    refine ⟨f.drop.append byte, fifoPut_full h2 hf, h.length, ?_⟩
    have htail : f.drop.contents = q.items.tail := by
      rw [← h.contents, contents_drop hne, List.tail_cons]
    rw [contents_append (drop_not_full hne hf), htail, Queue.items_put_full (h.full_iff.mp hf)]
  · refine ⟨f.append byte, fifoPut_ok hf byte, h.length, ?_⟩
    rw [contents_append hf, h.contents, Queue.items_put_room fun hx => hf (h.full_iff.mpr hx)]

/-- `fifo_get` gets. -/
theorem Holds.get {q r : Queue Byte capacity} (h : Holds f q) (hget : q.get = some (byte, r)) :
    ∃ g, fifoGet f = .ok (byte, g) ∧ Holds g r := by
  obtain ⟨items, room⟩ := q
  cases items with
  | nil => cases hget
  | cons b items =>
      obtain ⟨rfl, rfl⟩ := Prod.mk.inj (Option.some.inj hget)
      have hne : ¬ f.Empty := fun hx => by cases h.empty_iff.mp hx
      have hcontents := h.contents
      rw [contents_drop hne] at hcontents
      obtain ⟨hb, hrest⟩ := List.cons.inj hcontents
      refine ⟨f.drop, ?_, h.length, hrest⟩
      rw [fifoGet_ok hne, hb]

/-- Each call of the ring answers as the queue does. -/
theorem Holds.call (h0 : 0 < capacity) (c : Call Byte) (f : Fifo) (q : Queue Byte capacity)
    (r : Option Byte) (q' : Queue Byte capacity) (h : Holds f q)
    (hcall : Queue.call h0 c q = .ok (r, q')) :
    ∃ g, NeonixFifoQueues.call c f = .ok (r, g) ∧ Holds g q' := by
  cases c with
  | put byte =>
      obtain ⟨rfl, rfl⟩ := Prod.mk.inj (Except.ok.inj hcall)
      obtain ⟨g, hput, hg⟩ := h.put h0 byte
      refine ⟨g, ?_, hg⟩
      rw [NeonixFifoQueues.call, hput]
      rfl
  | get =>
      rw [Queue.call] at hcall
      cases hget : q.get with
      | none =>
          rw [hget] at hcall
          cases hcall
      | some x =>
          obtain ⟨byte, q₁⟩ := x
          rw [hget] at hcall
          obtain ⟨rfl, rfl⟩ := Prod.mk.inj (Except.ok.inj hcall)
          obtain ⟨g, hfifo, hg⟩ := h.get hget
          refine ⟨g, ?_, hg⟩
          rw [NeonixFifoQueues.call, hfifo]
          rfl

/-- The loop of `fifo_put` ends, in whatever many turns from two on. -/
theorem makeRoom_ends (h2 : 2 ≤ f.length) {n : Nat} (hn : 2 ≤ n) :
    makeRoom n f = .ok (if f.Full then f.drop else f) := by
  obtain ⟨n, rfl⟩ : ∃ m, n = m + 2 := ⟨n - 2, by omega⟩
  by_cases hf : f.Full
  · rw [if_pos hf, makeRoom_full h2 hf]
  · rw [if_neg hf, makeRoom, if_neg hf]

/-- After `fifo_init` and any calls the queue answers, the ring has given the
    same answers and holds what the queue holds. -/
theorem fifo_refines (buf : Nat → Byte) (length : Nat) (h2 : 2 ≤ length) (hlt : length < 2 ^ 32)
    (calls : List (Call Byte)) (rs : List (Option Byte)) (q : Queue Byte (length - 1))
    (hq : answers (Queue.call (Nat.sub_pos_of_lt h2)) calls (Queue.empty Byte (length - 1)) =
      .ok (rs, q)) :
    ∃ f, answers call calls (fifoInit buf length (Nat.zero_lt_of_lt h2) hlt) = .ok (rs, f) ∧
      f.contents = q.items ∧ (f.Empty ↔ q.items.length = 0) ∧
      (f.Full ↔ q.items.length = length - 1) ∧ f.head < length ∧ f.tail < length ∧
      ∀ n, 2 ≤ n → makeRoom n f = .ok (if f.Full then f.drop else f) := by
  have hstart : Holds (fifoInit buf length (Nat.zero_lt_of_lt h2) hlt)
      (Queue.empty Byte (length - 1)) := by
    refine ⟨?_, contents_init _ hlt⟩
    show length = length - 1 + 1
    omega
  obtain ⟨f, hf, h⟩ := answers_simulated (Holds.call (Nat.sub_pos_of_lt h2)) calls _ _ rs q hstart hq
  have hlength : f.length = length := by
    rw [h.length]
    omega
  refine ⟨f, hf, h.contents, h.empty_iff, h.full_iff, ?_, ?_, ?_⟩
  · exact hlength ▸ f.head_lt
  · exact hlength ▸ f.tail_lt
  · intro n hn
    exact makeRoom_ends (hlength.symm ▸ h2) hn

/-- A ring of three bytes that is filled twice over and then read. -/
theorem fifo_refines_wrapped : ∃ f, answers call [.put 1, .put 2, .put 3, .get, .put 4, .put 5, .get]
      (fifoInit (fun _ => 0) 3 (by omega) (by omega)) =
        .ok ([none, none, none, some 2, none, none, some 4], f) ∧
      f.contents = [5] ∧ (f.Empty ↔ [(5 : Byte)].length = 0) ∧
      (f.Full ↔ [(5 : Byte)].length = 3 - 1) ∧
      f.head < 3 ∧ f.tail < 3 ∧ ∀ n, 2 ≤ n → makeRoom n f = .ok (if f.Full then f.drop else f) :=
  fifo_refines (fun _ => 0) 3 (by omega) (by omega)
    [.put 1, .put 2, .put 3, .get, .put 4, .put 5, .get] _ ⟨[5], by decide⟩ rfl

end NeonixFifoQueues
