import Neonix.ByteBits
import Neonix.Machine
import Neonix.Ring

/-! # `lib/fifo.c`: the byte queue

    A ring of `length` bytes that holds one byte less: `head` is where the next
    byte goes, `tail` where the oldest one is, and the two are equal where the
    queue is empty. -/

namespace NeonixFifo

open NeonixByteBits NeonixMachine NeonixRing

/-- `fifo_t`; both indices are inside the buffer. -/
structure Fifo where
  buf : Nat → Byte
  length : Nat
  head : Nat
  tail : Nat
  length_lt : length < 2 ^ 32
  head_lt : head < length
  tail_lt : tail < length

/-- `fifo_next`, in the arithmetic of `u32`. -/
def fifoNext (f : Fifo) (pos : Nat) : Nat := (pos + 1) % 2 ^ 32 % f.length

theorem fifoNext_lt (f : Fifo) (pos : Nat) : fifoNext f pos < f.length :=
  Nat.mod_lt _ (Nat.zero_lt_of_lt f.head_lt)

/-- `fifo_init` of a buffer that is not empty. -/
def fifoInit (buf : Nat → Byte) (length : Nat) (h0 : 0 < length) (hlt : length < 2 ^ 32) :
    Fifo where
  buf := buf
  length := length
  head := 0
  tail := 0
  length_lt := hlt
  head_lt := h0
  tail_lt := h0

/-- `fifo_full`. -/
def Fifo.Full (f : Fifo) : Prop := fifoNext f f.head = f.tail

/-- `fifo_empty`. -/
def Fifo.Empty (f : Fifo) : Prop := f.head = f.tail

instance (f : Fifo) : Decidable f.Full := inferInstanceAs (Decidable (_ = _))
instance (f : Fifo) : Decidable f.Empty := inferInstanceAs (Decidable (_ = _))

/-- `fifo->tail = fifo_next(fifo, fifo->tail)`. -/
def Fifo.drop (f : Fifo) : Fifo :=
  { f with tail := fifoNext f f.tail, tail_lt := fifoNext_lt f f.tail }

/-- The store of `fifo_put` and its move of `head`. -/
def Fifo.append (f : Fifo) (byte : Byte) : Fifo :=
  { f with
    buf := Function.update f.buf f.head byte
    head := fifoNext f f.head
    head_lt := fifoNext_lt f f.head }

/-- `fifo_get`. -/
def fifoGet (f : Fifo) : Res (Byte × Fifo) := do
  check (¬ f.Empty)
  return (f.buf f.tail, f.drop)

/-- The loop of `fifo_put`, in at most so many turns. -/
def makeRoom : Nat → Fifo → Res Fifo
  | 0, _ => .error .outOfBounds
  | n + 1, f =>
      if f.Full then do
        let (_, f) ← fifoGet f
        makeRoom n f
      else .ok f

/-- `fifo_put`. -/
def fifoPut (f : Fifo) (byte : Byte) : Res Fifo := do
  let f ← makeRoom (f.length + 1) f
  return f.append byte

/-! ## The queue a ring stands for -/

/-- The number of bytes in the queue. -/
def Fifo.used (f : Fifo) : Nat := (f.head + f.length - f.tail) % f.length

/-- The bytes in the queue, the oldest first. -/
def Fifo.contents (f : Fifo) : List Byte := segment f.buf f.length f.tail f.used

variable {f : Fifo}

theorem fifoNext_cases (f : Fifo) {pos : Nat} (h : pos < f.length) :
    pos + 1 < f.length ∧ fifoNext f pos = pos + 1 ∨ pos + 1 = f.length ∧ fifoNext f pos = 0 := by
  have hlt := f.length_lt
  have hword : (pos + 1) % 2 ^ 32 = pos + 1 := Nat.mod_eq_of_lt (by omega)
  rcases Nat.lt_or_eq_of_le h with hin | hend
  · refine Or.inl ⟨hin, ?_⟩
    rw [fifoNext, hword, Nat.mod_eq_of_lt hin]
  · refine Or.inr ⟨hend, ?_⟩
    rw [fifoNext, hword, show pos + 1 = f.length from hend, Nat.mod_self]

theorem used_cases (f : Fifo) :
    f.tail ≤ f.head ∧ f.used = f.head - f.tail ∨
      f.head < f.tail ∧ f.used = f.head + f.length - f.tail := by
  have hh := f.head_lt
  have ht := f.tail_lt
  by_cases h : f.tail ≤ f.head
  · refine Or.inl ⟨h, ?_⟩
    rw [Fifo.used, show f.head + f.length - f.tail = f.head - f.tail + f.length by omega,
      Nat.add_mod_right, Nat.mod_eq_of_lt (by omega)]
  · refine Or.inr ⟨by omega, ?_⟩
    rw [Fifo.used, Nat.mod_eq_of_lt (by omega)]

theorem used_lt (f : Fifo) : f.used < f.length :=
  Nat.mod_lt _ (Nat.zero_lt_of_lt f.head_lt)

@[simp] theorem length_contents (f : Fifo) : f.contents.length = f.used := length_segment

/-- The queue is empty where `fifo_empty` says so. -/
theorem empty_iff (f : Fifo) : f.Empty ↔ f.used = 0 := by
  have hcases := used_cases f
  have ht := f.tail_lt
  rw [Fifo.Empty]
  omega

theorem contents_eq_nil (f : Fifo) : f.contents = [] ↔ f.Empty := by
  rw [empty_iff, ← length_contents, List.length_eq_zero_iff]

/-- The queue is full where `fifo_full` says so: one cell stays free. -/
theorem full_iff (f : Fifo) : f.Full ↔ f.used + 1 = f.length := by
  have hcases := used_cases f
  have hnext := fifoNext_cases f f.head_lt
  have ht := f.tail_lt
  rw [Fifo.Full]
  omega

/-- The cell behind the queue. -/
theorem head_eq (f : Fifo) : (f.tail + f.used) % f.length = f.head := by
  have hh := f.head_lt
  rcases used_cases f with ⟨hle, hused⟩ | ⟨hlt, hused⟩
  · rw [hused, show f.tail + (f.head - f.tail) = f.head by omega, Nat.mod_eq_of_lt hh]
  · rw [hused, show f.tail + (f.head + f.length - f.tail) = f.head + f.length by
      have ht := f.tail_lt
      omega, Nat.add_mod_right, Nat.mod_eq_of_lt hh]

@[simp] theorem contents_init {buf : Nat → Byte} {length : Nat} (h0 : 0 < length)
    (hlt : length < 2 ^ 32) : (fifoInit buf length h0 hlt).contents = [] :=
  (contents_eq_nil _).mpr rfl

/-- The oldest byte leaves. -/
theorem contents_drop (h : ¬ f.Empty) : f.contents = f.buf f.tail :: f.drop.contents := by
  have hpos : f.used ≠ 0 := fun h0 => h ((empty_iff f).mpr h0)
  have hnext : f.drop.tail = fifoNext f f.tail := rfl
  have hused : f.used = f.drop.used + 1 := by
    have hcases := used_cases f
    have hcases' := used_cases f.drop
    have hwrap := fifoNext_cases f f.tail_lt
    have hhead : f.drop.head = f.head := rfl
    have hlength : f.drop.length = f.length := rfl
    have hh := f.head_lt
    omega
  have hmod : (f.tail + 1) % f.length = fifoNext f f.tail := by
    have hlt := f.length_lt
    have ht := f.tail_lt
    rw [fifoNext, show (f.tail + 1) % 2 ^ 32 = f.tail + 1 from Nat.mod_eq_of_lt (by omega)]
  rw [Fifo.contents, hused, segment_cons, Nat.mod_eq_of_lt f.tail_lt, ← segment_mod, hmod]
  rfl

/-- A full queue without its oldest byte is not full. -/
theorem drop_not_full (hne : ¬ f.Empty) (hf : f.Full) : ¬ f.drop.Full := by
  have hlen := congrArg List.length (contents_drop hne)
  rw [List.length_cons, length_contents, length_contents] at hlen
  rw [full_iff] at hf ⊢
  have hlength : f.drop.length = f.length := rfl
  omega

/-- A new byte stands last. -/
theorem contents_append (h : ¬ f.Full) (b : Byte) :
    (f.append b).contents = f.contents ++ [b] := by
  have hroom : f.used + 1 ≠ f.length := fun hx => h ((full_iff f).mpr hx)
  have hlt := used_lt f
  have hh := f.head_lt
  have ht := f.tail_lt
  have hcases := used_cases f
  have hused : (f.append b).used = f.used + 1 := by
    have hcases' := used_cases (f.append b)
    have hwrap := fifoNext_cases f f.head_lt
    have hhead : (f.append b).head = fifoNext f f.head := rfl
    have htail : (f.append b).tail = f.tail := rfl
    have hlength : (f.append b).length = f.length := rfl
    omega
  have hbuf : (f.append b).buf = Function.update f.buf f.head b := rfl
  have hout : ∀ i < f.used, (f.tail + i) % f.length ≠ f.head := by
    -- the bytes of the queue lie before the cell behind it
    intro i hi hx
    by_cases hwrap : f.tail + i < f.length
    · rw [Nat.mod_eq_of_lt hwrap] at hx
      omega
    · rw [Nat.mod_eq_sub_mod (by omega), Nat.mod_eq_of_lt (by omega)] at hx
      omega
  calc (f.append b).contents
      = segment (Function.update f.buf f.head b) f.length f.tail (f.used + 1) := by
        rw [Fifo.contents, hused, hbuf]
        rfl
    _ = segment (Function.update f.buf f.head b) f.length f.tail f.used ++ [b] := by
        rw [segment_concat, head_eq, Function.update_self]
    _ = f.contents ++ [b] := by
        rw [segment_store hout]
        rfl

/-- `fifo_get` takes the oldest byte. -/
theorem fifoGet_ok (h : ¬ f.Empty) : fifoGet f = .ok (f.buf f.tail, f.drop) := by
  rw [fifoGet, check_pos h]
  rfl

/-- `fifo_put` adds a byte where there is room. -/
theorem fifoPut_ok (h : ¬ f.Full) (b : Byte) : fifoPut f b = .ok (f.append b) := by
  rw [fifoPut, makeRoom, if_neg h]
  rfl

end NeonixFifo
