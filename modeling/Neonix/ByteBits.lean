import Mathlib.Algebra.Ring.Int.Defs
import Mathlib.Algebra.Ring.Nat
import Mathlib.Logic.Function.Basic

/-! # Bits of a byte sequence

    A byte sequence `Nat → BitVec 8` read as a sequence of bits, least
    significant bit of each byte first.  `putBit` is the masked byte update
    every bitmap uses; two byte sequences with the same bits are equal, so
    facts about single bits lift to facts about whole buffers. -/

namespace NeonixByteBits

abbrev Byte := BitVec 8

abbrev Bytes := Nat → Byte

/-- Bit `k` of a byte sequence. -/
def bitAt (b : Bytes) (k : Nat) : Bool := (b (k / 8)).getLsbD (k % 8)

/-- One byte with bit `i` forced to `v`. -/
def maskByte (x : Byte) (i : Nat) (v : Bool) : Byte :=
  if v then x ||| (1#8 <<< i) else x &&& ~~~(1#8 <<< i)

/-- The byte sequence with bit `k` forced to `v`. -/
def putBit (b : Bytes) (k : Nat) (v : Bool) : Bytes :=
  Function.update b (k / 8) (maskByte (b (k / 8)) (k % 8) v)

private theorem one_shift_getLsbD (i j : Nat) (hj : j < 8) :
    (1#8 <<< i).getLsbD j = decide (i = j) := by
  rw [← BitVec.twoPow_eq, BitVec.getLsbD_twoPow]
  by_cases h : i = j
  · subst h
    simp [hj]
  · simp [h]

/-- A masked byte differs from the old one in bit `i` only. -/
theorem maskByte_getLsbD (x : Byte) (i j : Nat) (v : Bool) (hj : j < 8) :
    (maskByte x i v).getLsbD j = if i = j then v else x.getLsbD j := by
  cases v with
  | true =>
      rw [maskByte, if_pos rfl, BitVec.getLsbD_or, one_shift_getLsbD i j hj]
      by_cases h : i = j <;> simp [h]
  | false =>
      rw [maskByte, if_neg (by decide), BitVec.getLsbD_and, BitVec.getLsbD_not,
        one_shift_getLsbD i j hj]
      by_cases h : i = j <;> simp [h, hj]

/-- `putBit` changes bit `k` and no other. -/
theorem bitAt_putBit (b : Bytes) (k j : Nat) (v : Bool) :
    bitAt (putBit b k v) j = if k = j then v else bitAt b j := by
  unfold bitAt putBit
  by_cases hb : j / 8 = k / 8
  · rw [hb, Function.update_self, maskByte_getLsbD _ _ _ _ (Nat.mod_lt _ (by decide))]
    by_cases hk : k = j
    · subst hk
      simp
    · have hm : ¬ k % 8 = j % 8 := by omega
      simp [hm, hk]
  · rw [Function.update_of_ne hb]
    have hk : ¬ k = j := by
      intro h
      exact hb (by rw [h])
    simp [hk]

@[simp] theorem bitAt_putBit_self (b : Bytes) (k : Nat) (v : Bool) :
    bitAt (putBit b k v) k = v := by
  rw [bitAt_putBit, if_pos rfl]

theorem bitAt_putBit_ne (b : Bytes) {k j : Nat} (v : Bool) (h : k ≠ j) :
    bitAt (putBit b k v) j = bitAt b j := by
  rw [bitAt_putBit, if_neg h]

/-- Byte sequences with the same bits are equal. -/
theorem ext_bits {a b : Bytes} (h : ∀ k, bitAt a k = bitAt b k) : a = b := by
  funext n
  apply BitVec.eq_of_getLsbD_eq
  intro i hi
  have hk := h (8 * n + i)
  unfold bitAt at hk
  have hdiv : (8 * n + i) / 8 = n := by omega
  have hmod : (8 * n + i) % 8 = i := by omega
  rwa [hdiv, hmod] at hk

/-- Forcing a bit to the value it has changes nothing. -/
theorem putBit_of_bitAt {b : Bytes} {k : Nat} {v : Bool} (h : bitAt b k = v) :
    putBit b k v = b := by
  apply ext_bits
  intro j
  rw [bitAt_putBit]
  by_cases hk : k = j
  · subst hk
    simp [h]
  · simp [hk]

/-- The later of two updates of one bit wins. -/
@[simp] theorem putBit_putBit (b : Bytes) (k : Nat) (v w : Bool) :
    putBit (putBit b k v) k w = putBit b k w := by
  apply ext_bits
  intro j
  rw [bitAt_putBit, bitAt_putBit, bitAt_putBit]
  by_cases hk : k = j <;> simp [hk]

end NeonixByteBits
