import Mathlib.Data.BitVec
import Neonix.ByteBits

/-! # A memory of 2 ^ 32 bytes and its words

    `load m a` is the little-endian word at `a`, `store m a v` the memory after
    a word is stored there.  Addresses wrap around.  A record in memory is a base
    and the offsets of its fields; a store to one field leaves the fields that
    do not touch it. -/

namespace NeonixWordMemory

open NeonixByteBits

abbrev Memory := BitVec 32 → Byte

def load (m : Memory) (a : BitVec 32) : BitVec 32 :=
  m (a + 3) ++ (m (a + 2) ++ (m (a + 1) ++ m a))

def store (m : Memory) (a v : BitVec 32) : Memory := fun x =>
  if (x - a).toNat < 4 then v.extractLsb' (8 * (x - a).toNat) 8 else m x

variable {m : Memory} {a v o p : BitVec 32}

/-- A word is its four bytes. -/
theorem load_eq (h : ∀ k < 4, m (a + BitVec.ofNat 32 k) = v.extractLsb' (8 * k) 8) :
    load m a = v := by
  have hfirst : m a = v.extractLsb' 0 8 := by simpa using h 0 (by decide)
  have h1 : m (a + 1) = v.extractLsb' 8 8 := h 1 (by decide)
  have h2 : m (a + 2) = v.extractLsb' 16 8 := h 2 (by decide)
  have h3 : m (a + 3) = v.extractLsb' 24 8 := h 3 (by decide)
  rw [load, h3, h2, h1, hfirst,
    BitVec.extractLsb'_append_extractLsb'_eq_extractLsb' (show 8 = 0 + 8 from rfl),
    BitVec.extractLsb'_append_extractLsb'_eq_extractLsb' (show 16 = 0 + (8 + 8) from rfl),
    BitVec.extractLsb'_append_extractLsb'_eq_extractLsb' (show 24 = 0 + (8 + (8 + 8)) from rfl)]
  exact BitVec.extractLsb'_eq_self ..

theorem load_store : load (store m a v) a = v := by
  refine load_eq fun k hk => ?_
  have hnat : (BitVec.ofNat 32 k).toNat = k := by
    rw [BitVec.toNat_ofNat]
    omega
  rw [store, add_sub_cancel_left, hnat, if_pos hk]

/-- A store leaves a byte outside its word. -/
theorem store_apart (h : 4 ≤ (p - o).toNat) : store m (a + o) v (a + p) = m (a + p) := by
  rw [store, add_sub_add_left_eq_sub, if_neg (Nat.not_lt.mpr h)]

/-- Two offsets of words that do not overlap. -/
def Apart (o p : BitVec 32) : Prop := 4 ≤ (p - o).toNat ∧ 4 ≤ (o - p).toNat

instance (o p : BitVec 32) : Decidable (Apart o p) := inferInstanceAs (Decidable (_ ∧ _))

/-- A store to one field leaves another. -/
theorem load_store_apart (h : Apart o p) : load (store m (a + o) v) (a + p) = load m (a + p) := by
  have hbyte : ∀ k : BitVec 32, k.toNat < 4 →
      store m (a + o) v (a + (p + k)) = m (a + (p + k)) := by
    intro k hk
    refine store_apart ?_
    obtain ⟨hlo, hhi⟩ := h
    bv_omega
  have hfirst := hbyte 0 (by decide)
  rw [add_zero] at hfirst
  rw [load, load, add_assoc, add_assoc, add_assoc, hbyte 3 (by decide), hbyte 2 (by decide),
    hbyte 1 (by decide), hfirst]

end NeonixWordMemory
