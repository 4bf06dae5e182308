import Neonix.ByteBits

/-! # Little-endian words in a byte sequence

    `u16At b k` and `u32At b k` are the words a load through a `u16 *` or a
    `u32 *` to byte `k` gives; `putU8`, `putU16` and `putU32` are the stores. -/

namespace NeonixWords

open NeonixByteBits

def u16At (b : Bytes) (k : Nat) : BitVec 16 := b (k + 1) ++ b k

def u32At (b : Bytes) (k : Nat) : BitVec 32 := u16At b (k + 2) ++ u16At b k

def putU8 (b : Bytes) (k : Nat) (x : Byte) : Bytes := fun j => if j = k then x else b j

def putU16 (b : Bytes) (k : Nat) (x : BitVec 16) : Bytes :=
  putU8 (putU8 b k (x.setWidth 8)) (k + 1) ((x >>> 8).setWidth 8)

def putU32 (b : Bytes) (k : Nat) (x : BitVec 32) : Bytes :=
  putU16 (putU16 b k (x.setWidth 16)) (k + 2) ((x >>> 16).setWidth 16)

end NeonixWords
