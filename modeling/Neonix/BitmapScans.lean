import Neonix.Bitmap

/-! # `bitmap_scan` in 32 bits

    The loops of `bitmap_scan` with the types that `bitmap.c` gives their variables.
    `Bitmap` has them over the natural numbers; they compute the same as long as the
    index of the last bit is an `int`, and there the first run of clear bits is taken. -/

namespace NeonixBitmapScans

open NeonixMachine NeonixByteBits NeonixBitmap

def EOF : BitVec 32 := -1

/-- The first loop of `bitmap_scan`: `start`. -/
def scanLoop (map : Bitmap) (count : BitVec 32) :
    (bits_left : Nat) → (next_bit counter : BitVec 32) →
    Res (BitVec 32)
  | 0, _, _ => .ok EOF
  | bits_left + 1, next_bit, counter => do
      let used ← bitmapTest map (BitVec.ofNat 32 map.offset + next_bit).toNat
      let counter := if used then 0 else counter + 1
      let next_bit := next_bit + 1
      if counter = count then .ok (next_bit - count) else scanLoop map count bits_left next_bit counter

/-- The second loop of `bitmap_scan`. -/
def setLoop (map : Bitmap) : (bits_left : Nat) → (next_bit : BitVec 32) → Res Bitmap
  | 0, _ => .ok map
  | bits_left + 1, next_bit => do
      let map ← bitmapSet map (BitVec.ofNat 32 map.offset + next_bit).toNat true
      setLoop map bits_left (next_bit + 1)

/-- `bitmap_scan`. -/
def bitmapScan (map : Bitmap) (count : BitVec 32) : Res (BitVec 32 × Bitmap) := do
  let start ← scanLoop map count (BitVec.ofNat 32 map.length * 8).toNat 0 0
  if start = EOF then return (EOF, map)
  else
    let map ← setLoop map count.toNat start
    return (start + BitVec.ofNat 32 map.offset, map)

variable {map : Bitmap} {count : BitVec 32} {next counter left : Nat}

/-! ## The loops count as natural numbers do -/

/-- Every index of the map is an `int`. -/
def Small (map : Bitmap) : Prop := map.offset + 8 * map.length < 2 ^ 31

theorem index_eq (hsmall : Small map) (hnext : next < 8 * map.length) :
    (BitVec.ofNat 32 map.offset + BitVec.ofNat 32 next).toNat = map.offset + next := by
  rw [Small] at hsmall
  rw [BitVec.toNat_add, BitVec.toNat_ofNat, BitVec.toNat_ofNat]
  omega

theorem succ_eq (n : Nat) : BitVec.ofNat 32 n + 1 = BitVec.ofNat 32 (n + 1) := by
  rw [← BitVec.ofNat_add_ofNat]
  rfl

/-- A search in 32 bits finds what the search over the natural numbers does. -/
def encode : Option Nat → BitVec 32
  | none => EOF
  | some start => BitVec.ofNat 32 start

theorem scanLoop_eq (hsmall : Small map) (left : Nat) :
    ∀ next counter, next + left = 8 * map.length →
    counter ≤ next → scanLoop map count left (BitVec.ofNat 32 next) (BitVec.ofNat 32 counter) =
      (scanStart map count.toNat left next counter).map encode := by
  induction left with
  | zero => exact fun _ _ _ _ => rfl
  | succ left ih =>
      intro next counter hlen hle
      rw [scanLoop, scanStart, index_eq hsmall (by omega)]
      rw [Small] at hsmall
      cases bitmapTest map (map.offset + next) with
      | error e => rfl
      | ok used =>
          -- the counter after this bit, in both
          obtain ⟨c, hc, hcle, hcount⟩ : ∃ c, (if used = true then 0 else counter + 1) = c ∧
              c ≤ next + 1 ∧ (if used = true then 0 else BitVec.ofNat 32 counter + 1) =
                BitVec.ofNat 32 c := by
            cases used with
            | true => exact ⟨0, rfl, Nat.zero_le _, rfl⟩
            | false => exact ⟨counter + 1, rfl, by omega, succ_eq counter⟩
          rw [bind_ok, bind_ok]
          dsimp only
          rw [hcount, hc, succ_eq]
          have hiff : BitVec.ofNat 32 c = count ↔ c = count.toNat := by
            rw [← BitVec.toNat_inj, BitVec.toNat_ofNat, Nat.mod_eq_of_lt (by omega)]
          by_cases hfull : c = count.toNat
          · rw [if_pos (hiff.mpr hfull), if_pos hfull]
            refine congrArg Except.ok (BitVec.eq_of_toNat_eq ?_)
            rw [encode, BitVec.toNat_sub, BitVec.toNat_ofNat, BitVec.toNat_ofNat]
            omega
          · rw [if_neg (mt hiff.mp hfull), if_neg hfull]
            exact ih (next + 1) c (by omega) hcle

theorem setLoop_eq (count : Nat) : ∀ (map : Bitmap) (start : Nat), Small map →
    map.length ≤ map.size → start + count ≤ 8 * map.length →
    setLoop map count (BitVec.ofNat 32 start) = setRun map count start := by
  induction count with
  | zero => exact fun _ _ _ _ _ => rfl
  | succ count ih =>
      intro map start hsmall hsize hlen
      rw [setLoop, setRun, index_eq hsmall (by omega), bitmapSet_eq map (by omega),
        bind_ok, bind_ok,
        succ_eq]
      exact ih { map with bits := putBit map.bits start true } (start + 1) hsmall hsize
        (by show _ ≤ 8 * map.length; omega)

/-! ## First fit -/

/-- What `bitmap_scan` returns and leaves behind: the first run of clear bits, which are
    then set, or `EOF` where there is none. -/
def FirstFit (map : Bitmap) (count : Nat) (r : BitVec 32) (map' : Bitmap) : Prop :=
  (∃ s : Nat, r.toInt = map.offset + s ∧ s + count ≤ 8 * map.length ∧ Clear map.bits s count ∧
    (∀ s' < s, ¬ Clear map.bits s' count) ∧
    ∃ bits, map' = { map with bits := bits } ∧ Stored map.bits bits s count true) ∨
  (r = EOF ∧ map' = map ∧ ∀ s, s + count ≤ 8 * map.length → ¬ Clear map.bits s count)

/-- `bitmap_scan` is first fit, for a map with all the bytes its length says. -/
theorem bitmap_scan_first_fit (bits : Bytes) (length offset : Nat) (count : BitVec 32)
    (hsmall : offset + 8 * length < 2 ^ 31) (hcount : 1 ≤ count.toNat) :
    ∃ r map', bitmapScan (bitmapMake bits length length offset) count = .ok (r, map') ∧
      FirstFit (bitmapMake bits length length offset) count.toNat r map' := by
  obtain ⟨map, hmap⟩ : ∃ map, map = bitmapMake bits length length offset := ⟨_, rfl⟩
  have hsm : Small map := by
    rw [hmap]
    exact hsmall
  have hsize : map.length ≤ map.size := by
    rw [hmap]
    exact Nat.le_refl length
  rw [← hmap]
  have hbits : (BitVec.ofNat 32 map.length * 8).toNat = map.length * 8 := by
    rw [Small] at hsm
    rw [BitVec.toNat_mul, BitVec.toNat_ofNat]
    show map.length % 2 ^ 32 * 8 % 2 ^ 32 = _
    omega
  obtain ⟨r, hstart, hfirst⟩ := scanStart_run hsize (map.length * 8) 0 0 (Nat.zero_add _) hcount
    Nat.le.refl (fun j hj hj' => absurd hj' (by omega)) (fun s hs => absurd hs (Nat.not_lt_zero s))
  have hloop : scanLoop map count (map.length * 8) 0 0 = .ok (encode r) := by
    have heq : scanLoop map count (map.length * 8) 0 0 =
        (scanStart map count.toNat (map.length * 8) 0 0).map encode :=
      scanLoop_eq hsm (map.length * 8) 0 0 (by omega) (Nat.le_refl 0)
    rw [hstart] at heq
    exact heq
  rw [bitmapScan, hbits, hloop, bind_ok]
  cases r with
  | none => exact ⟨EOF, map, if_pos rfl, Or.inr ⟨rfl, rfl, fun s hs => hfirst s (by omega)⟩⟩
  | some s =>
      obtain ⟨hend, hclear, hleast⟩ := hfirst
      have hlt : s + map.offset < 2 ^ 31 := by
        rw [Small] at hsm
        omega
      have hne : encode (some s) ≠ EOF := by
        intro heq
        have hnat := congrArg BitVec.toNat heq
        rw [encode, BitVec.toNat_ofNat] at hnat
        change s % 2 ^ 32 = 4294967295 at hnat
        omega
      obtain ⟨bits', hrun, hstored⟩ := setRun_eq count.toNat map s (by omega)
      refine ⟨encode (some s) + BitVec.ofNat 32 map.offset, { map with bits := bits' }, ?_,
        Or.inl ⟨s, ?_,
        by omega, hclear, hleast, bits', rfl, hstored⟩⟩
      · rw [if_neg hne, encode, setLoop_eq count.toNat map s hsm hsize (by omega), hrun]
        rfl
      · rw [encode, ← BitVec.ofNat_add, BitVec.toInt_eq_toNat_of_lt]
        · rw [BitVec.toNat_ofNat]
          omega
        · rw [BitVec.toNat_ofNat]
          omega

/-- A run of two bits that ends at the last bit of its map. -/
theorem bitmap_scan_first_fit_two : ∃ r map',
    bitmapScan (bitmapMake (fun _ => 0x35) 1 1 256) 2 = .ok (r, map') ∧
      FirstFit (bitmapMake (fun _ => 0x35) 1 1 256) 2 r map' :=
  bitmap_scan_first_fit (fun _ => 0x35) 1 256 2 (by decide) (by decide)

end NeonixBitmapScans
