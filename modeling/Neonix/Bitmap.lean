import Neonix.Machine
import Neonix.ByteBits

/-! # `lib/bitmap.c`

    A `bitmap_t` is a pointer to bytes, a length in bytes and the index of its
    first bit.  The length is what the maker of the map says it is; `size` is
    how many bytes the pointer really points at, and a byte past it is out of
    bounds.  Indices stay far below `2^32` for every map the kernel makes, so
    they are natural numbers; `none` is the `EOF` of `bitmap_scan`. -/

namespace NeonixBitmap

open NeonixMachine NeonixByteBits

structure Bitmap where
  bits : Bytes
  size : Nat
  length : Nat
  offset : Nat

/-- `bitmap_make`, for a pointer to `size` bytes. -/
def bitmapMake (bits : Bytes) (size length offset : Nat) : Bitmap :=
  { bits := bits, size := size, length := length, offset := offset }

/-- Load a byte through the map's pointer. -/
def Bitmap.load (map : Bitmap) (n : Nat) : Res Byte :=
  if n < map.size then .ok (map.bits n) else .error .outOfBounds

/-- Store a byte through the map's pointer. -/
def Bitmap.store (map : Bitmap) (n : Nat) (x : Byte) : Res Bitmap :=
  if n < map.size then .ok { map with bits := Function.update map.bits n x }
  else .error .outOfBounds

/-- `bitmap_test`. -/
def bitmapTest (map : Bitmap) (index : Nat) : Res Bool := do
  check (map.offset ≤ index)
  let idx := index - map.offset
  let bytes := idx / 8
  let bits := idx % 8
  check (bytes < map.length)
  let byte ← map.load bytes
  return byte.getLsbD bits

/-- `bitmap_set`: unlike `bitmap_test` it does not check the byte against the
    length. -/
def bitmapSet (map : Bitmap) (index : Nat) (value : Bool) : Res Bitmap := do
  check (map.offset ≤ index)
  let idx := index - map.offset
  let bytes := idx / 8
  let bits := idx % 8
  let byte ← map.load bytes
  map.store bytes (maskByte byte bits value)

/-- The search loop of `bitmap_scan`: `next_bit` and `counter` are the loop's
    variables, the result is `start`. -/
def scanStart (map : Bitmap) (count : Nat) : Nat → Nat → Nat → Res (Option Nat)
  | 0, _, _ => .ok none
  | bitsLeft + 1, nextBit, counter => do
      let used ← bitmapTest map (map.offset + nextBit)
      let counter := if used then 0 else counter + 1
      let nextBit := nextBit + 1
      if counter = count then .ok (some (nextBit - count))
      else scanStart map count bitsLeft nextBit counter

/-- The second loop of `bitmap_scan`: set `bits_left` bits from `next_bit` on. -/
def setRun (map : Bitmap) : Nat → Nat → Res Bitmap
  | 0, _ => .ok map
  | bitsLeft + 1, nextBit => do
      let map ← bitmapSet map (map.offset + nextBit) true
      setRun map bitsLeft (nextBit + 1)

/-- `bitmap_scan`. -/
def bitmapScan (map : Bitmap) (count : Nat) : Res (Option Nat × Bitmap) := do
  match ← scanStart map count (map.length * 8) 0 0 with
  | none => return (none, map)
  | some start =>
      let map ← setRun map count start
      return (some (start + map.offset), map)

/-! ## Single bits -/

/-- A test inside both the length and the buffer reads the bit. -/
theorem bitmapTest_eq (map : Bitmap) {k : Nat} (hl : k / 8 < map.length)
    (hs : k / 8 < map.size) :
    bitmapTest map (map.offset + k) = .ok (bitAt map.bits k) := by
  have hk : map.offset + k - map.offset = k := by omega
  simp only [bitmapTest, hk]
  rw [check_pos (Nat.le_add_right _ _), bind_ok, check_pos hl, bind_ok,
    Bitmap.load, if_pos hs, bind_ok]
  rfl

/-- A test inside the length but past the buffer is out of bounds. -/
theorem bitmapTest_outOfBounds (map : Bitmap) {k : Nat} (hl : k / 8 < map.length)
    (hs : ¬ k / 8 < map.size) :
    bitmapTest map (map.offset + k) = .error .outOfBounds := by
  have hk : map.offset + k - map.offset = k := by omega
  simp only [bitmapTest, hk]
  rw [check_pos (Nat.le_add_right _ _), bind_ok, check_pos hl, bind_ok,
    Bitmap.load, if_neg hs, bind_error]

/-- A test below the map's first bit fails its assertion. -/
theorem bitmapTest_below {map : Bitmap} {index : Nat} (h : index < map.offset) :
    bitmapTest map index = .error .assertion := by
  unfold bitmapTest
  rw [check_neg (by omega), bind_error]

/-- A store inside the buffer forces the bit. -/
theorem bitmapSet_eq (map : Bitmap) {k : Nat} (hs : k / 8 < map.size) (v : Bool) :
    bitmapSet map (map.offset + k) v
      = .ok { map with bits := putBit map.bits k v } := by
  have hk : map.offset + k - map.offset = k := by omega
  simp only [bitmapSet, hk]
  rw [check_pos (Nat.le_add_right _ _), bind_ok, Bitmap.load, if_pos hs, bind_ok,
    Bitmap.store, if_pos hs]
  rfl

/-! ## Scanning for one bit -/

/-- The search for one clear bit passes over a run of set bits. -/
theorem scanStart_skip (map : Bitmap) {n : Nat} :
    ∀ (m bitsLeft : Nat), n + m ≤ 8 * map.size → n + m ≤ 8 * map.length →
      (∀ j, n ≤ j → j < n + m → bitAt map.bits j = true) →
      scanStart map 1 (m + bitsLeft) n 0 = scanStart map 1 bitsLeft (n + m) 0 := by
  intro m
  induction m generalizing n with
  | zero => intro bitsLeft _ _ _; rw [Nat.zero_add]; rfl
  | succ m ih =>
      intro bitsLeft hs hl hset
      have hl' : n / 8 < map.length := by omega
      have hs' : n / 8 < map.size := by omega
      rw [show m + 1 + bitsLeft = (m + bitsLeft) + 1 by omega, scanStart,
        bitmapTest_eq map hl' hs', bind_ok, hset n (Nat.le_refl _) (by omega)]
      have hrest := ih (n := n + 1) bitsLeft (by omega) (by omega)
        (fun j hj hj' => hset j (by omega) (by omega))
      rw [show n + (m + 1) = n + 1 + m by omega, ← hrest]
      rfl

/-- The search for one clear bit stops at the first one. -/
theorem scanStart_found {map : Bitmap} {s : Nat} (hs : s < 8 * map.size)
    (hl : s < 8 * map.length) (hfree : bitAt map.bits s = false)
    (hset : ∀ j, j < s → bitAt map.bits j = true) :
    scanStart map 1 (map.length * 8) 0 0 = .ok (some s) := by
  have hskip := scanStart_skip map (n := 0) s (map.length * 8 - s)
    (by omega) (by omega) (fun j _ hj => hset j (by omega))
  rw [show s + (map.length * 8 - s) = map.length * 8 by omega] at hskip
  rw [hskip, show map.length * 8 - s = (map.length * 8 - s - 1) + 1 by omega,
    Nat.zero_add, scanStart, bitmapTest_eq map (by omega) (by omega), bind_ok, hfree]
  rfl

/-- `bitmap_scan(map, 1)` takes the first clear bit. -/
theorem bitmapScan_found (map : Bitmap) {s : Nat} (hs : s < 8 * map.size)
    (hl : s < 8 * map.length) (hfree : bitAt map.bits s = false)
    (hset : ∀ j, j < s → bitAt map.bits j = true) :
    bitmapScan map 1
      = .ok (some (s + map.offset), { map with bits := putBit map.bits s true }) := by
  unfold bitmapScan
  rw [scanStart_found hs hl hfree hset, bind_ok]
  have hrun : setRun map 1 s = .ok { map with bits := putBit map.bits s true } := by
    rw [setRun, bitmapSet_eq map (by omega), bind_ok, setRun]
  simp only [hrun, bind_ok, pure_eq_ok]

/-- With every bit of the map set and the length inside the buffer,
    `bitmap_scan(map, 1)` finds nothing and leaves the map alone. -/
theorem bitmapScan_full {map : Bitmap} (hl : map.length ≤ map.size)
    (hset : ∀ j, j < 8 * map.length → bitAt map.bits j = true) :
    bitmapScan map 1 = .ok (none, map) := by
  have hskip := scanStart_skip map (n := 0) (map.length * 8) 0
    (by omega) (by omega) (fun j _ hj => hset j (by omega))
  unfold bitmapScan
  rw [Nat.add_zero] at hskip
  rw [hskip]
  rfl

/-- With every bit of the buffer set and a length that reaches past it,
    `bitmap_scan(map, 1)` reads out of bounds. -/
theorem bitmapScan_past {map : Bitmap} (hl : map.size < map.length)
    (hset : ∀ j, j < 8 * map.size → bitAt map.bits j = true) :
    bitmapScan map 1 = .error .outOfBounds := by
  have hskip := scanStart_skip map (n := 0) (8 * map.size)
    (map.length * 8 - 8 * map.size) (by omega) (by omega)
    (fun j _ hj => hset j (by omega))
  rw [show 8 * map.size + (map.length * 8 - 8 * map.size) = map.length * 8 by omega,
    Nat.zero_add] at hskip
  unfold bitmapScan
  rw [hskip, show map.length * 8 - 8 * map.size
    = (map.length * 8 - 8 * map.size - 1) + 1 by omega, scanStart,
    bitmapTest_outOfBounds map (by omega) (by omega)]
  rfl

/-! ## Scanning for a run of bits -/

/-- The `count` bits from `start` on are clear. -/
def Clear (bits : Bytes) (start count : Nat) : Prop :=
  ∀ j, start ≤ j → j < start + count → bitAt bits j = false

/-- The bits after a store to the `count` bits from `start` on. -/
def Stored (bits bits' : Bytes) (start count : Nat) (v : Bool) : Prop :=
  ∀ j, bitAt bits' j = if start ≤ j ∧ j < start + count then v else bitAt bits j

/-- What a search for `count` clear bits in front of bit `limit` returns: the first
    run, or nothing where there is none. -/
def FirstRun (bits : Bytes) (count limit : Nat) : Option Nat → Prop
  | some start => start + count ≤ limit ∧ Clear bits start count ∧
      ∀ start', start' < start → ¬ Clear bits start' count
  | none => ∀ start, start + count ≤ limit → ¬ Clear bits start count

/-- The loop has seen `counter` clear bits in front of `next`, and a run begins there
    or behind. -/
theorem scanStart_run {map : Bitmap} {count : Nat} (hsize : map.length ≤ map.size) :
    ∀ (left next counter : Nat), next + left = map.length * 8 → counter < count → counter ≤ next →
      Clear map.bits (next - counter) counter →
      (∀ start, start < next - counter → ¬ Clear map.bits start count) →
      ∃ r, scanStart map count left next counter = .ok r ∧
        FirstRun map.bits count (map.length * 8) r := by
  intro left
  induction left with
  | zero =>
      intro next counter hlen hcount hle _ hnone
      exact ⟨none, rfl, fun start hstart => hnone start (by omega)⟩
  | succ left ih =>
      intro next counter hlen hcount hle hclear hnone
      rw [scanStart, bitmapTest_eq map (by omega) (by omega), bind_ok]
      cases hbit : bitAt map.bits next with
      | true =>
          -- a run through this bit is none
          simp only [if_true]
          rw [if_neg (by omega)]
          refine ih (next + 1) 0 (by omega) (by omega) (by omega) (fun j hj hj' => by omega) ?_
          intro start hstart hrun
          by_cases hbefore : start < next - counter
          · exact hnone start hbefore hrun
          · rw [hrun next (by omega) (by omega)] at hbit
            cases hbit
      | false =>
          have hclear' : Clear map.bits (next - counter) (counter + 1) := by
            intro j hj hj'
            by_cases hjn : j = next
            · rw [hjn, hbit]
            · exact hclear j hj (by omega)
          simp only [Bool.false_eq_true, if_false]
          by_cases hfull : counter + 1 = count
          · rw [if_pos hfull]
            refine ⟨_, rfl, by omega, ?_, ?_⟩
            · rw [show next + 1 - count = next - counter by omega, ← hfull]
              exact hclear'
            · intro start hstart
              exact hnone start (by omega)
          · rw [if_neg hfull]
            refine ih (next + 1) (counter + 1) (by omega) (by omega) (by omega) ?_ ?_
            · rw [show next + 1 - (counter + 1) = next - counter by omega]
              exact hclear'
            · intro start hstart
              exact hnone start (by omega)

/-- One more bit of a run. -/
theorem Stored.cons {bits bits' : Bytes} {start count : Nat} {v : Bool}
    (h : Stored (putBit bits start v) bits' (start + 1) count v) :
    Stored bits bits' start (count + 1) v := by
  intro j
  rw [h j, bitAt_putBit]
  by_cases hin : start + 1 ≤ j ∧ j < start + 1 + count
  · rw [if_pos hin, if_pos (by omega)]
  · rw [if_neg hin]
    by_cases hj : start = j
    · rw [if_pos hj, if_pos (by omega)]
    · rw [if_neg hj, if_neg (by omega)]

theorem Stored.nil (bits : Bytes) (start : Nat) (v : Bool) : Stored bits bits start 0 v := by
  intro j
  rw [if_neg (by omega)]

/-- One more bit at the end of a run. -/
theorem Stored.snoc {bits bits' : Bytes} {start count : Nat} {v : Bool}
    (h : Stored bits bits' start count v) :
    Stored bits (putBit bits' (start + count) v) start (count + 1) v := by
  intro j
  rw [bitAt_putBit, h j]
  by_cases hj : start + count = j
  · rw [if_pos hj, if_pos (by omega)]
  · rw [if_neg hj]
    by_cases hin : start ≤ j ∧ j < start + count
    · rw [if_pos hin, if_pos (by omega)]
    · rw [if_neg hin, if_neg (by omega)]

/-- The same run stored twice. -/
theorem Stored.again {a b c : Bytes} {start count : Nat} {v : Bool}
    (h : Stored a b start count v) (h' : Stored b c start count v) : Stored a c start count v := by
  intro j
  rw [h' j, h j]
  by_cases hin : start ≤ j ∧ j < start + count
  · rw [if_pos hin, if_pos hin]
  · rw [if_neg hin, if_neg hin]

/-- The second loop of `bitmap_scan` stores the bits. -/
theorem setRun_eq (count : Nat) : ∀ (map : Bitmap) (start : Nat), start + count ≤ map.size * 8 →
    ∃ bits, setRun map count start = .ok { map with bits := bits } ∧
      Stored map.bits bits start count true := by
  induction count with
  | zero => exact fun map start _ => ⟨map.bits, rfl, .nil _ _ _⟩
  | succ count ih =>
      intro map start hlen
      obtain ⟨bits, heq, hstored⟩ :=
        ih { map with bits := putBit map.bits start true } (start + 1) (by show _ ≤ map.size * 8; omega)
      refine ⟨bits, ?_, hstored.cons⟩
      rw [setRun, bitmapSet_eq map (by omega), bind_ok]
      exact heq

/-- `bitmap_scan` takes the first run of clear bits and sets them. -/
theorem bitmapScan_run (map : Bitmap) {count : Nat} (hsize : map.length ≤ map.size)
    (hpos : 0 < count) :
    (∃ start bits, bitmapScan map count = .ok (some (start + map.offset), { map with bits := bits }) ∧
      FirstRun map.bits count (map.length * 8) (some start) ∧
      Stored map.bits bits start count true) ∨
    (bitmapScan map count = .ok (none, map) ∧ FirstRun map.bits count (map.length * 8) none) := by
  obtain ⟨r, hstart, hfirst⟩ := scanStart_run hsize (map.length * 8) 0 0 (Nat.zero_add _) hpos Nat.le.refl
    (fun j hj hj' => absurd hj' (by omega)) (fun start hstart => absurd hstart (Nat.not_lt_zero _))
  unfold bitmapScan
  rw [hstart, bind_ok]
  cases r with
  | none => exact .inr ⟨rfl, hfirst⟩
  | some start =>
      obtain ⟨bits, hrun, hstored⟩ := setRun_eq count map start (by have := hfirst.1; omega)
      refine .inl ⟨start, bits, ?_, hfirst, hstored⟩
      simp only [hrun, bind_ok, pure_eq_ok]

end NeonixBitmap
