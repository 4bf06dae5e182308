import Neonix.ConsoleBounds

/-! # The words of the video memory

    The video memory is a list of `u16`, a character and its attribute each.
    `Puts` says what a function that draws leaves in them; the functions that
    store are described here, word by word. -/

namespace NeonixConsole

open NeonixByteBits NeonixMachine NeonixOutcome

/-- The byte at an address. -/
def Console.byte (con : Console) (a : Nat) : Byte := con.mem (BitVec.ofNat 32 a)

/-- The word with this number. -/
def Console.word (con : Console) (j : Nat) : BitVec 16 :=
  con.byte (0xB8000 + 2 * j + 1) ++ con.byte (0xB8000 + 2 * j)

/-- A call that draws these words; the words behind the video memory stay. -/
def Puts (con : Console) (x : Res Console) (w : Nat → BitVec 16) : Prop :=
  Ends Never x fun c => Drawn con c ∧ ∀ j, j < 8192 → c.word j = w j

variable {con c d : Console} {p start src dest ptr : BitVec 32} {n i j k : Nat}
  {w w' : Nat → BitVec 16}

theorem Puts.refl (h : ∀ j, j < 8192 → con.word j = w j) : Puts con (.ok con) w := ⟨Drawn.refl, h⟩

theorem Puts.bind {x : Res Console} {f : Console → Res Console} (h : Puts con x w)
    (hf : ∀ c, Drawn con c → (∀ j, j < 8192 → c.word j = w j) → Puts c (f c) w') :
    Puts con (x >>= f) w' :=
  Ends.bind h fun c hc => (hf c hc.1 hc.2).mono fun _ hd => ⟨hc.1.trans hd.1, hd.2⟩

theorem Puts.congr {x : Res Console} (h : Puts con x w) (hw : ∀ j, j < 8192 → w j = w' j) :
    Puts con x w' :=
  Ends.mono h fun _ hc => ⟨hc.1, fun j hj => (hc.2 j hj).trans (hw j hj)⟩

theorem Drawn.erase (h : Drawn con c) : c.erase = con.erase := by
  obtain ⟨m, rfl⟩ := h
  rfl

/-! ## Bytes -/

/-- A store at an address inside the video memory. -/
theorem store8_byte (hg : Geometry con) (hlo : 0xB8000 ≤ p.toNat) (hhi : p.toNat < 0xBBFC0)
    (v : Byte) :
    ∃ c, store8 con p v = .ok c ∧ Drawn con c ∧
      ∀ a, a < 2 ^ 32 → c.byte a = if a = p.toNat then v else con.byte a := by
  have hin : con.mem_base ≤ p ∧ p < con.mem_end := by
    rw [hg.mem_base, hg.mem_end]
    bv_omega
  refine ⟨_, by rw [store8, if_pos hin], ⟨_, rfl⟩, fun a ha => ?_⟩
  show Function.update con.mem p v (BitVec.ofNat 32 a) = _
  by_cases heq : a = p.toNat
  · rw [if_pos heq, heq, BitVec.ofNat_toNat, BitVec.setWidth_eq, Function.update_self]
  · rw [if_neg heq]
    refine Function.update_of_ne (fun h => heq ?_) ..
    rw [← h, BitVec.toNat_ofNat]
    exact (Nat.mod_eq_of_lt ha).symm

/-- A copy to bytes that are not read later. -/
theorem memcpy_byte (dest src : BitVec 32) (n : Nat) (hg : Geometry con)
    (hlo : 0xB8000 ≤ dest.toNat) (hhi : dest.toNat + n ≤ 0xBBFC0) (hsrc : src.toNat + n ≤ 0xBBFC0)
    (hover : dest.toNat ≤ src.toNat ∨ src.toNat + n ≤ dest.toNat) :
    ∃ c, memcpy con dest src n = .ok c ∧ Drawn con c ∧ ∀ a, a < 2 ^ 32 →
      c.byte a = if dest.toNat ≤ a ∧ a < dest.toNat + n then con.byte (src.toNat + (a - dest.toNat))
        else con.byte a := by
  induction n generalizing con dest src with
  | zero => exact ⟨con, rfl, Drawn.refl, fun a _ => (if_neg (by omega)).symm⟩
  | succ n ih =>
      obtain ⟨c, hc, hdrawn, hbyte⟩ := store8_byte hg hlo (by omega) (con.mem src)
      have hdest' : (dest + 1).toNat = dest.toNat + 1 := by bv_omega
      have hsrc' : (src + 1).toNat = src.toNat + 1 := by bv_omega
      obtain ⟨d, hd, hdrawn', hbyte'⟩ := ih (dest + 1) (src + 1) (hdrawn.geometry hg)
        (by omega) (by omega) (by omega) (by omega)
      refine ⟨d, ?_, hdrawn.trans hdrawn', fun a ha => ?_⟩
      · rw [memcpy, hc, bind_ok, hd]
      rw [hbyte' a ha, hdest', hsrc']
      by_cases hfirst : a = dest.toNat
      · rw [if_neg (by omega), hbyte a ha, if_pos hfirst, if_pos (by omega), hfirst, Nat.sub_self,
          Nat.add_zero, Console.byte, BitVec.ofNat_toNat, BitVec.setWidth_eq]
      by_cases hin : dest.toNat + 1 ≤ a ∧ a < dest.toNat + 1 + n
      · -- the byte that is copied has not been stored to
        rw [if_pos hin, if_pos (by omega), hbyte _ (by omega), if_neg (by omega)]
        congr 1
        omega
      · rw [if_neg hin, if_neg (by omega), hbyte a ha, if_neg hfirst]

/-! ## Words -/

/-- The word at the cursor, or somewhere else. -/
theorem word_eq (con : Console) (hp : p.toNat = 0xB8000 + 2 * i) :
    load16 con p = con.word i := by
  have hp' : BitVec.ofNat 32 (0xB8000 + 2 * i) = p := by
    rw [← hp, BitVec.ofNat_toNat, BitVec.setWidth_eq]
  have hnext : BitVec.ofNat 32 (0xB8000 + 2 * i + 1) = p + 1 := by
    bv_omega
  rw [load16, Console.word, Console.byte, Console.byte, hp', hnext]

theorem halves (v : BitVec 16) : v.extractLsb' 8 8 ++ v.setWidth 8 = v := by
  refine BitVec.eq_of_getLsbD_eq fun i hi => ?_
  rw [BitVec.getLsbD_append, BitVec.getLsbD_extractLsb', BitVec.getLsbD_setWidth]
  by_cases h8 : i < 8
  · simp [h8]
  · have hrest : i - 8 < 8 := by omega
    have hback : 8 + (i - 8) = i := by omega
    simp [h8, hrest, hback]

theorem store16_puts (hg : Geometry con) (hp : p.toNat = 0xB8000 + 2 * i) (hi : i < 8160)
    (v : BitVec 16) : Puts con (store16 con p v) fun j => if j = i then v else con.word j := by
  obtain ⟨c, hc, hdrawn, hbyte⟩ := store8_byte hg (p := p) (by omega) (by omega) (v.setWidth 8)
  have hnext : (p + 1).toNat = p.toNat + 1 := by bv_omega
  obtain ⟨d, hd, hdrawn', hbyte'⟩ := store8_byte (hdrawn.geometry hg) (p := p + 1) (by omega) (by omega)
    (v.extractLsb' 8 8)
  rw [store16, hc, bind_ok, hd]
  refine ⟨hdrawn.trans hdrawn', fun j hj => ?_⟩
  rw [Console.word, hbyte' _ (by omega), hbyte' _ (by omega), hbyte _ (by omega),
    hbyte _ (by omega),
    hnext, hp]
  show _ = if j = i then v else con.word j
  by_cases heq : j = i
  · rw [if_pos heq, if_pos (by omega), if_neg (by omega), if_pos (by omega)]
    exact halves v
  · rw [if_neg heq, if_neg (by omega), if_neg (by omega), if_neg (by omega), if_neg (by omega)]
    rfl

/-- A store of a character leaves the attribute. -/
theorem store8_puts (hg : Geometry con) (hp : p.toNat = 0xB8000 + 2 * i) (hi : i < 8160)
    (v : Byte) :
    Puts con (store8 con p v) fun j =>
      if j = i then (con.word i).extractLsb' 8 8 ++ v else con.word j := by
  obtain ⟨c, hc, hdrawn, hbyte⟩ := store8_byte hg (p := p) (by omega) (by omega) v
  rw [hc]
  refine ⟨hdrawn, fun j hj => ?_⟩
  rw [Console.word, hbyte _ (by omega), hbyte _ (by omega), hp, if_neg (by omega)]
  show _ = if j = i then _ else con.word j
  by_cases heq : j = i
  · rw [if_pos heq, heq, if_pos rfl, Console.word, BitVec.extractLsb'_append_eq_left]
  · rw [if_neg heq, if_neg (by omega)]
    rfl

theorem eraseScreen_puts (hg : Geometry con) (hp : start.toNat = 0xB8000 + 2 * i)
    (hi : i + n ≤ 8160) :
    Puts con (eraseScreen con start n) fun j =>
      if i ≤ j ∧ j < i + n then con.erase else con.word j := by
  induction n generalizing con start i with
  | zero => exact Puts.refl fun j _ => (if_neg (by omega)).symm
  | succ n ih =>
      refine (store16_puts hg hp (by omega) con.erase).bind fun c hc hw => ?_
      have hnext : (start + 2).toNat = 0xB8000 + 2 * (i + 1) := by bv_omega
      refine (ih (hc.geometry hg) hnext (by omega)).congr fun j hj => ?_
      rw [hc.erase, hw j hj]
      by_cases heq : j = i
      · rw [if_pos heq, if_neg (by omega), if_pos (by omega)]
      · rw [if_neg heq]
        exact if_congr (by omega) rfl rfl

theorem memcpy_puts (hg : Geometry con) (hd : dest.toNat = 0xB8000 + 2 * i)
    (hs : src.toNat = 0xB8000 + 2 * k) (hn : i + n ≤ 8160) (hn' : k + n ≤ 8160)
    (hover : i ≤ k ∨ k + n ≤ i) :
    Puts con (memcpy con dest src (2 * n)) fun j =>
      if i ≤ j ∧ j < i + n then con.word (k + (j - i)) else con.word j := by
  obtain ⟨c, hc, hdrawn, hbyte⟩ := memcpy_byte dest src (2 * n) hg (by omega)
    (by omega) (by omega) (by omega)
  rw [hc]
  refine ⟨hdrawn, fun j hj => ?_⟩
  rw [Console.word, hbyte _ (by omega), hbyte _ (by omega), hd, hs]
  show _ = if i ≤ j ∧ j < i + n then _ else con.word j
  by_cases hin : i ≤ j ∧ j < i + n
  · rw [if_pos hin, if_pos (by omega), if_pos (by omega), Console.word]
    congr 2
    · omega
    · omega
  · rw [if_neg hin, if_neg (by omega), if_neg (by omega)]
    rfl

end NeonixConsole
