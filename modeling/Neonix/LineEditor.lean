import Neonix.ByteBits
import Neonix.Machine

/-! # `builtin/neosh.c`: the line editor of the shell

    `readline` reads each byte into the place of the next character before it
    looks at it.  A line that fills the buffer gets its terminator behind it. -/

namespace NeonixLineEditor

open NeonixByteBits NeonixMachine

/-- `'\\b'`, `'\\t'`, `'\\n'` and `'\\r'`. -/
def BS : Byte := 8
def TAB : Byte := 9
def LF : Byte := 10
def CR : Byte := 13

/-- The locals of `readline`, the buffer, and what was written to the terminal. -/
structure Line where
  buf : Nat → Byte
  idx : Nat
  echo : List Byte

/-- `buf[i] = byte`, where the buffer has `count` bytes. -/
def Line.store (count : Nat) (s : Line) (i : Nat) (byte : Byte) : Res Line :=
  if i < count then .ok { s with buf := Function.update s.buf i byte } else .error .outOfBounds

/-- How a turn of the loop ends. -/
inductive Turn where
  | goes (s : Line)
  | returns (s : Line)

/-- A turn of the loop of `readline` in which `read` gives a byte.  `idx` is a `u32`. -/
def turn (count : Nat) (s : Line) (byte : Byte) : Res Turn := do
  let s ← s.store count s.idx byte
  let ch := s.buf s.idx
  if ch = LF ∨ ch = CR then
    let s ← s.store count s.idx 0
    return .returns { s with echo := s.echo ++ [ch] }
  else if ch = BS then
    if s.buf 0 ≠ BS then
      return .goes { s with idx := (s.idx + (2 ^ 32 - 1)) % 2 ^ 32, echo := s.echo ++ [BS] }
    else return .goes s
  else if ch = TAB then return .goes s
  else return .goes { s with idx := s.idx + 1, echo := s.echo ++ [ch] }

/-- The loop of `readline` over the bytes of the standard input, and what comes
    after it; behind the last byte `read` returns -1. -/
def readlineLoop (count : Nat) : List Byte → Line → Res Line
  | [], s => s.store count s.idx 0
  | byte :: input, s =>
      if s.idx < count then do
        match ← turn count s byte with
        | .goes s => readlineLoop count input s
        | .returns s => return s
      else s.store count s.idx 0

/-- `readline`. -/
def readline (count : Nat) (buf : Nat → Byte) (input : List Byte) : Res Line :=
  readlineLoop count input { buf := buf, idx := 0, echo := [] }

/-! ## The line that is typed -/

/-- A key changes the line: a backspace deletes the last character, a tab does
    nothing. -/
def editKey (text : List Byte) (key : Byte) : List Byte :=
  if key = BS then text.dropLast else if key = TAB then text else text ++ [key]

/-- The keys in front of the end of the line. -/
def keys (input : List Byte) : List Byte := input.takeWhile fun byte => byte ≠ LF ∧ byte ≠ CR

/-- The line after the keys. -/
def edited (input : List Byte) : List Byte := input.foldl editKey []

/-- The states in which the loop comes to its test, with the bytes it has read. -/
inductive Visited (count : Nat) (buf : Nat → Byte) : List Byte → Line → Prop where
  | start : Visited count buf [] { buf := buf, idx := 0, echo := [] }
  | turn {bytes : List Byte} {byte : Byte} {s s' : Line} : Visited count buf bytes s →
      s.idx < count → turn count s byte = .ok (.goes s') → Visited count buf (bytes ++ [byte]) s'

/-- The buffer holds the line, and the bytes behind it are kept. -/
structure Holds (count : Nat) (buf : Nat → Byte) (s : Line) (text : List Byte) : Prop where
  chars : ∀ (i : Nat) (h : i < text.length), s.buf i = text[i]
  ends : s.buf text.length = 0
  room : text.length < count
  kept : ∀ i, count ≤ i → s.buf i = buf i

/-- What `readline` is to do: it keeps inside the buffer and reads the line. -/
def Edits (count : Nat) (buf : Nat → Byte) (input : List Byte) : Prop :=
  (∀ bytes s, bytes <+: input → Visited count buf bytes s → s.idx ≤ count) ∧
    ∃ s, readline count buf input = .ok s ∧ Holds count buf s (edited (keys input))

/-! ## The turns -/

variable {count : Nat} {buf : Nat → Byte} {s s' : Line} {text input : List Byte} {byte : Byte}

/-- The buffer holds the characters of the line, none of which is a backspace. -/
structure Typed (count : Nat) (buf : Nat → Byte) (s : Line) (text : List Byte) : Prop where
  idx : s.idx = text.length
  chars : ∀ (i : Nat) (h : i < text.length), s.buf i = text[i]
  plain : ∀ key ∈ text, key ≠ BS
  room : text.length ≤ count
  kept : ∀ i, count ≤ i → s.buf i = buf i

theorem store_ok {i : Nat} (h : i < count) :
    s.store count i byte = .ok { s with buf := Function.update s.buf i byte } := if_pos h

theorem Typed.store (h : Typed count buf s text) (byte : Byte) (hroom : text.length < count) :
    Typed count buf { s with buf := Function.update s.buf s.idx byte } text where
  idx := h.idx
  chars := fun i hi => by
    have hne : i ≠ s.idx := by
      rw [h.idx]
      exact Nat.ne_of_lt hi
    exact (Function.update_of_ne hne ..).trans (h.chars i hi)
  plain := h.plain
  room := h.room
  kept := fun i hi => by
    have hne : i ≠ s.idx := by
      have hidx := h.idx
      omega
    exact (Function.update_of_ne hne ..).trans (h.kept i hi)

/-- The line with its terminator. -/
theorem Typed.ended (h : Typed count buf s text) (hroom : text.length < count) :
    Holds count buf { s with buf := Function.update s.buf s.idx 0 } text := by
  have hstore := h.store 0 hroom
  refine ⟨hstore.chars, ?_, hroom, hstore.kept⟩
  rw [← h.idx]
  exact Function.update_self ..

/-- A character more. -/
theorem Typed.append (h : Typed count buf s text) (hroom : text.length < count)
    (hbyte : byte ≠ BS) :
    Typed count buf { buf := Function.update s.buf s.idx byte, idx := s.idx + 1, echo := s.echo ++ [byte] }
      (text ++ [byte]) := by
  have hstore := h.store byte hroom
  refine ⟨?_, fun i hi => ?_, fun key hkey => ?_, ?_, hstore.kept⟩
  · rw [List.length_append, List.length_singleton, h.idx]
  · by_cases hlast : i = text.length
    · subst hlast
      rw [List.getElem_concat_length rfl, ← h.idx]
      exact Function.update_self ..
    · rw [List.length_append, List.length_singleton] at hi
      rw [List.getElem_append_left (by omega)]
      exact hstore.chars i (by omega)
  · rcases List.mem_append.mp hkey with hkey | hkey
    · exact h.plain key hkey
    · rw [List.mem_singleton.mp hkey]
      exact hbyte
  · rw [List.length_append, List.length_singleton]
    exact hroom

/-- A character less. -/
theorem Typed.dropLast (h : Typed count buf s text) (hne : text ≠ []) (hcount : count < 2 ^ 32) :
    Typed count buf { s with idx := (s.idx + (2 ^ 32 - 1)) % 2 ^ 32, echo := s.echo ++ [BS] }
      text.dropLast := by
  have hpos := List.length_pos_iff.mpr hne
  have hroom := h.room
  have hidx := h.idx
  refine ⟨?_, fun i hi => ?_, fun key hkey => h.plain key (List.dropLast_subset _ hkey), ?_, h.kept⟩
  · rw [List.length_dropLast]
    show (s.idx + (2 ^ 32 - 1)) % 2 ^ 32 = text.length - 1
    omega
  · rw [List.length_dropLast] at hi
    rw [List.getElem_dropLast]
    exact h.chars i (by omega)
  · rw [List.length_dropLast]
    omega

/-- What a turn makes of the line. -/
theorem turn_typed (h : Typed count buf s text) (hroom : text.length < count)
    (hcount : count < 2 ^ 32)
    (byte : Byte) : if byte = LF ∨ byte = CR
      then ∃ s', turn count s byte = .ok (.returns s') ∧ Holds count buf s' text
      else ∃ s', turn count s byte = .ok (.goes s') ∧ Typed count buf s' (editKey text byte) := by
  have hidx : s.idx < count := h.idx ▸ hroom
  have hstore := h.store byte hroom
  obtain ⟨t, ht⟩ : ∃ t : Line, t = { s with buf := Function.update s.buf s.idx byte } := ⟨_, rfl⟩
  have htidx : t.idx = s.idx := by rw [ht]
  have hch : t.buf t.idx = byte := by
    rw [ht]
    exact Function.update_self ..
  rw [← ht] at hstore
  have hturn : turn count s byte = (do
      if t.buf t.idx = LF ∨ t.buf t.idx = CR then
        let s ← t.store count t.idx 0
        return .returns { s with echo := s.echo ++ [t.buf t.idx] }
      else if t.buf t.idx = BS then
        if t.buf 0 ≠ BS then
          return .goes { t with idx := (t.idx + (2 ^ 32 - 1)) % 2 ^ 32, echo := t.echo ++ [BS] }
        else return .goes t
      else if t.buf t.idx = TAB then return .goes t
      else return .goes { t with idx := t.idx + 1, echo := t.echo ++ [t.buf t.idx] }) := by
    rw [turn, store_ok hidx, ht]
    rfl
  rw [hturn, hch]
  by_cases hend : byte = LF ∨ byte = CR
  · rw [if_pos hend, if_pos hend, htidx, store_ok hidx]
    have hended := hstore.ended hroom
    rw [htidx] at hended
    exact ⟨_, rfl, hended.chars, hended.ends, hended.room, hended.kept⟩
  rw [if_neg hend, if_neg hend, editKey]
  by_cases hbs : byte = BS
  · rw [if_pos hbs, if_pos hbs]
    cases text with
    | nil =>
        -- at the start of the line the byte itself is the first one
        have hfirst : t.buf 0 = BS := by
          have hzero : t.idx = 0 := htidx.trans h.idx
          rw [← hzero, hch, hbs]
        rw [if_neg (not_not_intro hfirst)]
        exact ⟨_, rfl, hstore⟩
    | cons key text =>
        have hfirst : t.buf 0 ≠ BS := by
          rw [hstore.chars 0 (Nat.succ_pos _)]
          exact hstore.plain key List.mem_cons_self
        rw [if_pos hfirst]
        exact ⟨_, rfl, hstore.dropLast (List.cons_ne_nil _ _) hcount⟩
  rw [if_neg hbs, if_neg hbs]
  by_cases htab : byte = TAB
  · rw [if_pos htab, if_pos htab]
    exact ⟨_, rfl, hstore⟩
  · rw [if_neg htab, if_neg htab]
    have happend := h.append hroom hbs
    refine ⟨_, rfl, ?_⟩
    rw [ht]
    exact happend

/-! ## The loop -/

/-- While the keys in front of the end are typed the line is shorter than the
    buffer. -/
def Fits (count : Nat) (text input : List Byte) : Prop :=
  ∀ bytes, bytes <+: keys input → (bytes.foldl editKey text).length < count

theorem Fits.start (h : Fits count text input) : text.length < count := h [] (List.nil_prefix)

theorem keys_end (h : byte = LF ∨ byte = CR) : keys (byte :: input) = [] := by
  rw [keys, List.takeWhile_cons, if_neg]
  simp only [ne_eq, decide_eq_true_eq, not_and_or, not_not]
  exact h

theorem keys_cons (h : ¬ (byte = LF ∨ byte = CR)) : keys (byte :: input) = byte :: keys input := by
  rw [keys, List.takeWhile_cons, if_pos]
  · rfl
  · simp only [ne_eq, decide_eq_true_eq]
    exact not_or.mp h

/-- A key is typed into a line that fits. -/
theorem fits_cons (hroom : text.length < count) (h : ¬ (byte = LF ∨ byte = CR)) :
    Fits count text (byte :: input) ↔ Fits count (editKey text byte) input := by
  constructor
  · intro hfits bytes hbytes
    refine hfits (byte :: bytes) ?_
    rw [keys_cons h]
    exact List.cons_prefix_cons.mpr ⟨rfl, hbytes⟩
  · intro hfits bytes hbytes
    rw [keys_cons h] at hbytes
    cases bytes with
    | nil => exact hroom
    | cons key bytes =>
        obtain ⟨rfl, hrest⟩ := List.cons_prefix_cons.mp hbytes
        exact hfits bytes hrest

/-- The loop over lines that fit reads the line; else it stores behind the buffer. -/
theorem loop_typed (input : List Byte) (hcount : count < 2 ^ 32) (h : Typed count buf s text) :
    (Fits count text input → ∃ s', readlineLoop count input s = .ok s' ∧
        Holds count buf s' ((keys input).foldl editKey text)) ∧
      (¬ Fits count text input → readlineLoop count input s = .error .outOfBounds) := by
  induction input generalizing s text with
  | nil =>
      rw [readlineLoop]
      refine ⟨fun hfits => ?_, fun hfits => ?_⟩
      · have hroom := hfits.start
        rw [store_ok (h.idx ▸ hroom)]
        exact ⟨_, rfl, h.ended hroom⟩
      · have hfull : ¬ s.idx < count := by
          intro hlt
          refine hfits fun bytes hbytes => ?_
          rw [List.prefix_nil.mp hbytes]
          exact h.idx ▸ hlt
        exact if_neg hfull
  | cons byte input ih =>
      rw [readlineLoop]
      by_cases hroom : text.length < count
      · rw [if_pos (h.idx ▸ hroom)]
        have hturn := turn_typed h hroom hcount byte
        by_cases hend : byte = LF ∨ byte = CR
        · rw [if_pos hend] at hturn
          obtain ⟨s', hs', hholds⟩ := hturn
          rw [hs', keys_end hend]
          refine ⟨fun _ => ⟨s', rfl, hholds⟩, fun hfits => ?_⟩
          refine absurd (fun bytes hbytes => ?_) hfits
          rw [keys_end hend] at hbytes
          rw [List.prefix_nil.mp hbytes]
          exact hroom
        · rw [if_neg hend] at hturn
          obtain ⟨s', hs', htyped⟩ := hturn
          rw [hs', keys_cons hend, fits_cons hroom hend]
          exact ih htyped
      · rw [if_neg fun hlt => hroom (h.idx ▸ hlt)]
        refine ⟨fun hfits => absurd hfits.start hroom, fun _ => ?_⟩
        exact if_neg fun hlt => hroom (h.idx ▸ hlt)

/-- The test of the loop finds a line in the buffer. -/
theorem visited_typed (hcount : count < 2 ^ 32) {bytes : List Byte}
    (h : Visited count buf bytes s) :
    ∃ text, Typed count buf s text := by
  induction h with
  | start => exact ⟨[], rfl, fun _ hi => absurd hi (Nat.not_lt_zero _),
      fun _ hkey => absurd hkey List.not_mem_nil, Nat.zero_le _, fun _ _ => rfl⟩
  | @turn bytes byte s s' _ hlt hturn ih =>
      obtain ⟨text, hline⟩ := ih
      have hnext := turn_typed hline (hline.idx ▸ hlt) hcount byte
      split at hnext
      · obtain ⟨_, hs, -⟩ := hnext
        rw [hturn] at hs
        cases hs
      · obtain ⟨t, ht, htyped⟩ := hnext
        rw [hturn] at ht
        obtain rfl : s' = t := Turn.goes.inj (Except.ok.inj ht)
        exact ⟨_, htyped⟩

/-- `readline` keeps inside its buffer and reads the line exactly for the inputs
    in which the line stays shorter than the buffer. -/
theorem readline_edits (hcount : count < 2 ^ 32) (buf : Nat → Byte) (input : List Byte) :
    Edits count buf input ↔
      ∀ bytes, bytes <+: keys input → (edited bytes).length < count := by
  have hstart : Typed count buf { buf := buf, idx := 0, echo := [] } [] :=
    ⟨rfl, fun _ hi => absurd hi (Nat.not_lt_zero _), fun _ hkey => absurd hkey List.not_mem_nil,
      Nat.zero_le _, fun _ _ => rfl⟩
  obtain ⟨hfits, hlong⟩ := loop_typed input hcount hstart
  constructor
  · rintro ⟨-, s, hs, -⟩
    by_contra hno
    have herror := hlong hno
    rw [readline, herror] at hs
    cases hs
  · intro hline
    refine ⟨fun bytes s _ hvisited => ?_, hfits hline⟩
    obtain ⟨text, htyped⟩ := visited_typed hcount hvisited
    rw [htyped.idx]
    exact htyped.room

/-- A line with a backspace and a tab in the buffer of the shell. -/
theorem readline_edits_short : Edits 256 (fun _ => 0) [0x6C, 0x78, BS, TAB, 0x73, LF, 0x70] ↔
    ∀ bytes, bytes <+: keys [0x6C, 0x78, BS, TAB, 0x73, LF, 0x70] → (edited bytes).length < 256 :=
  readline_edits (by omega) _ _

/-- A line of as many characters as the buffer has bytes gets its terminator
    behind the buffer. -/
theorem long_line :
    (readline 256 (fun _ => 0) (List.replicate 256 0x61 ++ [LF])).map (fun s => s.idx) =
        .error .outOfBounds ∧
      ¬ Edits 256 (fun _ => 0) (List.replicate 256 0x61 ++ [LF]) := by
  have hrun : (readline 256 (fun _ => 0) (List.replicate 256 0x61 ++ [LF])).map (fun s => s.idx) =
      .error .outOfBounds := by
    decide +kernel
  refine ⟨hrun, ?_⟩
  rintro ⟨-, s, hs, -⟩
  rw [hs] at hrun
  cases hrun

end NeonixLineEditor
