import Neonix.Components

/-! # The contents of a directory

    What the blocks of a directory say, without the walk over buffers that finds
    it: `blockOf` is the block behind a part of a file, `entryPlace` where an entry
    is and `nameOf` its name.  `findLoop_spec` is the search of `find_entry` in
    these terms: it finds the first live entry with the first component as its
    name, and leaves `next` behind that component. -/

namespace NeonixDirectories

open NeonixMachine NeonixOutcome NeonixByteBits NeonixWords NeonixVolume NeonixCalls
  NeonixFileSystem NeonixNamei NeonixComponents

/-! ## Names -/

/-- The string at the start of `n` bytes. -/
def stringAt : Bytes → Nat → Str
  | _, 0 => []
  | b, n + 1 => if b 0 = 0 then [] else b 0 :: stringAt (fun k => b (k + 1)) n

/-- The string ends within `n` bytes. -/
def Terminated (b : Bytes) (n : Nat) : Prop := ∃ k < n, b k = 0

instance (b : Bytes) (n : Nat) : Decidable (Terminated b n) :=
  inferInstanceAs (Decidable (∃ k < n, b k = 0))

variable {b : Bytes} {n room : Nat} {path : Str}

theorem Terminated.tail (h : Terminated b (n + 1)) (h0 : b 0 ≠ 0) :
    Terminated (fun k => b (k + 1)) n := by
  obtain ⟨k, hk, hz⟩ := h
  cases k with
  | zero => exact absurd hz h0
  | succ k => exact ⟨k, Nat.lt_of_succ_lt_succ hk, hz⟩

/-- `match_name` does not read beyond the end of the entry's name. -/
theorem matchName_returns (path : Str) (h : Terminated b n) (hroom : n ≤ room) :
    ∃ m, matchName path b room = .ok m := by
  induction n generalizing b room path with
  | zero =>
      obtain ⟨k, hk, -⟩ := h
      exact absurd hk (Nat.not_lt_zero k)
  | succ n ih =>
      cases room with
      | zero => exact absurd hroom (Nat.not_succ_le_zero n)
      | succ room =>
          cases path with
          | nil => exact ⟨_, rfl⟩
          | cons c path =>
              rw [matchName]
              by_cases h0 : b 0 = 0
              · rw [if_neg (fun hc => hc.2 h0), if_neg (not_not.mpr h0)]
                split_ifs
                · exact ⟨_, rfl⟩
                · exact ⟨_, rfl⟩
              · split_ifs
                · exact ih path (h.tail h0) (Nat.le_of_succ_le_succ hroom)
                · exact ⟨_, rfl⟩

/-- `match_name` finds the first component, and the rest of the path with it. -/
theorem matchName_spec (h : Terminated b n) (hroom : n ≤ room)
    (hsep : ∀ c ∈ stringAt b n, ¬ isSeparator c) :
    matchName path b room =
      .ok (if stringAt b n = first path then some (rest path) else none) := by
  induction n generalizing b room path with
  | zero =>
      obtain ⟨k, hk, -⟩ := h
      exact absurd hk (Nat.not_lt_zero k)
  | succ n ih =>
      cases room with
      | zero => exact absurd hroom (Nat.not_succ_le_zero n)
      | succ room =>
          by_cases h0 : b 0 = 0
          · have hname : stringAt b (n + 1) = [] := by rw [stringAt, if_pos h0]
            rw [hname]
            cases path with
            | nil =>
                rw [matchName, if_neg (not_not.mpr h0)]
                rfl
            | cons c path =>
                rw [matchName, if_neg (fun hc => hc.2 h0), if_neg (not_not.mpr h0)]
                by_cases hc : isSeparator c
                · rw [if_neg (not_not.mpr hc), first_cons_sep hc, rest_cons_sep hc, if_pos rfl]
                · rw [if_pos hc, first_cons hc, if_neg (List.cons_ne_nil _ _).symm]
          · have hname : stringAt b (n + 1) = b 0 :: stringAt (fun k => b (k + 1)) n := by
              rw [stringAt, if_neg h0]
            rw [hname] at hsep ⊢
            have hb0 : ¬ isSeparator (b 0) := hsep _ (List.mem_cons_self ..)
            cases path with
            | nil =>
                rw [matchName, if_pos h0]
                exact congrArg Except.ok (if_neg (List.cons_ne_nil _ _)).symm
            | cons c path =>
                rw [matchName]
                by_cases hc : c = b 0
                · subst hc
                  rw [if_pos ⟨rfl, h0⟩, first_cons hb0, rest_cons hb0]
                  rw [ih (h.tail h0) (Nat.le_of_succ_le_succ hroom)
                    fun c hc => hsep c (List.mem_cons_of_mem _ hc)]
                  simp only [List.cons.injEq, true_and]
                · rw [if_neg (fun hx => hc hx.1), if_pos h0]
                  refine congrArg Except.ok (if_neg fun heq => hc ?_).symm
                  by_cases hcs : isSeparator c
                  · rw [first_cons_sep hcs] at heq
                    exact absurd heq (List.cons_ne_nil _ _)
                  · rw [first_cons hcs] at heq
                    exact (List.cons.inj heq).1.symm

/-- The component `..`. -/
def dotdot : Str := [0x2E, 0x2E]

theorem matchName_dotdot :
    matchName path DOTDOT 3 = .ok (if first path = dotdot then some (rest path) else none) := by
  have hname : stringAt DOTDOT 3 = dotdot := by decide
  rw [matchName_spec (n := 3) (by decide) Nat.le.refl (by decide), hname]
  congr 1
  by_cases h : first path = dotdot
  · rw [if_pos h, if_pos h.symm]
  · rw [if_neg h, if_neg (Ne.symm h)]

/-! ## Blocks of a file -/

/-- Follow a slot of an array of block numbers, then the slots `js` of the index
    blocks behind it. -/
def through (s : Kernel) (dev : Dev) : Place → Nat → List Nat → Nat
  | array, i, [] => (s.index array i).toNat
  | array, i, j :: js =>
      if s.index array i = 0 then 0
      else through s dev { dev := dev, block := (s.index array i).toNat, off := 0 } j js

/-- The block behind part `n` of the file with a descriptor, 0 for none. -/
def blockOf (s : Kernel) (desc : Place) (n : Nat) : Nat :=
  let zone := desc.add 14
  if n < DIRECT_BLOCK then through s desc.dev zone n []
  else if n - DIRECT_BLOCK < INDIRECT1_BLOCK then
    through s desc.dev zone DIRECT_BLOCK [n - DIRECT_BLOCK]
  else
    let n := n - DIRECT_BLOCK - INDIRECT1_BLOCK
    through s desc.dev zone (DIRECT_BLOCK + 1) [n / BLOCK_INDEXES, n % BLOCK_INDEXES]

variable {bad : Halt → Prop} {s : Kernel} {dev : Dev} {i dir : Nat}

/-- Past an assertion that holds. -/
theorem past_assert {β : Type} {p : Prop} [Decidable p] {f : Unit → Fs β}
    {R : β → Kernel → Prop} (hp : p) (h : From bad s (f ()) R) :
    From bad s (assert p >>= f) R := by
  rw [assert, if_pos hp]
  exact h

/-- Past a pointer that is not null. -/
theorem past_deref {α β : Type} {a : α} {f : α → Fs β} {R : β → Kernel → Prop}
    (h : From bad s (f a) R) : From bad s (deref (some a) >>= f) R := h

theorem toNat_eq_zero {w : Nat} (x : BitVec w) : x.toNat = 0 ↔ x = 0 := by
  rw [← BitVec.toNat_inj]
  rfl

/-- The slots of the index blocks `reckon` goes through. -/
def slotsOf : (level block divider : Nat) → List Nat
  | 0, _, _ => []
  | level + 1, block, divider =>
      block / divider :: slotsOf level (block % divider) (divider / BLOCK_INDEXES)

/-- A slot that is not 0 is read, and nothing changes. -/
theorem slot_mapped {array : Place} {create : Bool} (h : s.index array i ≠ 0) :
    From bad s (slot dev create array i) fun r t => t = s ∧ r = (s.index array i).toNat :=
  From.get (From.onlyIf (fun hz => absurd hz.1 h) fun _ => From.get (From.pure ⟨rfl, rfl⟩))

theorem reckon_mapped {array : Place} {create : Bool} {level block divider : Nat}
    (h : through s dev array i (slotsOf level block divider) ≠ 0) :
    From bad s (reckon dev create level array i block divider) fun r t =>
      t = s ∧ r = through s dev array i (slotsOf level block divider) := by
  induction level generalizing array i block divider with
  | zero => exact slot_mapped fun hz => h ((toNat_eq_zero _).mpr hz)
  | succ level ih =>
      rw [slotsOf, through] at h ⊢
      have hne : s.index array i ≠ 0 := fun hz => h (if_pos hz)
      rw [if_neg hne] at h ⊢
      refine From.bind (slot_mapped hne) ?_
      rintro _ s ⟨rfl, rfl⟩
      exact From.ite (fun hz => absurd ((toNat_eq_zero _).mp hz) hne) fun _ => ih h

/-- `bmap` of a part that is there only reads. -/
theorem bmap_mapped {create : Bool} (hn : n < TOTAL_BLOCK)
    (hdev : (s.inode_table i).dev = (s.desc i).dev) (h : blockOf s (s.desc i) n ≠ 0) :
    From bad s (bmap i n create) fun r t => t = s ∧ r = blockOf s (s.desc i) n := by
  rw [bmap]
  refine past_assert hn ?_
  refine From.get ?_
  rw [hdev]
  rw [blockOf] at h ⊢
  refine From.ite (fun h7 => ?_) fun h7 => From.ite (fun h1 => ?_) fun h1 => ?_
  · rw [if_pos h7] at h ⊢
    refine (reckon_mapped ?_).post fun _ _ hr => hr
    exact h
  · rw [if_neg h7, if_pos h1] at h ⊢
    refine (reckon_mapped ?_).post ?_
    · rw [slotsOf, slotsOf, Nat.div_one]
      exact h
    · rw [slotsOf, slotsOf, Nat.div_one]
      exact fun _ _ hr => hr
  · rw [if_neg h7, if_neg h1] at h ⊢
    have hlast : n - DIRECT_BLOCK - INDIRECT1_BLOCK < INDIRECT2_BLOCK := by
      rw [TOTAL_BLOCK] at hn
      omega
    dsimp only at h ⊢
    rw [assert, if_pos hlast]
    refine From.post (reckon_mapped ?_) ?_
    · rw [slotsOf, slotsOf, slotsOf, show BLOCK_INDEXES / BLOCK_INDEXES = 1 by decide, Nat.div_one]
      exact h
    · rw [slotsOf, slotsOf, slotsOf, show BLOCK_INDEXES / BLOCK_INDEXES = 1 by decide, Nat.div_one]
      exact fun _ _ hr => hr

/-! ## Entries -/

/-- Entry `n` of the directory with a descriptor. -/
def entryPlace (s : Kernel) (desc : Place) (n : Nat) : Place where
  dev := desc.dev
  block := blockOf s desc (n / BLOCK_DENTRIES)
  off := 16 * (n % BLOCK_DENTRIES)

/-- The name of an entry. -/
def nameOf (s : Kernel) (entry : Place) : Str := stringAt (s.bytes (entry.add 2)) NAME_LEN

/-- The number of entries of the directory with a descriptor. -/
def entriesOf (s : Kernel) (desc : Place) : Nat := (u32At (s.bytes desc) 4).toNat / 16

/-- A live entry. -/
def Live (s : Kernel) (entry : Place) : Prop := s.entryNr entry ≠ 0

instance (s : Kernel) (entry : Place) : Decidable (Live s entry) :=
  inferInstanceAs (Decidable (_ ≠ _))

/-- An entry is in a block of its directory and its name ends; that of a live one
    is not empty and has no separator, and its number is one of the file system. -/
structure EntryOk (s : Kernel) (desc : Place) (inodes n : Nat) : Prop where
  inFile : n / BLOCK_DENTRIES < TOTAL_BLOCK
  mapped : blockOf s desc (n / BLOCK_DENTRIES) ≠ 0
  ends : Terminated (s.bytes ((entryPlace s desc n).add 2)) NAME_LEN
  named : Live s (entryPlace s desc n) → nameOf s (entryPlace s desc n) ≠ []
  plain : Live s (entryPlace s desc n) → ∀ c ∈ nameOf s (entryPlace s desc n), ¬ isSeparator c
  number : s.entryNr (entryPlace s desc n) ≤ inodes

/-- The directory with a descriptor, of a file system with so many inodes. -/
def DirectoryOk (s : Kernel) (desc : Place) (inodes : Nat) : Prop :=
  ∀ n < entriesOf s desc, EntryOk s desc inodes n

/-- The first live entry of that name. -/
def lookup (s : Kernel) (desc : Place) (name : Str) : Option Nat :=
  (List.range (entriesOf s desc)).find? fun n =>
    Live s (entryPlace s desc n) ∧ nameOf s (entryPlace s desc n) = name

theorem lookup_some {desc : Place} {name : Str} {e : Nat} (h : lookup s desc name = some e) :
    e < entriesOf s desc ∧ Live s (entryPlace s desc e) ∧
    nameOf s (entryPlace s desc e) = name := by
  have hfound := List.find?_some (p := fun n =>
    decide (Live s (entryPlace s desc n) ∧ nameOf s (entryPlace s desc n) = name)) h
  exact ⟨List.mem_range.mp (List.mem_of_find?_eq_some h), of_decide_eq_true hfound⟩

/-- Where the loop over a directory is: at entry `n`, or at the end of the block
    before it. -/
def Cursor (s : Kernel) (desc : Place) (n : Nat) : Option Place → Prop
  | none => n % BLOCK_DENTRIES = 0
  | some entry =>
      if n % BLOCK_DENTRIES = 0 then entry.off = BLOCK_SIZE else entry = entryPlace s desc n

theorem Cursor.next {desc : Place} : Cursor s desc (n + 1) (some ((entryPlace s desc n).add 16)) := by
  have hmod : (n + 1) % 64 = 0 ∧ n % 64 = 63 ∨
      (n + 1) % 64 = n % 64 + 1 ∧ (n + 1) / 64 = n / 64 := by omega
  rw [Cursor, BLOCK_DENTRIES]
  rcases hmod with ⟨h0, h63⟩ | ⟨hsucc, hdiv⟩
  · rw [if_pos h0]
    show 16 * (n % 64) + 16 = 1024
    omega
  · rw [if_neg (by omega)]
    show ({ dev := desc.dev, block := _, off := 16 * (n % 64) + 16 } : Place) =
      { dev := desc.dev, block := blockOf s desc ((n + 1) / 64), off := 16 * ((n + 1) % 64) }
    rw [hdiv, hsucc]
    rfl

theorem entryAt_mapped {create : Bool} {entry : Option Place}
    (hdev : (s.inode_table dir).dev = (s.desc dir).dev)
    (hin : n / BLOCK_DENTRIES < TOTAL_BLOCK) (hb : blockOf s (s.desc dir) (n / BLOCK_DENTRIES) ≠ 0)
    (hc : Cursor s (s.desc dir) n entry) :
    From bad s (entryAt dir n create entry) fun e t => t = s ∧ e = entryPlace s (s.desc dir) n := by
  have hload (h0 : n % BLOCK_DENTRIES = 0) : From bad s (do
      let block ← bmap dir (n / BLOCK_DENTRIES) create
      assert (block ≠ 0)
      return { dev := ((← get).inode_table dir).dev, block := block, off := 0 } : Fs Place)
      fun e t => t = s ∧ e = entryPlace s (s.desc dir) n := by
    refine From.bind (bmap_mapped hin hdev hb) ?_
    rintro _ s ⟨rfl, rfl⟩
    refine past_assert hb (From.get (From.pure ⟨rfl, ?_⟩))
    rw [entryPlace, h0, hdev]
  rw [entryAt]
  cases entry with
  | none => exact hload hc
  | some e =>
      rw [Cursor] at hc
      by_cases h0 : n % BLOCK_DENTRIES = 0
      · rw [if_pos h0] at hc
        rw [Option.filter_some, if_neg (by simp [hc])]
        exact hload h0
      · rw [if_neg h0] at hc
        subst hc
        have hoff : (entryPlace s (s.desc dir) n).off < BLOCK_SIZE := by
          show 16 * (n % 64) < 1024
          omega
        rw [Option.filter_some, if_pos (decide_eq_true hoff)]
        exact From.pure ⟨rfl, rfl⟩

/-- Past a function that reads no state and returns. -/
theorem past_ofRes {α β : Type} {r : Res α} {a : α} {f : α → Fs β} {R : β → Kernel → Prop}
    (hr : r = .ok a) (h : From bad s (f a) R) : From bad s (ofRes r >>= f) R := by
  rw [hr]
  exact h

theorem room_entry (s : Kernel) (desc : Place) (n : Nat) :
    NAME_LEN ≤ BLOCK_SIZE - ((entryPlace s desc n).off + 2) := by
  show 14 ≤ 1024 - (16 * (n % 64) + 2)
  omega

/-- The name of an entry against a path. -/
theorem matchEntry_read {desc : Place} {inodes : Nat} (hok : EntryOk s desc inodes n) :
    From bad s (matchEntry path (entryPlace s desc n)) fun m t => t = s ∧
      (Live s (entryPlace s desc n) →
        m = if nameOf s (entryPlace s desc n) = first path then some (rest path) else none) := by
  have hroom := room_entry s desc n
  refine From.get ?_
  by_cases hlive : Live s (entryPlace s desc n)
  · rw [matchName_spec hok.ends hroom (hok.plain hlive)]
    exact From.pure ⟨rfl, fun _ => rfl⟩
  · obtain ⟨m, hm⟩ := matchName_returns path hok.ends hroom
    rw [hm]
    exact From.pure ⟨rfl, fun h => absurd h hlive⟩

/-- What the loop of `find_entry` is to find from entry `i` on. -/
def lookupFrom (s : Kernel) (desc : Place) (name : Str) (i left : Nat) : Option Nat :=
  (List.range' i left).find? fun n =>
    Live s (entryPlace s desc n) ∧ nameOf s (entryPlace s desc n) = name

/-- The result of the search for a path: the entry of its first component, and the
    rest of the path. -/
def Found (s : Kernel) (desc : Place) (path : Str) (found : Option Nat)
    (r : Option Place × Str) : Prop :=
  match found with
  | none => r.1 = none
  | some n => r = (some (entryPlace s desc n), rest path)

/-- The loop of `find_entry`. -/
theorem findLoop_spec {left inodes : Nat} {next : Str} {entry : Option Place}
    (hdev : (s.inode_table dir).dev = (s.desc dir).dev)
    (hok : ∀ n < i + left, EntryOk s (s.desc dir) inodes n) (hc : Cursor s (s.desc dir) i entry) :
    From bad s (findLoop dir path left i entry next) fun r t => t = s ∧
      Found s (s.desc dir) path (lookupFrom s (s.desc dir) (first path) i left) r := by
  induction left generalizing i entry next with
  | zero => exact From.pure ⟨rfl, rfl⟩
  | succ left ih =>
      have hi := hok i (by omega)
      refine From.bind (entryAt_mapped hdev hi.inFile hi.mapped hc) ?_
      rintro _ s ⟨rfl, rfl⟩
      refine From.bind (matchEntry_read hi) ?_
      rintro m s ⟨rfl, hm⟩
      refine From.get (From.ite (fun h => ?_) fun h => ?_)
      · -- this entry is the one
        have hlive : Live s (entryPlace s (s.desc dir) i) := h.2
        have hname : nameOf s (entryPlace s (s.desc dir) i) = first path := by
          by_contra hne
          rw [hm hlive, if_neg hne] at h
          exact absurd h.1 (by decide)
        refine From.pure ⟨rfl, ?_⟩
        rw [lookupFrom, List.range'_succ, List.find?_cons_of_pos (by simp [hlive, hname]),
          hm hlive, if_pos hname]
        rfl
      · have hskip : ¬ (Live s (entryPlace s (s.desc dir) i) ∧
            nameOf s (entryPlace s (s.desc dir) i) = first path) := by
          rintro ⟨hlive, hname⟩
          rw [hm hlive, if_pos hname] at h
          exact h ⟨rfl, hlive⟩
        have hrest : lookupFrom s (s.desc dir) (first path) i (left + 1) =
            lookupFrom s (s.desc dir) (first path) (i + 1) left := by
          rw [lookupFrom, lookupFrom, List.range'_succ,
            List.find?_cons_of_neg (by simpa using hskip)]
        rw [hrest]
        exact ih (fun n hn => hok n (by omega)) Cursor.next

theorem lookupFrom_all {desc : Place} {name : Str} :
    lookupFrom s desc name 0 (entriesOf s desc) = lookup s desc name := by
  rw [lookupFrom, lookup, List.range_eq_range']

/-- The whole search. -/
theorem findLoop_lookup {inodes : Nat} {next : Str}
    (hdev : (s.inode_table dir).dev = (s.desc dir).dev)
    (hok : DirectoryOk s (s.desc dir) inodes) :
    From bad s (findLoop dir path (s.size dir / 16) 0 none next) fun r t => t = s ∧
      Found s (s.desc dir) path (lookup s (s.desc dir) (first path)) r := by
  rw [← lookupFrom_all]
  refine findLoop_spec hdev (fun n hn => hok n ?_) rfl
  rwa [Nat.zero_add] at hn

end NeonixDirectories
