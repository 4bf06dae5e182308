import Mathlib.Algebra.Ring.Int.Defs
import Neonix.WordMemory

/-! # Code in assembly language

    The registers, the memory and the few instructions that code needs which
    saves and restores them.  `Same m m' a n` says that two memories agree on
    the `n` bytes from `a` on, `Holds m a ws` that the words `ws` stand there. -/

namespace NeonixAssembly

open NeonixByteBits NeonixWordMemory

abbrev Word := BitVec 32

/-- A processor: a selector is kept as the word it is pushed as. -/
structure Cpu where
  eax : Word
  ecx : Word
  edx : Word
  ebx : Word
  esp : Word
  ebp : Word
  esi : Word
  edi : Word
  gs : Word
  fs : Word
  es : Word
  ds : Word
  eip : Word
  cs : Word
  eflags : Word
  ss : Word
  memory : Memory

inductive Reg where
  | eax
  | ecx
  | edx
  | ebx
  | esp
  | ebp
  | esi
  | edi
  | gs
  | fs
  | es
  | ds
  deriving DecidableEq

def Cpu.get (c : Cpu) : Reg → Word
  | .eax => c.eax
  | .ecx => c.ecx
  | .edx => c.edx
  | .ebx => c.ebx
  | .esp => c.esp
  | .ebp => c.ebp
  | .esi => c.esi
  | .edi => c.edi
  | .gs => c.gs
  | .fs => c.fs
  | .es => c.es
  | .ds => c.ds

def Cpu.set (c : Cpu) (r : Reg) (v : Word) : Cpu :=
  match r with
  | .eax => { c with eax := v }
  | .ecx => { c with ecx := v }
  | .edx => { c with edx := v }
  | .ebx => { c with ebx := v }
  | .esp => { c with esp := v }
  | .ebp => { c with ebp := v }
  | .esi => { c with esi := v }
  | .edi => { c with edi := v }
  | .gs => { c with gs := v }
  | .fs => { c with fs := v }
  | .es => { c with es := v }
  | .ds => { c with ds := v }

def Cpu.push (c : Cpu) (v : Word) : Cpu :=
  { c with esp := c.esp - 4, memory := store c.memory (c.esp - 4) v }

/-- The word on top of the stack. -/
def Cpu.top (c : Cpu) : Word := load c.memory c.esp

/-- The stack without its top. -/
def Cpu.drop (c : Cpu) : Cpu := { c with esp := c.esp + 4 }

def Cpu.pop (c : Cpu) (r : Reg) : Cpu := c.drop.set r c.top

inductive Instr where
  | push (r : Reg)
  | pushWord (w : Word)
  | pop (r : Reg)
  | mov (r s : Reg)
  /-- `mov r, [s + offset]` -/
  | load (r s : Reg) (offset : Word)
  /-- `mov [r + offset], s` -/
  | store (r : Reg) (offset : Word) (s : Reg)
  | and (r : Reg) (w : Word)
  | add (r : Reg) (w : Word)
  | pusha
  | popa
  | ret
  | iret

/-- `iret`: the stack comes back too where the code it returns to has fewer privileges. -/
def Cpu.iret (c : Cpu) : Cpu :=
  let c1 := { c.drop with eip := c.top }
  let c2 := { c1.drop with cs := c1.top }
  let c3 := { c2.drop with eflags := c2.top }
  if c.cs &&& 3 < c3.cs &&& 3 then { c3 with esp := c3.top, ss := c3.drop.top } else c3

def Instr.exec (c : Cpu) : Instr → Cpu
  | .push r => c.push (c.get r)
  | .pushWord w => c.push w
  | .pop r => c.pop r
  | .mov r s => c.set r (c.get s)
  | .load r s offset => c.set r (NeonixWordMemory.load c.memory (c.get s + offset))
  | .store r offset s =>
      { c with memory := NeonixWordMemory.store c.memory (c.get r + offset) (c.get s) }
  | .and r w => c.set r (c.get r &&& w)
  | .add r w => c.set r (c.get r + w)
  | .pusha =>
      (((((((c.push c.eax).push c.ecx).push c.edx).push c.ebx).push c.esp).push c.ebp).push
        c.esi).push c.edi
  -- the word of `esp` is left out
  | .popa =>
      ((((((((c.pop .edi).pop .esi).pop .ebp).drop).pop .ebx).pop .edx).pop .ecx).pop .eax)
  | .ret => { c.drop with eip := c.top }
  | .iret => c.iret

def exec (code : List Instr) (c : Cpu) : Cpu := code.foldl Instr.exec c

/-- `memset`. -/
def memset (m : Memory) (a : Word) (v : Byte) (n : Nat) : Memory := fun x =>
  if (x - a).toNat < n then v else m x

/-- `memcpy`. -/
def memcpy (m : Memory) (dest src : Word) (n : Nat) : Memory := fun x =>
  if (x - dest).toNat < n then m (src + (x - dest)) else m x

/-! ## Bytes that stay -/

def Same (m m' : Memory) (a : Word) (n : Nat) : Prop := ∀ x, (x - a).toNat < n → m' x = m x

variable {m m' m'' : Memory} {a b v w : Word} {n k : Nat} {ws : List Word}

theorem Same.refl : Same m m a n := fun _ _ => rfl

theorem Same.trans (h : Same m m' a n) (h' : Same m' m'' a n) : Same m m'' a n :=
  fun x hx => (h' x hx).trans (h x hx)

/-- A part of the bytes. -/
theorem Same.part (h : Same m m' a n) (hk : (b - a).toNat + k ≤ n) : Same m m' b k := by
  intro x hx
  refine h x ?_
  have hsum : x - a = (x - b) + (b - a) := (sub_add_sub_cancel x b a).symm
  have hle : (x - a).toNat ≤ (x - b).toNat + (b - a).toNat := by
    rw [hsum, BitVec.toNat_add]
    exact Nat.mod_le _ _
  omega

theorem Same.load (h : Same m m' a n) (hb : (b - a).toNat + 4 ≤ n) :
    load m' b = NeonixWordMemory.load m b := by
  have hbyte : ∀ o : Word, o.toNat < 4 → m' (b + o) = m (b + o) := by
    intro o ho
    refine h.part hb (b + o) ?_
    rw [add_sub_cancel_left]
    exact ho
  have hfirst := hbyte 0 (by decide)
  rw [add_zero] at hfirst
  rw [NeonixWordMemory.load, NeonixWordMemory.load, hfirst, hbyte 1 (by decide),
    hbyte 2 (by decide), hbyte 3 (by decide)]

/-- A store behind the bytes leaves them. -/
theorem Same.store (hn : n ≤ (b - a).toNat) (ha : 4 ≤ (a - b).toNat) :
    Same m (store m b v) a n := by
  intro x hx
  rw [NeonixWordMemory.store, if_neg]
  intro hlt
  have hsum : b - a = (x - a) - (x - b) := (sub_sub_sub_cancel_left a b x).symm
  have hsum' : a - b = (x - b) - (x - a) := (sub_sub_sub_cancel_left b a x).symm
  bv_omega

/-- The bytes that a store leaves where it does not touch them. -/
theorem Same.stored (h : Same m m' a n) (hn : n ≤ (b - a).toNat) (ha : 4 ≤ (a - b).toNat) :
    Same m (NeonixWordMemory.store m' b v) a n := h.trans (.store hn ha)

/-! ## Words on a stack -/

def Holds (m : Memory) (a : Word) : List Word → Prop
  | [] => True
  | w :: ws => NeonixWordMemory.load m a = w ∧ Holds m (a + 4) ws

theorem Holds.same (h : Holds m a ws) (hs : Same m m' a n) (hn : 4 * ws.length ≤ n)
    (hmax : n ≤ 2 ^ 32) : Holds m' a ws := by
  induction ws generalizing a n with
  | nil => trivial
  | cons w ws ih =>
      obtain ⟨hw, hws⟩ := h
      rw [List.length_cons] at hn
      refine ⟨(hs.load (by rw [sub_self]; show 0 + 4 ≤ n; omega)).trans hw, ?_⟩
      have hnext : (a + 4 - a).toNat = 4 := by
        rw [add_sub_cancel_left]
        rfl
      exact ih hws (hs.part (show (a + 4 - a).toNat + (n - 4) ≤ n by omega)) (by omega) (by omega)

/-- A word that is pushed lies before the others. -/
theorem Holds.push (h : Holds m a ws) (hn : 4 * ws.length + 4 ≤ 2 ^ 32) :
    Holds (store m (a - 4) w) (a - 4) (w :: ws) := by
  refine ⟨load_store, ?_⟩
  rw [sub_add_cancel]
  refine h.same (.store (n := 4 * ws.length) ?_ ?_) (Nat.le_refl _) (by omega)
  · rw [sub_sub_cancel_left]
    show 4 * ws.length ≤ 2 ^ 32 - 4
    omega
  · rw [sub_sub_cancel]
    exact Nat.le_refl 4

theorem Holds.append {vs : List Word} : Holds m a (vs ++ ws) ↔
    Holds m a vs ∧ Holds m (a + BitVec.ofNat 32 (4 * vs.length)) ws := by
  induction vs generalizing a with
  | nil =>
      rw [List.nil_append, List.length_nil, Nat.mul_zero]
      show _ ↔ True ∧ Holds m (a + 0) ws
      rw [add_zero, true_and]
  | cons v vs ih =>
      have hlen : a + 4 + BitVec.ofNat 32 (4 * vs.length) =
          a + BitVec.ofNat 32 (4 * (v :: vs).length) := by
        rw [List.length_cons, Nat.mul_add, Nat.add_comm, BitVec.ofNat_add, ← add_assoc]
        rfl
      show _ ∧ Holds m (a + 4) (vs ++ ws) ↔ (_ ∧ Holds m (a + 4) vs) ∧ _
      rw [ih, hlen, and_assoc]

/-- The words of a copy. -/
theorem Holds.copy {o dest : Word} (h : Holds m (a + o) ws)
    (hn : o.toNat + 4 * ws.length ≤ n) :
    Holds (memcpy m dest a n) (dest + o) ws := by
  induction ws generalizing o with
  | nil => trivial
  | cons w ws ih =>
      obtain ⟨hw, hws⟩ := h
      rw [List.length_cons] at hn
      have hbyte : ∀ k : Word, k.toNat < 4 →
          memcpy m dest a n (dest + o + k) = m (a + o + k) := by
        intro k hk
        have hoff : dest + o + k - dest = o + k := by
          rw [add_assoc, add_sub_cancel_left]
        have hle := Nat.mod_le (o.toNat + k.toNat) (2 ^ 32)
        rw [memcpy, hoff, if_pos, add_assoc]
        rw [BitVec.toNat_add]
        omega
      have hfirst := hbyte 0 (by decide)
      rw [add_zero, add_zero] at hfirst
      refine ⟨?_, ?_⟩
      · rw [← hw, NeonixWordMemory.load, NeonixWordMemory.load, hfirst, hbyte 1 (by decide),
          hbyte 2 (by decide), hbyte 3 (by decide)]
      · rw [add_assoc] at hws ⊢
        refine ih hws ?_
        have hle := Nat.mod_le (o.toNat + (4 : Word).toNat) (2 ^ 32)
        rw [BitVec.toNat_add]
        show _ + _ ≤ n
        have hfour : (4 : Word).toNat = 4 := rfl
        omega

/-- A store to one of the words leaves the others. -/
theorem Holds.set (vs ws : List Word) (h : Holds m a (vs ++ w :: ws))
    (hn : 4 * (vs.length + ws.length + 1) ≤ 2 ^ 32) :
    Holds (store m (a + BitVec.ofNat 32 (4 * vs.length)) v) a (vs ++ v :: ws) := by
  obtain ⟨hfront, -, hrest⟩ := Holds.append.mp h
  obtain ⟨b, hb⟩ : ∃ b, a + BitVec.ofNat 32 (4 * vs.length) = b := ⟨_, rfl⟩
  have hlen : (b - a).toNat = 4 * vs.length := by
    rw [← hb, add_sub_cancel_left, BitVec.toNat_ofNat, Nat.mod_eq_of_lt (by omega)]
  rw [hb] at hrest ⊢
  refine Holds.append.mpr ⟨?_, ?_⟩
  · cases vs with
    | nil => trivial
    | cons x xs =>
        rw [List.length_cons] at hlen hn
        refine hfront.same (.store (n := 4 * (xs.length + 1)) hlen.ge ?_) (Nat.le_refl _) (by omega)
        bv_omega
  · rw [hb]
    refine ⟨load_store, hrest.same (.store (n := 4 * ws.length) ?_ ?_) (Nat.le_refl _) (by omega)⟩
    · rw [show b - (b + 4) = -4 from sub_add_cancel_left b 4]
      show 4 * ws.length ≤ 2 ^ 32 - 4
      omega
    · rw [add_sub_cancel_left]
      exact Nat.le_refl 4

/-- The words are pushed one after the other. -/
def Cpu.pushAll (c : Cpu) : List Word → Cpu
  | [] => c
  | w :: ws => (c.push w).pushAll ws

variable {c : Cpu} {vs : List Word} {x : Word}

theorem pushAll_esp (c : Cpu) (ws : List Word) :
    (c.pushAll ws).esp = c.esp - BitVec.ofNat 32 (4 * ws.length) := by
  induction ws generalizing c with
  | nil => exact (sub_zero c.esp).symm
  | cons w ws ih =>
      rw [Cpu.pushAll, ih, List.length_cons, Nat.mul_add, Nat.add_comm, BitVec.ofNat_add, ← sub_sub]
      rfl

/-- The words lie on the stack in turn, the last one first. -/
theorem pushAll_holds (ws : List Word) (h : Holds c.memory c.esp vs) (hn : 4 * (ws.length + vs.length) ≤ 2 ^ 32) :
    Holds (c.pushAll ws).memory (c.pushAll ws).esp (ws.reverse ++ vs) := by
  induction ws generalizing c vs with
  | nil => exact h
  | cons w ws ih =>
      rw [List.length_cons] at hn
      rw [List.reverse_cons, List.append_assoc]
      have hpush : Holds (c.push w).memory (c.push w).esp (w :: vs) := h.push (by omega)
      exact ih hpush (by show 4 * (ws.length + (vs.length + 1)) ≤ 2 ^ 32; omega)

/-- The bytes outside of the words stay. -/
theorem pushAll_byte (hx : 4 * ws.length ≤ (x - (c.esp - BitVec.ofNat 32 (4 * ws.length))).toNat) :
    (c.pushAll ws).memory x = c.memory x := by
  induction ws generalizing c with
  | nil => rfl
  | cons w ws ih =>
      have hfirst : c.esp - BitVec.ofNat 32 (4 * (w :: ws).length) =
          c.esp - 4 - BitVec.ofNat 32 (4 * ws.length) := by
        rw [List.length_cons, Nat.mul_add, Nat.add_comm, BitVec.ofNat_add, ← sub_sub]
        rfl
      rw [hfirst, List.length_cons] at hx
      have hrest : (c.push w).esp = c.esp - 4 := rfl
      rw [Cpu.pushAll, ih (by rw [hrest]; omega)]
      show store c.memory (c.esp - 4) w x = _
      rw [store, if_neg]
      intro hlt
      obtain ⟨k, hk⟩ : ∃ k, BitVec.ofNat 32 (4 * ws.length) = k := ⟨_, rfl⟩
      have hle : k.toNat ≤ 4 * ws.length := by
        rw [← hk, BitVec.toNat_ofNat]
        exact Nat.mod_le _ _
      have hsum : x - (c.esp - 4 - k) = (x - (c.esp - 4)) + k := by
        rw [sub_sub_eq_add_sub, sub_add_eq_add_sub]
      rw [hk, hsum, BitVec.toNat_add] at hx
      have hmod := Nat.mod_le ((x - (c.esp - 4)).toNat + k.toNat) (2 ^ 32)
      omega

end NeonixAssembly
