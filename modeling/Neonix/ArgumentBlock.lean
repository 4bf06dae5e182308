import Mathlib.Algebra.Order.BigOperators.Group.List
import Neonix.ByteBits
import Neonix.Machine
import Neonix.WordMemory

/-! # `kernel/execve.c`: the argument block of a new program

    `copy_argv_envp` builds the block downwards in four kernel pages, the strings
    first, and computes the user address of every string next to it.  The pages are
    numbered from their first byte: `ktop` is an offset.  A store outside the pages
    and an index outside the page of pointers stop the call. -/

namespace NeonixArguments

open NeonixByteBits NeonixMachine NeonixOutcome NeonixWordMemory

def PAGE_SIZE : Nat := 0x1000
def USER_STACK_TOP : BitVec 32 := 0x10000000

/-- The bytes `alloc_kpage(4)` allocates. -/
def BLOCK : Nat := 4 * PAGE_SIZE

/-- The pointers a page holds. -/
def POINTERS : Nat := PAGE_SIZE / 4

/-- A string, without the NUL that ends it. -/
abbrev CString := { s : List Byte // 0 ∉ s }

/-- `strlen(s) + 1`. -/
def CString.size (s : CString) : Nat := s.val.length + 1

/-- A byte of a string; the one behind the last is NUL. -/
def CString.byte (s : CString) (k : Nat) : Byte := s.val.getD k 0

/-- The locals of `copy_argv_envp` and the pages they point to. -/
structure Block where
  pages : Nat → Byte
  argvk : Nat → BitVec 32
  ktop : Nat
  utop : BitVec 32

/-- `ktop -= len; memcpy(ktop, src, len);` -/
def pushBytes (b : Block) (len : Nat) (src : Nat → Byte) : Res Block :=
  if len ≤ b.ktop then
    .ok { b with
      ktop := b.ktop - len
      pages := fun x =>
        if b.ktop - len ≤ x ∧ x < b.ktop then src (x - (b.ktop - len)) else b.pages x }
  else .error .outOfBounds

/-- `argvk[i] = v;` -/
def setPointer (b : Block) (i : Nat) (v : BitVec 32) : Res Block :=
  if i < POINTERS then .ok { b with argvk := Function.update b.argvk i v } else .error .outOfBounds

/-- One turn of the loops over `envp` and `argv`, for the pointer `argvk[i]`. -/
def copyString (i : Nat) (s : CString) (b : Block) : Res Block := do
  let b ← pushBytes { b with utop := b.utop - BitVec.ofNat 32 s.size } s.size s.byte
  setPointer b i b.utop

/-- The loops over `envp` and `argv`: the last string comes first. -/
def copyStrings (i : Nat) : List CString → Block → Res Block
  | [], b => .ok b
  | s :: strs, b => do
      let b ← copyStrings (i + 1) strs b
      copyString i s b

/-- The bytes of an array of words, from word `i` on. -/
def arrayByte (words : Nat → BitVec 32) (i k : Nat) : Byte :=
  (words (i + k / 4)).extractLsb' (8 * (k % 4)) 8

/-- `copy_argv_envp`, on pages with any contents; the user's memory gets the block
    below the top of its stack. -/
def copyArgvEnvp (pages : Nat → Byte) (argvk : Nat → BitVec 32) (mem : Memory) (filename : CString)
    (argv envp : List CString) : Res (BitVec 32 × Memory) := do
  let argc := argv.length + 1
  let envc := envp.length
  let b ← setPointer ⟨pages, argvk, BLOCK, USER_STACK_TOP⟩ argc 0
  let b ← setPointer b (argc + 1 + envc) 0
  let b ← copyStrings (argc + 1) envp b
  let b ← copyStrings 1 argv b
  let b ← copyString 0 filename b
  let b ← pushBytes b ((envc + 1) * 4) (arrayByte b.argvk (argc + 1))
  let b ← pushBytes b ((argc + 1) * 4) (arrayByte b.argvk 0)
  let b ← pushBytes b 4 (arrayByte (fun _ => BitVec.ofNat 32 argc) 0)
  check (0 < b.ktop)
  let len := BLOCK - b.ktop
  let utop := USER_STACK_TOP - BitVec.ofNat 32 len
  return (utop, fun a => if (a - utop).toNat < len then b.pages (b.ktop + (a - utop).toNat) else mem a)

/-! ## Addresses -/

/-- The user address of an offset of the pages. -/
def userAddr (off : Nat) : BitVec 32 := USER_STACK_TOP - BitVec.ofNat 32 BLOCK + BitVec.ofNat 32 off

/-- The two tops are at the same place of the block. -/
structure Aligned (b : Block) : Prop where
  ktop_le : b.ktop ≤ BLOCK
  utop : b.utop = userAddr b.ktop

/-- The string is in the block, and `argvk[i]` is its user address. -/
def Placed (b : Block) (i : Nat) (s : CString) : Prop :=
  ∃ off, b.ktop ≤ off ∧ off + s.size ≤ BLOCK ∧ b.argvk i = userAddr off ∧
    ∀ k < s.size, b.pages (off + k) = s.byte k

/-- The block has grown downwards, and only the pointers from `lo` to `hi` are new. -/
structure Grown (lo hi : Nat) (b c : Block) : Prop where
  ktop_le : c.ktop ≤ b.ktop
  pages : ∀ x, b.ktop ≤ x → c.pages x = b.pages x
  argvk : ∀ j, j < lo ∨ hi ≤ j → c.argvk j = b.argvk j

variable {b c d : Block} {i j lo hi lo' hi' n off : Nat} {s t : CString} {strs : List CString}

/-- No stop is admitted. -/
def Never : Stop → Prop := fun _ => True

theorem Grown.refl (lo hi : Nat) (b : Block) : Grown lo hi b b :=
  ⟨Nat.le.refl, fun _ _ => rfl, fun _ _ => rfl⟩

theorem Grown.trans (h : Grown lo hi b c) (h' : Grown lo' hi' c d) :
    Grown (min lo lo') (max hi hi') b d := by
  refine ⟨h'.ktop_le.trans h.ktop_le, fun x hx => ?_, fun j hj => ?_⟩
  · rw [h'.pages x (h.ktop_le.trans hx), h.pages x hx]
  · rw [h'.argvk j (by omega), h.argvk j (by omega)]

/-- A string stays where it is when the block grows. -/
theorem Placed.grown (h : Placed b i s) (hg : Grown lo hi b c) (hi : i < lo ∨ hi ≤ i) :
    Placed c i s := by
  obtain ⟨off, hlo, hle, hptr, hbytes⟩ := h
  refine ⟨off, hg.ktop_le.trans hlo, hle, ?_, fun k hk => ?_⟩
  · rw [hg.argvk i hi, hptr]
  · rw [hg.pages _ (by omega), hbytes k hk]

/-- The bytes of some strings. -/
def copySize (strs : List CString) : Nat := (strs.map CString.size).sum

@[simp] theorem copySize_cons : copySize (s :: strs) = s.size + copySize strs := rfl

/-- The bytes of the block: `argc`, the two arrays with their NULLs, the strings. -/
def blockSize (filename : CString) (argv envp : List CString) : Nat :=
  4 * (argv.length + envp.length + 4) + (filename.size + copySize argv + copySize envp)

/-- The word at an offset of the pages. -/
def WordAt (b : Block) (off : Nat) (v : BitVec 32) : Prop :=
  ∀ k < 4, b.pages (off + k) = v.extractLsb' (8 * k) 8

theorem WordAt.grown {v : BitVec 32} (h : WordAt b off v) (hg : Grown lo hi b c)
    (hoff : b.ktop ≤ off) : WordAt c off v := by
  intro k hk
  rw [hg.pages _ (by omega), h k hk]

/-! ## The user's memory -/

/-- The string `s` is at `p`, between `lo` and the top of the stack. -/
structure PointsTo (mem : Memory) (lo p : BitVec 32) (s : CString) : Prop where
  lo_le : lo.toNat ≤ p.toNat
  end_le : p.toNat + s.size ≤ USER_STACK_TOP.toNat
  bytes : ∀ k < s.size, mem (p + BitVec.ofNat 32 k) = s.byte k

/-- An array of pointers to the strings, and a NULL behind the last one. -/
structure ArrayAt (mem : Memory) (lo p : BitVec 32) (strs : List CString) : Prop where
  lo_le : lo.toNat ≤ p.toNat
  end_le : p.toNat + 4 * (strs.length + 1) ≤ USER_STACK_TOP.toNat
  points : ∀ k (hk : k < strs.length),
    PointsTo mem lo (load mem (p + BitVec.ofNat 32 (4 * k))) strs[k]
  null : load mem (p + BitVec.ofNat 32 (4 * strs.length)) = 0

/-- The memory the block has been copied to. -/
def copied (b : Block) (mem : Memory) : Memory := fun a =>
  let utop := USER_STACK_TOP - BitVec.ofNat 32 (BLOCK - b.ktop)
  if (a - utop).toNat < BLOCK - b.ktop then b.pages (b.ktop + (a - utop).toNat) else mem a

theorem userAddr_toNat (hoff : off ≤ BLOCK) :
    (userAddr off).toNat = USER_STACK_TOP.toNat - BLOCK + off := by
  have hle : off ≤ 16384 := hoff
  have htop : USER_STACK_TOP - BitVec.ofNat 32 BLOCK = 0xFFFC000#32 := by decide
  rw [userAddr, htop]
  show _ = 0x10000000 - 16384 + off
  bv_omega

/-- An offset of the block is at its user address. -/
theorem copied_at {mem : Memory} (hlo : b.ktop ≤ off) (hhi : off < BLOCK) :
    copied b mem (userAddr off) = b.pages off := by
  have htop : USER_STACK_TOP - BitVec.ofNat 32 (BLOCK - b.ktop) = userAddr b.ktop := by
    have hle : b.ktop ≤ 16384 := (hlo.trans_lt hhi).le
    rw [userAddr, show BLOCK = 16384 from rfl]
    bv_omega
  have hdiff : (userAddr off - userAddr b.ktop).toNat = off - b.ktop := by
    rw [BitVec.toNat_sub_of_le, userAddr_toNat hhi.le, userAddr_toNat (hlo.trans hhi.le)]
    · omega
    · show (userAddr b.ktop).toNat ≤ (userAddr off).toNat
      rw [userAddr_toNat hhi.le, userAddr_toNat (hlo.trans hhi.le)]
      omega
  rw [copied, htop, hdiff, if_pos (by omega), Nat.add_sub_cancel' hlo]

theorem userAddr_add (off k : Nat) : userAddr off + BitVec.ofNat 32 k = userAddr (off + k) := by
  rw [userAddr, userAddr, BitVec.ofNat_add, add_assoc]

/-- A placed string, seen from the user's side when the block is finished. -/
theorem Placed.points {m : Memory} {n : Nat} (h : Placed b i s) (hg : Grown lo hi b c)
    (hbase : n ≤ b.ktop) (hc : c.ktop ≤ n) :
    PointsTo (copied c m) (userAddr n) (b.argvk i) s := by
  obtain ⟨off, hlo, hle, hptr, hbytes⟩ := h
  have hpos : 0 < s.size := Nat.succ_pos _
  rw [hptr]
  refine ⟨?_, ?_, fun k hk => ?_⟩
  · rw [userAddr_toNat (by omega), userAddr_toNat (by omega)]
    omega
  · rw [userAddr_toNat (by omega)]
    show 0x10000000 - 16384 + off + s.size ≤ 0x10000000
    have hle' : off + s.size ≤ 16384 := hle
    omega
  · rw [userAddr_add, copied_at (by omega) (by omega), hg.pages _ (by omega), hbytes k hk]

end NeonixArguments
