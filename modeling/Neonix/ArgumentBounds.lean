import Neonix.ArgumentBlock

/-! # Where `copy_argv_envp` stores

    Each step takes its bytes off the block or has no room for them, and there it
    stores below the four pages.  The one assertion on the size of the block
    comes after all of them; on the number of pointers there is none. -/

namespace NeonixArguments

open NeonixByteBits NeonixMachine NeonixOutcome NeonixWordMemory

variable {b c : Block} {i n : Nat} {s : CString} {strs : List CString}

/-- A step that takes `n` bytes off the block, or stores outside its pages where
    they are not left. -/
def Takes (n : Nat) (b : Block) (r : Res Block) : Prop :=
  (∃ c, r = .ok c ∧ c.ktop + n = b.ktop) ∨ (r = .error .outOfBounds ∧ b.ktop < n)

/-- Two steps, one after the other. -/
theorem Takes.bind {k : Nat} {r : Res Block} {f : Block → Res Block} (h : Takes n b r)
    (hf : ∀ c, Takes k c (f c)) : Takes (n + k) b (r >>= f) := by
  rcases h with ⟨c, rfl, hc⟩ | ⟨rfl, hlt⟩
  · rcases hf c with ⟨d, hd, hk⟩ | ⟨hd, hlt⟩
    · exact .inl ⟨d, by rw [bind_ok, hd], by omega⟩
    · exact .inr ⟨by rw [bind_ok, hd], by omega⟩
  · exact .inr ⟨rfl, by omega⟩

theorem takes_pushBytes (b : Block) (n : Nat) (src : Nat → Byte) :
    Takes n b (pushBytes b n src) := by
  rw [pushBytes]
  by_cases hn : n ≤ b.ktop
  · rw [if_pos hn]
    exact .inl ⟨_, rfl, Nat.sub_add_cancel hn⟩
  · rw [if_neg hn]
    exact .inr ⟨rfl, Nat.not_le.mp hn⟩

theorem takes_copyString (b : Block) (s : CString) (hi : i < POINTERS) :
    Takes s.size b (copyString i s b) := by
  refine Takes.bind (k := 0) (takes_pushBytes _ _ _) fun c => ?_
  rw [setPointer, if_pos hi]
  exact .inl ⟨_, rfl, rfl⟩

/-- The loops take all their strings. -/
theorem takes_copyStrings (strs : List CString) (b : Block) (hi : i + strs.length ≤ POINTERS) :
    Takes (copySize strs) b (copyStrings i strs b) := by
  induction strs generalizing i with
  | nil => exact .inl ⟨b, rfl, rfl⟩
  | cons s strs ih =>
      rw [List.length_cons] at hi
      rw [copySize_cons, Nat.add_comm]
      exact (ih (by omega)).bind fun c => takes_copyString c s (by omega)

/-- What is asked of the call: what it has changed are bytes of the four pages
    below the top of the stack, and it stored nothing outside its pages. -/
def Contained (mem : Memory) : Res (BitVec 32 × Memory) → Prop
  | .ok (_, mem') => ∀ a, mem' a ≠ mem a → USER_STACK_TOP.toNat ≤ a.toNat + BLOCK ∧ a < USER_STACK_TOP
  | .error e => e ≠ .outOfBounds

/-- The copy to the user's stack. -/
theorem contained_copied (b : Block) (mem : Memory) (top : BitVec 32) :
    Contained mem (.ok (top, copied b mem)) := by
  intro a ha
  have hblock : BLOCK = 16384 := rfl
  have htop : USER_STACK_TOP = 0x10000000 := rfl
  rw [copied] at ha
  split_ifs at ha with hin
  · rw [htop] at hin ⊢
    rw [hblock] at hin ⊢
    bv_omega
  · exact absurd rfl ha

/-- The steps that take bytes off the block. -/
def fillBlock (filename : CString) (argv envp : List CString) (b : Block) : Res Block := do
  let b ← copyStrings (argv.length + 2) envp b
  let b ← copyStrings 1 argv b
  let b ← copyString 0 filename b
  let b ← pushBytes b ((envp.length + 1) * 4) (arrayByte b.argvk (argv.length + 2))
  let b ← pushBytes b ((argv.length + 2) * 4) (arrayByte b.argvk 0)
  pushBytes b 4 (arrayByte (fun _ => BitVec.ofNat 32 (argv.length + 1)) 0)

theorem copyArgvEnvp_eq (pages : Nat → Byte) (argvk : Nat → BitVec 32) (mem : Memory)
    (filename : CString) (argv envp : List CString) :
    copyArgvEnvp pages argvk mem filename argv envp = (do
      let b ← setPointer ⟨pages, argvk, BLOCK, USER_STACK_TOP⟩ (argv.length + 1) 0
      let b ← setPointer b (argv.length + 2 + envp.length) 0
      let b ← fillBlock filename argv envp b
      check (0 < b.ktop)
      return (USER_STACK_TOP - BitVec.ofNat 32 (BLOCK - b.ktop), copied b mem)) := by
  simp only [copyArgvEnvp, fillBlock, bind_assoc]
  rfl

theorem takes_fillBlock (b : Block) (filename : CString) (argv envp : List CString)
    (hptr : argv.length + envp.length + 3 ≤ POINTERS) :
    Takes (blockSize filename argv envp) b (fillBlock filename argv envp b) := by
  have htakes := (takes_copyStrings (i := argv.length + 2) envp b (by omega)).bind fun b₁ =>
    (takes_copyStrings (i := 1) argv b₁ (by omega)).bind fun b₂ =>
    (takes_copyString (i := 0) b₂ filename (by omega)).bind fun b₃ =>
    (takes_pushBytes b₃ ((envp.length + 1) * 4) (arrayByte b₃.argvk (argv.length + 2))).bind fun b₄ =>
    (takes_pushBytes b₄ ((argv.length + 2) * 4) (arrayByte b₄.argvk 0)).bind fun b₅ =>
    takes_pushBytes b₅ 4 (arrayByte (fun _ => BitVec.ofNat 32 (argv.length + 1)) 0)
  have hsize : blockSize filename argv envp = copySize envp + (copySize argv + (filename.size +
      ((envp.length + 1) * 4 + ((argv.length + 2) * 4 + 4)))) := by
    rw [blockSize]
    omega
  rw [hsize]
  exact htakes

/-- The stores of the call stay in its pages exactly if the pointers fit in their
    page and the block in its four. -/
theorem copy_contained (pages : Nat → Byte) (argvk : Nat → BitVec 32) (mem : Memory)
    (filename : CString) (argv envp : List CString) :
    Contained mem (copyArgvEnvp pages argvk mem filename argv envp) ↔
      argv.length + envp.length + 3 ≤ POINTERS ∧ blockSize filename argv envp ≤ BLOCK := by
  rw [copyArgvEnvp_eq]
  -- the NULLs behind the two arrays
  by_cases hptr : argv.length + 1 < POINTERS
  swap
  · rw [setPointer, if_neg hptr]
    exact iff_of_false (fun h => h rfl) fun h => hptr (by omega)
  rw [setPointer, if_pos hptr, bind_ok]
  by_cases hptrs : argv.length + 2 + envp.length < POINTERS
  swap
  · rw [setPointer, if_neg hptrs]
    exact iff_of_false (fun h => h rfl) fun h => hptrs (by omega)
  rw [setPointer, if_pos hptrs, bind_ok]
  generalize hb : Block.mk pages _ BLOCK USER_STACK_TOP = b
  have hktop : b.ktop = BLOCK := by rw [← hb]
  rcases takes_fillBlock b filename argv envp (by omega) with ⟨c, hc, hk⟩ | ⟨hc, hlt⟩
  · -- the assertion admits all blocks but the one that fills the pages
    rw [hc, bind_ok]
    refine iff_of_true ?_ ⟨by omega, by omega⟩
    by_cases hpos : 0 < c.ktop
    · rw [check_pos hpos, bind_ok]
      exact contained_copied c mem _
    · rw [check_neg hpos, bind_error]
      rintro ⟨⟩
  · rw [hc, bind_error]
    exact iff_of_false (fun h => h rfl) fun h => by omega

/-- A call with 1023 empty arguments stores behind the page of pointers. -/
theorem copy_overruns : copyArgvEnvp (fun _ => 0) (fun _ => 0) (fun _ => 0) ⟨[], List.not_mem_nil⟩
    (List.replicate 1023 ⟨[], List.not_mem_nil⟩) [] = .error .outOfBounds := by
  rw [copyArgvEnvp, setPointer, if_neg, bind_error]
  rw [List.length_replicate]
  decide

end NeonixArguments
