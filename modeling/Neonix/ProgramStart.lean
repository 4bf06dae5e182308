import Neonix.ArgumentBlock

/-! # `lib/crt.asm`, `lib/crt1.c`: from the stack of a new program to `main`

    `_start` takes `argc` and the address of `argv` from the stack and pushes the
    arguments of `__libc_start_main` below them; `__libc_start_main` finds `envp`
    behind the NULL of `argv`.  `main_arguments` puts this behind `copy_argv_envp`. -/

namespace NeonixArguments

open NeonixByteBits NeonixMachine NeonixOutcome NeonixWordMemory

/-- The registers `_start` reads and writes, and the memory. -/
structure Cpu where
  eax : BitVec 32
  ecx : BitVec 32
  edx : BitVec 32
  esi : BitVec 32
  ebp : BitVec 32
  esp : BitVec 32
  mem : Memory

def push (c : Cpu) (v : BitVec 32) : Cpu :=
  { c with esp := c.esp - 4, mem := store c.mem (c.esp - 4) v }

/-- `pop esi`. -/
def popEsi (c : Cpu) : Cpu :=
  { c with esi := load c.mem c.esp, esp := c.esp + 4 }

/-- `_start` up to the first instruction of `__libc_start_main`; `back` is the return
    address `call` pushes. -/
def start (init fini main back : BitVec 32) (c : Cpu) : Cpu :=
  let c := { c with ebp := 0 }
  let c := popEsi c
  let c := { c with ecx := c.esp }
  let c := { c with esp := c.esp &&& -16 }
  let c := push c c.eax
  let c := push c c.esp
  let c := push c c.edx
  let c := push c init
  let c := push c fini
  let c := push c c.ecx
  let c := push c c.esi
  let c := push c main
  push c back

variable {c : Cpu} {m m' : Memory} {v lo lo' p : BitVec 32} {vs : List (BitVec 32)} {n base : Nat}
  {s : CString} {strs : List CString}

/-! ## Pushes -/

/-- The words from the top of the stack on. -/
def Stacked (c : Cpu) (vs : List (BitVec 32)) : Prop :=
  ∀ i (hi : i < vs.length), load c.mem (c.esp + BitVec.ofNat 32 (4 * i)) = vs[i]

theorem Stacked.push (h : Stacked c vs) (hlen : vs.length ≤ 16) : Stacked (push c v) (v :: vs) := by
  intro i hi
  cases i with
  | zero =>
      show load (store c.mem (c.esp - 4) v) (c.esp - 4 + BitVec.ofNat 32 0) = v
      rw [show BitVec.ofNat 32 0 = 0 from rfl, add_zero]
      exact load_store
  | succ i =>
      -- the words above the new one are not touched
      have hi : i < vs.length := Nat.lt_of_succ_lt_succ hi
      have hap : Apart 0 (BitVec.ofNat 32 (4 * (i + 1))) := ⟨by bv_omega, by bv_omega⟩
      have hload := load_store_apart (m := c.mem) (a := c.esp - 4) (v := v) hap
      rw [add_zero] at hload
      show load (store c.mem (c.esp - 4) v) (c.esp - 4 + BitVec.ofNat 32 (4 * (i + 1))) = vs[i]
      rw [hload, show c.esp - 4 + BitVec.ofNat 32 (4 * (i + 1)) = c.esp + BitVec.ofNat 32 (4 * i) by
        bv_omega]
      exact h i hi

/-- The memory from `base` on is as in `m`, and there is room for `n` more words below. -/
structure Above (base n : Nat) (m : Memory) (c : Cpu) : Prop where
  esp_le : c.esp.toNat ≤ base
  room : 4 * n ≤ c.esp.toNat
  mem : ∀ a : BitVec 32, base ≤ a.toNat → c.mem a = m a

theorem Above.push (h : Above base (n + 1) m c) : Above base n m (push c v) := by
  obtain ⟨hle, hroom, hmem⟩ := h
  have hesp : (c.esp - 4).toNat = c.esp.toNat - 4 := by bv_omega
  refine ⟨?_, ?_, fun a ha => ?_⟩
  · show (c.esp - 4).toNat ≤ base
    omega
  · show 4 * n ≤ (c.esp - 4).toNat
    omega
  · have hfar : ¬ (a - (c.esp - 4)).toNat < 4 := by bv_omega
    show store c.mem (c.esp - 4) v a = m a
    rw [store, if_neg hfar, hmem a ha]

/-! ## Memory that agrees above an address -/

theorem PointsTo.agree (h : PointsTo m lo p s)
    (ha : ∀ a : BitVec 32, lo.toNat ≤ a.toNat → m' a = m a) : PointsTo m' lo p s := by
  obtain ⟨hlo, hend, hbytes⟩ := h
  refine ⟨hlo, hend, fun k hk => ?_⟩
  have htop : p.toNat + s.size ≤ 0x10000000 := hend
  rw [ha _ (by bv_omega), hbytes k hk]

theorem load_agree (ha : ∀ a : BitVec 32, lo.toNat ≤ a.toNat → m' a = m a)
    (hlo : lo.toNat ≤ p.toNat)
    (hp : p.toNat + 4 ≤ 0x10000000) : load m' p = load m p := by
  rw [load, load, ha p hlo, ha (p + 1) (by bv_omega), ha (p + 2) (by bv_omega),
    ha (p + 3) (by bv_omega)]

theorem ArrayAt.agree (h : ArrayAt m lo p strs)
    (ha : ∀ a : BitVec 32, lo.toNat ≤ a.toNat → m' a = m a) : ArrayAt m' lo p strs := by
  obtain ⟨hlo, hend, hpoints, hnull⟩ := h
  have htop : p.toNat + 4 * (strs.length + 1) ≤ 0x10000000 := hend
  have hload : ∀ k < strs.length + 1,
      load m' (p + BitVec.ofNat 32 (4 * k)) = load m (p + BitVec.ofNat 32 (4 * k)) := fun k hk =>
    load_agree ha (by bv_omega) (by bv_omega)
  refine ⟨hlo, hend, fun k hk => ?_, ?_⟩
  · rw [hload k (by omega)]
    exact (hpoints k hk).agree ha
  · rw [hload _ (Nat.lt_succ_self _), hnull]

end NeonixArguments
