import Mathlib.Logic.Function.Basic

/-! # Tables of two levels that map themselves

    A root lists tables, a table lists pages, both are pages of words.  One slot
    of the root points at the root, so that the tables are pages that are mapped
    as well: through that slot the root is walked as a table, and its entries as
    those of pages. -/

namespace NeonixSelfMap

variable {P ι W : Type*} [DecidableEq P] [DecidableEq ι]

/-- Store a word into a page. -/
def setWord (m : P → ι → W) (p : P) (i : ι) (w : W) : P → ι → W :=
  Function.update m p (Function.update (m p) i w)

section Walks

variable (present : W → Bool) (index : W → P)

/-- The page of an entry. -/
def pageOf (w : W) : Option P := if present w = true then some (index w) else none

/-- The page behind slot `d` of the root and slot `i` of its table. -/
def walk (m : P → ι → W) (root : P) (d i : ι) : Option P :=
  if present (m root d) = true then pageOf present index (m (index (m root d)) i) else none

/-- Slot `z` points at the root, and no two slots have one table. -/
structure SelfMap (z : ι) (m : P → ι → W) (root : P) : Prop where
  there : present (m root z) = true
  self : index (m root z) = root
  apart : ∀ d d', present (m root d) = true → present (m root d') = true →
    index (m root d) = index (m root d') → d = d'

/-- No slot points at the page. -/
def NoTable (m : P → ι → W) (root p : P) : Prop :=
  ∀ d, present (m root d) = true → index (m root d) ≠ p

end Walks

variable {present : W → Bool} {index : W → P} {m : P → ι → W} {root p q : P} {z d d' i i' : ι}
  {w : W}

theorem setWord_self : setWord m p i w p i = w := by
  rw [setWord, Function.update_self, Function.update_self]

theorem setWord_page (h : q ≠ p) : setWord m p i w q = m q := Function.update_of_ne h ..

theorem setWord_slot (h : i' ≠ i) : setWord m p i w p i' = m p i' := by
  rw [setWord, Function.update_self, Function.update_of_ne h]

/-- Walked through its own slot, the root is a table. -/
theorem walk_window (h : SelfMap present index z m root) :
    walk present index m root z d = pageOf present index (m root d) := by
  rw [walk, if_pos h.there, h.self]

theorem NoTable.ne_root (h : SelfMap present index z m root) (hp : NoTable present index m root p) :
    p ≠ root := fun heq => hp z h.there (h.self.trans heq.symm)

/-- Only walks through a root are walks of its words. -/
theorem SelfMap.congr {m' : P → ι → W} (h : SelfMap present index z m root) (hroot : m' root = m root) :
    SelfMap present index z m' root := by
  obtain ⟨hthere, hself, hapart⟩ := h
  constructor
  · rw [hroot]
    exact hthere
  · rw [hroot]
    exact hself
  · rw [hroot]
    exact hapart

/-- A word of a page that is no table. -/
theorem walk_setOther (h : SelfMap present index z m root) (hp : NoTable present index m root p) :
    walk present index (setWord m p i w) root d' i' = walk present index m root d' i' ∧
      SelfMap present index z (setWord m p i w) root := by
  have hroot : setWord m p i w root = m root := setWord_page (hp.ne_root h).symm
  refine ⟨?_, h.congr hroot⟩
  rw [walk, walk, hroot]
  by_cases hd : present (m root d') = true
  · rw [if_pos hd, if_pos hd, setWord_page (hp d' hd)]
  · rw [if_neg hd, if_neg hd]

/-- A slot of the root that gets a table. -/
theorem walk_setSlot (h : SelfMap present index z m root) (hd : ¬ present (m root d) = true)
    (hw : present w = true) (hp : NoTable present index m root (index w)) :
    walk present index (setWord m root d w) root d' i' =
        (if d' = d then pageOf present index (m (index w) i')
        else if d' = z ∧ i' = d then some (index w) else walk present index m root d' i') ∧
      SelfMap present index z (setWord m root d w) root := by
  have hz : z ≠ d := fun heq => hd (heq ▸ h.there)
  have hpage : index w ≠ root := hp.ne_root h
  have hslot : ∀ e, e ≠ d → setWord m root d w root e = m root e := fun e he => setWord_slot he
  constructor
  · rw [walk]
    by_cases heq : d' = d
    · rw [if_pos heq, heq, setWord_self, if_pos hw, setWord_page hpage]
    · rw [if_neg heq, hslot d' heq]
      by_cases hd' : present (m root d') = true
      · rw [if_pos hd']
        by_cases hself : d' = z
        · rw [hself, h.self]
          by_cases hi : i' = d
          · rw [if_pos ⟨rfl, hi⟩, hi, setWord_self, pageOf, if_pos hw]
          · rw [if_neg fun hx => hi hx.2, hslot i' hi, walk_window h]
        · have hother : index (m root d') ≠ root := fun hx =>
            hself (h.apart d' z hd' h.there (hx.trans h.self.symm))
          rw [if_neg fun hx => hself hx.1, setWord_page hother, walk, if_pos hd']
      · have hself : d' ≠ z := fun hx => hd' (hx ▸ h.there)
        rw [if_neg hd', if_neg fun hx => hself hx.1, walk, if_neg hd']
  · constructor
    · rw [hslot z hz]
      exact h.there
    · rw [hslot z hz]
      exact h.self
    · intro e e' he he' heq
      by_cases hed : e = d
      · by_cases hed' : e' = d
        · exact hed.trans hed'.symm
        · rw [hed, setWord_self, hslot e' hed'] at heq
          rw [hslot e' hed'] at he'
          exact absurd heq.symm (hp e' he')
      · rw [hslot e hed] at he heq
        by_cases hed' : e' = d
        · rw [hed', setWord_self] at heq
          exact absurd heq (hp e he)
        · rw [hslot e' hed'] at he' heq
          exact h.apart e e' he he' heq

end NeonixSelfMap
