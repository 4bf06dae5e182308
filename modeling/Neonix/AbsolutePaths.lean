import Mathlib.Data.List.Chain
import Neonix.Components
import Neonix.Strings

/-! # `fs/namei.c`: the path of the current directory

    `abspath` edits the path in place: a name is copied behind the path, and two
    dots cut the path at its last separator.  The separators of the other path
    become slashes on the way. -/

namespace NeonixAbsolutePaths

open NeonixMachine NeonixByteBits NeonixStrings
open NeonixFileSystem (Str)
open NeonixNamei (isSeparator SEPARATOR1)
open NeonixComponents (components first rest Split)

/-- `"."` and `".."`. -/
def dot : Str := [0x2E]
def dots : Str := [0x2E, 0x2E]

/-- The two strings of `abspath` and its pointers into them; `pwd` begins at 0. -/
structure Paths where
  pwd : Nat → Byte
  cur : Nat
  path : Nat → Byte
  pathname : Nat

/-- `cur` goes behind the last separator of `pwd`, which ends there. -/
def cutAtSeparator (turns : Nat) (s : Paths) : Res Paths := do
  match ← strrsep s.pwd turns 0 with
  | none => .error .outOfBounds
  | some last => return { s with cur := last + 1, pwd := Function.update s.pwd (last + 1) 0 }

/-- The last name of `pwd` goes, if there is one. -/
def dropName (turns : Nat) (s : Paths) : Res Paths :=
  if s.cur - 1 ≠ 0 then cutAtSeparator turns { s with pwd := Function.update s.pwd (s.cur - 1) 0 }
  else .ok s

/-- A turn of the loop of `abspath`, at a name with the separator behind it at `ptr`. -/
def walkTurn (turns : Nat) (s : Paths) (ptr : Nat) : Res Paths := do
  let len := ptr - s.pathname + 1
  let s := { s with path := Function.update s.path ptr SEPARATOR1 }
  let s ←
    if memcmp s.path (literal (dot ++ [SEPARATOR1])) 2 s.pathname 0 = 0 then pure s
    else if memcmp s.path (literal (dots ++ [SEPARATOR1])) 3 s.pathname 0 = 0 then dropName turns s
    else pure { s with pwd := strncpy s.path s.pwd s.cur s.pathname (len + 1), cur := s.cur + len }
  return { s with pathname := s.pathname + len }

/-- The loop of `abspath`. -/
def walk (turns : Nat) : (outer : Nat) → Paths → Res Paths
  | 0, _ => .error .outOfBounds
  | outer + 1, s =>
      if s.path s.pathname = 0 then .ok s
      else do
        match ← strsep s.path turns s.pathname with
        | none => return s
        | some ptr =>
            let s ← walkTurn turns s ptr
            walk turns outer s

/-- What `abspath` does with the name behind the last separator. -/
def lastName (turns : Nat) (s : Paths) : Res Paths := do
  if s.path s.pathname = 0 then return s
  else if (← strcmp s.path (literal dot) turns s.pathname 0) = 0 then return s
  else if (← strcmp s.path (literal dots) turns s.pathname 0) ≠ 0 then
    let pwd ← strcpy s.path turns s.pwd s.cur s.pathname
    let cur := s.cur + (← strlen s.path turns s.pathname)
    let pwd := Function.update pwd cur SEPARATOR1
    return { s with cur := cur, pwd := Function.update pwd (cur + 1) 0 }
  else dropName turns s

/-- `abspath`, whose loops have so many turns. -/
def abspath (turns : Nat) (pwd path : Nat → Byte) : Res Paths := do
  let s : Paths := { pwd := pwd, cur := 0, path := path, pathname := 0 }
  let s ←
    if isSeparator (s.path 0) then
      pure { s with cur := 1, pwd := Function.update s.pwd 1 0, pathname := 1 }
    else cutAtSeparator turns s
  let s ← walk turns turns s
  lastName turns s

/-! ## Normal forms -/

/-- The names of a path: its components that are not empty. -/
def names (path : Str) : List Str := (components path).filter (· ≠ [])

/-- No component inside the path is empty: no two separators stand together. -/
def Plain (path : Str) : Prop := path.IsChain fun b c => ¬ (isSeparator b ∧ isSeparator c)

/-- A name of a directory: not empty, and without separators. -/
structure Name (c : Str) : Prop where
  ne_nil : c ≠ []
  plain : ∀ b ∈ c, b ≠ 0 ∧ ¬ isSeparator b

/-- A path is absolute. -/
def Absolute (path : Str) : Prop := ∃ c, path.head? = some c ∧ isSeparator c

/-- A name leads to a directory below, one dot nowhere, and two dots up. -/
def follow (ds : List Str) (c : Str) : List Str :=
  if c = dot then ds else if c = dots then ds.dropLast else ds ++ [c]

/-- The string of a path in normal form. -/
def render (ds : List Str) : Str := SEPARATOR1 :: (ds.map (· ++ [SEPARATOR1])).flatten

variable {turns : Nat} {s s' : Paths} {ds cs : List Str} {b : Byte} {c path : Str}

/-! ## The names of a path, one after the other -/

/-- A path behind a separator: names, each but the last with a separator behind it. -/
inductive Rest : List Str → Str → Prop where
  | nil : Rest [] []
  | last {c : Str} : Name c → Rest [c] c
  | cons {c : Str} {b : Byte} {cs : List Str} {path : Str} : Name c → isSeparator b →
      Rest cs path → Rest (c :: cs) (c ++ b :: path)

/-- A path with a separator, cut at the first one. -/
theorem first_append (h : Split path) :
    ∃ b, isSeparator b ∧ path = first path ++ b :: rest path := by
  induction path with
  | nil => exact absurd h NeonixComponents.not_split_nil
  | cons c path ih =>
      by_cases hc : isSeparator c
      · rw [NeonixComponents.first_cons_sep hc, NeonixComponents.rest_cons_sep hc]
        exact ⟨c, hc, rfl⟩
      · obtain ⟨b, hb, hpath⟩ := ih ((NeonixComponents.split_cons.mp h).resolve_left hc)
        rw [NeonixComponents.first_cons hc, NeonixComponents.rest_cons hc]
        exact ⟨b, hb, congrArg (c :: ·) hpath⟩

/-- What is behind a separator of a path without empty components. -/
theorem Plain.behind (h : Plain (c ++ b :: path)) (hb : isSeparator b) :
    Plain path ∧ ¬ Absolute path := by
  have hright := List.IsChain.right_of_append h
  refine ⟨hright.tail, ?_⟩
  rintro ⟨d, hd, hsep⟩
  cases path with
  | nil => cases hd
  | cons e path =>
      obtain rfl : e = d := Option.some.inj hd
      exact (List.isChain_cons_cons.mp hright).1 ⟨hb, hsep⟩

/-- A path without empty components that begins with a name has these names. -/
theorem rest_names (path : Str) (hzero : ∀ b ∈ path, b ≠ 0) (hplain : Plain path)
    (hhead : ¬ Absolute path) : Rest (names path) path := by
  induction hk : path.length using Nat.strongRecOn generalizing path with
  | ind k ih =>
    by_cases hsplit : Split path
    · obtain ⟨b, hb, hpath⟩ := first_append hsplit
      have hne : first path ≠ [] := by
        intro hnil
        rw [hnil] at hpath
        exact hhead ⟨b, by rw [hpath]; rfl, hb⟩
      have hname : Name (first path) := by
        refine ⟨hne, fun c hc => ⟨hzero c ?_, fun hsep => ?_⟩⟩
        · rw [hpath]
          exact List.mem_append_left _ hc
        · exact NeonixComponents.first_not_split path ⟨c, hc, hsep⟩
      have hnames : names path = first path :: names (rest path) := by
        rw [names, NeonixComponents.components_of_split hsplit, List.filter_cons,
          if_pos (decide_eq_true hne)]
        rfl
      rw [hpath] at hplain
      obtain ⟨hplain', hhead'⟩ := hplain.behind hb
      have hrest := ih (rest path).length (hk ▸ NeonixComponents.rest_length hsplit) (rest path)
        (fun c hc => hzero c (by
          rw [hpath]
          exact List.mem_append_right _ (List.mem_cons_of_mem _ hc))) hplain' hhead' rfl
      have hall := Rest.cons hname hb hrest
      rw [← hpath] at hall
      rw [hnames]
      exact hall
    · rw [names, NeonixComponents.components_of_not_split hsplit]
      by_cases hne : path = []
      · subst hne
        exact Rest.nil
      · rw [List.filter_cons, if_pos (decide_eq_true hne), List.filter_nil]
        exact Rest.last ⟨hne, fun c hc => ⟨hzero c hc, fun hsep => hsplit ⟨c, hc, hsep⟩⟩⟩

/-! ## Strings in normal form -/

theorem render_concat (ds : List Str) (c : Str) :
    render (ds ++ [c]) = render ds ++ (c ++ [SEPARATOR1]) := by
  rw [render, List.map_append, List.map_singleton, List.flatten_append, List.flatten_singleton]
  rfl

/-- A string in normal form ends with a separator. -/
theorem render_ends (ds : List Str) : ∃ u, render ds = u ++ [SEPARATOR1] := by
  rcases List.eq_nil_or_concat' ds with rfl | ⟨es, d, rfl⟩
  · exact ⟨[], rfl⟩
  · exact ⟨render es ++ d, by rw [render_concat, List.append_assoc]⟩

theorem separator_slash : isSeparator SEPARATOR1 := .inl rfl

theorem slash_ne : SEPARATOR1 ≠ 0 := by decide

/-- The path is in normal form, with `cur` at its end. -/
structure PwdAt (s : Paths) (ds : List Str) : Prop where
  pwd : StringAt s.pwd 0 (render ds)
  cur : s.cur = (render ds).length

/-- Nothing happened to the other path. -/
def SamePath (s s' : Paths) : Prop := s'.path = s.path ∧ s'.pathname = s.pathname

/-- `pwd` is cut behind the last separator in front of a name. -/
theorem cut_eq (hpwd : StringAt s.pwd 0 (render ds ++ c)) (hc : ∀ b ∈ c, ¬ isSeparator b)
    (hturns : (render ds ++ c).length < turns) :
    ∃ s', cutAtSeparator turns s = .ok s' ∧ PwdAt s' ds ∧ SamePath s s' := by
  obtain ⟨u, hu⟩ := render_ends ds
  rw [hu, List.append_assoc, List.singleton_append] at hpwd hturns
  have hlast : strrsep s.pwd turns 0 = .ok (some (0 + u.length)) :=
    strrsep_eq hpwd separator_slash hc hturns
  rw [Nat.zero_add] at hlast
  refine ⟨{ s with cur := u.length + 1, pwd := Function.update s.pwd (u.length + 1) 0 }, ?_,
    ⟨⟨?_, ?_⟩, ?_⟩, rfl, rfl⟩
  · rw [cutAtSeparator, hlast]
    rfl
  · obtain ⟨hfront, hslash, -⟩ := charsAt_append.mp hpwd.1
    rw [hu]
    refine (charsAt_append.mpr ⟨hfront, hslash, trivial⟩ : CharsAt s.pwd 0 (u ++ [SEPARATOR1])).congr
      fun i _ hi => Function.update_of_ne ?_ ..
    rw [List.length_append, List.length_singleton] at hi
    omega
  · rw [hu, List.length_append, List.length_singleton, Nat.zero_add]
    exact Function.update_self ..
  · rw [hu, List.length_append, List.length_singleton]

/-- Two dots lead to the directory above. -/
theorem dropName_eq (h : PwdAt s ds) (hds : ∀ d ∈ ds, Name d)
    (hturns : (render ds).length < turns) :
    ∃ s', dropName turns s = .ok s' ∧ PwdAt s' ds.dropLast ∧ SamePath s s' := by
  rcases List.eq_nil_or_concat' ds with rfl | ⟨es, d, rfl⟩
  · refine ⟨s, ?_, h, rfl, rfl⟩
    rw [dropName, h.cur]
    exact if_neg (not_not_intro rfl)
  · have hd := hds d (List.mem_append_right _ List.mem_cons_self)
    have hpwd := h.pwd
    rw [render_concat, ← List.append_assoc] at hpwd hturns
    have hcur : s.cur - 1 = (render es ++ d).length := by
      rw [h.cur, render_concat, ← List.append_assoc, List.length_append, List.length_singleton,
        Nat.add_sub_cancel]
    have hpos : (render es ++ d).length ≠ 0 := by
      rw [List.length_append, render, List.length_cons]
      omega
    rw [List.dropLast_concat, dropName, hcur, if_pos hpos]
    rw [List.length_append, List.length_singleton] at hturns
    refine cut_eq ⟨?_, ?_⟩ (fun b hb => (hd.plain b hb).2) (by omega)
    · exact (charsAt_append.mp hpwd.1).1.congr fun i _ hi => Function.update_of_ne (by omega) ..
    · rw [Nat.zero_add]
      exact Function.update_self ..

/-! ## A name of the path -/

theorem name_dot : Name dot := ⟨by decide, by decide⟩

theorem name_dots : Name dots := ⟨by decide, by decide⟩

/-- Two names with separators behind them at one place. -/
theorem name_unique {m : Nat → Byte} {p : Nat} {w : Str} (hc : Name c) (hw : Name w)
    (h : CharsAt m p (c ++ [SEPARATOR1])) (h' : CharsAt m p (w ++ [SEPARATOR1])) : c = w := by
  have hplain : ∀ b ∈ c, ¬ isSeparator b := fun b hb => (hc.plain b hb).2
  have hplain' : ∀ b ∈ w, ¬ isSeparator b := fun b hb => (hw.plain b hb).2
  clear hc hw
  induction c generalizing w p with
  | nil =>
      cases w with
      | nil => rfl
      | cons b w =>
          have hb : b = SEPARATOR1 := h'.1.1.symm.trans h.1.1
          exact absurd (hb ▸ separator_slash) (hplain' b List.mem_cons_self)
  | cons b c ih =>
      cases w with
      | nil =>
          have hb : b = SEPARATOR1 := h.1.1.symm.trans h'.1.1
          exact absurd (hb ▸ separator_slash) (hplain b List.mem_cons_self)
      | cons d w =>
          obtain rfl : b = d := h.1.1.symm.trans h'.1.1
          rw [ih h.2 h'.2 (fun e he => hplain e (List.mem_cons_of_mem _ he))
            fun e he => hplain' e (List.mem_cons_of_mem _ he)]

/-- The comparison that looks ahead to the separator tells a name from any other. -/
theorem memcmp_name {m : Nat → Byte} {p : Nat} {w : Str} (hc : Name c) (hw : Name w)
    (h : CharsAt m p (c ++ [SEPARATOR1])) :
    memcmp m (literal (w ++ [SEPARATOR1])) (w.length + 1) p 0 = 0 ↔ c = w := by
  have hliteral : StringAt (literal (w ++ [SEPARATOR1])) 0 (w ++ [SEPARATOR1]) := by
    refine literal_at fun b hb => ?_
    rcases List.mem_append.mp hb with hb | hb
    · exact (hw.plain b hb).1
    · rw [List.mem_singleton.mp hb]
      exact slash_ne
  have hlen : (w ++ [SEPARATOR1]).length = w.length + 1 := by
    rw [List.length_append, List.length_singleton]
  rw [memcmp_eq_zero]
  constructor
  · intro heq
    refine name_unique hc hw h (charsAt_of_get fun i hi => ?_)
    have hget := hliteral.1.get hi
    rw [heq i (hlen ▸ hi)]
    exact hget
  · rintro rfl i hi
    have hi' : i < (c ++ [SEPARATOR1]).length := hlen.symm ▸ hi
    exact (h.get hi').1.trans (hliteral.1.get hi').1.symm

/-- A name goes behind the path. -/
theorem append_eq {m : Nat → Byte} {p : Nat} (h : PwdAt s ds)
    (hc : CharsAt m p (c ++ [SEPARATOR1])) :
    PwdAt { s with
      pwd := strncpy m s.pwd s.cur p (c.length + 1 + 1), cur := s.cur + (c.length + 1) }
      (ds ++ [c]) := by
  have hlen : (c ++ [SEPARATOR1]).length = c.length + 1 := by
    rw [List.length_append, List.length_singleton]
  obtain ⟨⟨hchars, hend⟩, hkept⟩ := strncpy_eq (m := s.pwd) (p := s.cur) hc
  rw [hlen] at hchars hend hkept
  refine ⟨⟨?_, ?_⟩, ?_⟩
  · rw [render_concat]
    refine charsAt_append.mpr ⟨h.pwd.1.congr fun i _ hi => hkept i ?_, ?_⟩
    · rw [h.cur]
      omega
    · rw [Nat.zero_add, ← h.cur]
      exact hchars
  · rw [render_concat, List.length_append, hlen, Nat.zero_add, ← h.cur]
    exact hend
  · rw [render_concat, List.length_append, hlen, ← h.cur]

/-- A turn of the loop follows the name. -/
theorem walkTurn_eq (h : PwdAt s ds) (hpath : StringAt s.path s.pathname (c ++ b :: path))
    (hc : Name c)
    (hds : ∀ d ∈ ds, Name d) (hturns : (render ds).length < turns) :
    ∃ s', walkTurn turns s (s.pathname + c.length) = .ok s' ∧ PwdAt s' (follow ds c) ∧
      StringAt s'.path s'.pathname path := by
  obtain ⟨hchars, hend⟩ := hpath
  obtain ⟨hname, -, hrest⟩ := charsAt_append.mp hchars
  obtain ⟨m, hm⟩ : ∃ m, m = Function.update s.path (s.pathname + c.length) SEPARATOR1 := ⟨_, rfl⟩
  have hkept : ∀ i, i ≠ s.pathname + c.length → m i = s.path i := by
    intro i hi
    rw [hm]
    exact Function.update_of_ne hi ..
  have hname' : CharsAt m s.pathname (c ++ [SEPARATOR1]) := by
    refine charsAt_append.mpr ⟨hname.congr fun i _ hi => hkept i (by omega), ⟨?_, slash_ne⟩, trivial⟩
    rw [hm]
    exact Function.update_self ..
  have hpath' : StringAt m (s.pathname + (c.length + 1)) path := by
    refine ⟨hrest.congr fun i hi _ => hkept i (by omega), ?_⟩
    rw [List.length_append, List.length_cons] at hend
    rw [hkept _ (by omega), Nat.add_assoc, Nat.add_right_comm c.length]
    exact hend
  have hlen : s.pathname + c.length - s.pathname + 1 = c.length + 1 := by omega
  have hdot : memcmp m (literal (dot ++ [SEPARATOR1])) 2 s.pathname 0 = 0 ↔ c = dot :=
    memcmp_name hc name_dot hname'
  have hdots : memcmp m (literal (dots ++ [SEPARATOR1])) 3 s.pathname 0 = 0 ↔ c = dots :=
    memcmp_name hc name_dots hname'
  rw [walkTurn, hlen, ← hm, follow]
  by_cases h1 : c = dot
  · rw [if_pos (hdot.mpr h1), if_pos h1]
    exact ⟨_, rfl, ⟨h.pwd, h.cur⟩, hpath'⟩
  rw [if_neg (fun hx => h1 (hdot.mp hx)), if_neg h1]
  by_cases h2 : c = dots
  · rw [if_pos (hdots.mpr h2), if_pos h2]
    obtain ⟨t, ht, hpwd, hsame, hsame'⟩ :=
      dropName_eq (s := { s with path := m }) ⟨h.pwd, h.cur⟩ hds hturns
    rw [ht]
    refine ⟨{ t with pathname := t.pathname + (c.length + 1) }, rfl, ⟨hpwd.pwd, hpwd.cur⟩, ?_⟩
    rw [hsame, hsame']
    exact hpath'
  · rw [if_neg (fun hx => h2 (hdots.mp hx)), if_neg h2]
    have happend := append_eq h hname'
    exact ⟨_, rfl, ⟨happend.pwd, happend.cur⟩, hpath'⟩

/-! ## All names -/

theorem follow_names (hds : ∀ d ∈ ds, Name d) (hc : Name c) : ∀ d ∈ follow ds c, Name d := by
  intro d hd
  rw [follow] at hd
  split at hd
  · exact hds d hd
  · split at hd
    · exact hds d (List.dropLast_subset ds hd)
    · rcases List.mem_append.mp hd with hd | hd
      · exact hds d hd
      · rw [List.mem_singleton.mp hd]
        exact hc

/-- A name makes the path longer by itself and a separator, at most. -/
theorem follow_length (ds : List Str) (c : Str) :
    (render (follow ds c)).length ≤ (render ds).length + (c.length + 1) := by
  rw [follow]
  split
  · exact Nat.le_add_right _ _
  · split
    · rcases List.eq_nil_or_concat' ds with rfl | ⟨es, d, rfl⟩
      · exact Nat.le_add_right _ _
      · rw [List.dropLast_concat, render_concat, List.length_append]
        omega
    · rw [render_concat, List.length_append, List.length_append, List.length_singleton]

/-- The last name is followed like the others. -/
theorem lastName_eq (h : PwdAt s ds) (hpath : StringAt s.path s.pathname c) (hc : Name c)
    (hds : ∀ d ∈ ds, Name d) (hturns : (render ds).length + c.length < turns) :
    ∃ s', lastName turns s = .ok s' ∧ StringAt s'.pwd 0 (render (follow ds c)) := by
  have hhead : s.path s.pathname ≠ 0 := hpath.1.head_ne hc.ne_nil
  obtain ⟨x, hx, hdot⟩ := strcmp_eq_zero hpath (literal_at (fun b hb => (name_dot.plain b hb).1))
    (show c.length < turns by omega)
  obtain ⟨y, hy, hdots⟩ := strcmp_eq_zero hpath (literal_at (fun b hb => (name_dots.plain b hb).1))
    (show c.length < turns by omega)
  rw [lastName, if_neg hhead, hx, follow]
  simp only [bind, Except.bind]
  by_cases h1 : c = dot
  · rw [if_pos (hdot.mpr h1), if_pos h1]
    exact ⟨s, rfl, h.pwd⟩
  rw [if_neg (fun hx => h1 (hdot.mp hx)), if_neg h1, hy]
  simp only [ne_eq]
  by_cases h2 : c = dots
  · rw [if_neg (not_not_intro (hdots.mpr h2)), if_pos h2]
    obtain ⟨t, ht, hpwd, -⟩ := dropName_eq h hds (show (render ds).length < turns by omega)
    exact ⟨t, ht, hpwd.pwd⟩
  · rw [if_pos (fun hy => h2 (hdots.mp hy)), if_neg h2]
    obtain ⟨m, hm, hcopy, hkept⟩ := strcpy_eq (m := s.pwd) (p := s.cur) hpath
      (show c.length < turns by omega)
    rw [hm, strlen_eq hpath (by omega)]
    refine ⟨_, rfl, ?_⟩
    -- the separator goes where the copied string ends
    rw [render_concat, ← List.append_assoc]
    have hlen : (render ds ++ c).length = s.cur + c.length := by
      rw [List.length_append, h.cur]
    refine ⟨charsAt_append.mpr ⟨charsAt_append.mpr ⟨?_, ?_⟩, ⟨?_, slash_ne⟩, trivial⟩, ?_⟩
    · refine h.pwd.1.congr fun i _ hi => ?_
      have hi' : i < s.cur := by rw [h.cur]; omega
      exact (Function.update_of_ne (by omega) ..).trans
        ((Function.update_of_ne (by omega) ..).trans (hkept i (.inl hi')))
    · rw [Nat.zero_add, ← h.cur]
      exact hcopy.1.congr fun i _ hi => (Function.update_of_ne (by omega) ..).trans
        (Function.update_of_ne (by omega) ..)
    · rw [Nat.zero_add, hlen]
      exact (Function.update_of_ne (by omega) ..).trans (Function.update_self ..)
    · rw [List.length_append, hlen, List.length_singleton, Nat.zero_add]
      exact Function.update_self ..

/-- The loop and the last name follow all names. -/
theorem walk_eq (hrest : Rest cs path) {outer : Nat} (h : PwdAt s ds)
    (hpath : StringAt s.path s.pathname path) (hds : ∀ d ∈ ds, Name d)
    (hturns : (render ds).length + path.length < turns) (houter : path.length < outer) :
    ∃ s₁ s', walk turns outer s = .ok s₁ ∧ lastName turns s₁ = .ok s' ∧
      StringAt s'.pwd 0 (render (cs.foldl follow ds)) := by
  obtain ⟨outer, rfl⟩ := Nat.exists_eq_succ_of_ne_zero (Nat.ne_zero_of_lt houter)
  induction hrest generalizing s ds outer with
  | nil =>
      have hzero : s.path s.pathname = 0 := hpath.2
      refine ⟨s, s, ?_, ?_, h.pwd⟩
      · rw [walk, if_pos hzero]
      · rw [lastName, if_pos hzero]
        rfl
  | @last c hc =>
      have hhead : s.path s.pathname ≠ 0 := hpath.1.head_ne hc.ne_nil
      have hsep : strsep s.path turns s.pathname = .ok none :=
        strsep_none hpath (fun b hb => (hc.plain b hb).2) (by omega)
      obtain ⟨s', hs', hpwd⟩ := lastName_eq h hpath hc hds hturns
      refine ⟨s, s', ?_, hs', hpwd⟩
      rw [walk, if_neg hhead, hsep]
      rfl
  | @cons c b cs path hc hb hrest ih =>
      obtain ⟨hname, ⟨hmid, -⟩, -⟩ := charsAt_append.mp hpath.1
      have hhead : s.path s.pathname ≠ 0 := hname.head_ne hc.ne_nil
      have hlen : (c ++ b :: path).length = c.length + 1 + path.length := by
        rw [List.length_append, List.length_cons]
        omega
      rw [hlen] at hturns houter
      have hsep : strsep s.path turns s.pathname = .ok (some (s.pathname + c.length)) :=
        strsep_some hname (fun b hb => (hc.plain b hb).2) (by rw [hmid]; exact hb) (by omega)
      obtain ⟨s', hs', hpwd, hpath'⟩ :=
        walkTurn_eq h hpath hc hds (show (render ds).length < turns by omega)
      have hgrown := follow_length ds c
      obtain ⟨outer, rfl⟩ := Nat.exists_eq_succ_of_ne_zero (show outer ≠ 0 by omega)
      obtain ⟨s₁, s₂, hwalk, hlast, hall⟩ :=
        ih hpwd hpath' (follow_names hds hc) (by omega) outer (by omega)
      refine ⟨s₁, s₂, ?_, hlast, hall⟩
      rw [walk, if_neg hhead, hsep]
      simp only [bind, Except.bind, hs']
      exact hwalk

instance (path : Str) : Decidable (Absolute path) :=
  match path with
  | [] => isFalse fun ⟨_, h, _⟩ => nomatch h
  | c :: _ => decidable_of_iff (isSeparator c) ⟨fun h => ⟨c, rfl, h⟩,
      fun ⟨_, hd, h⟩ => Option.some.inj hd ▸ h⟩

theorem CharsAt.ne_zero {m : Nat → Byte} {p : Nat} {u : Str} (h : CharsAt m p u) :
    ∀ b ∈ u, b ≠ 0 := by
  intro b hb
  obtain ⟨i, hi, rfl⟩ := List.mem_iff_getElem.mp hb
  exact (NeonixStrings.CharsAt.get h hi).2

/-- The leading separator of an absolute path has no name in front of it. -/
theorem names_absolute (h : Absolute path) :
    ∃ b p, path = b :: p ∧ isSeparator b ∧ names path = names p := by
  obtain ⟨b, hb, hsep⟩ := h
  cases path with
  | nil => cases hb
  | cons c p =>
      obtain rfl : c = b := Option.some.inj hb
      refine ⟨c, p, rfl, hsep, ?_⟩
      rw [names, NeonixComponents.components_of_split (NeonixComponents.split_cons.mpr (.inl hsep)),
        NeonixComponents.first_cons_sep hsep, NeonixComponents.rest_cons_sep hsep]
      rfl

/-- `abspath` leads from the current directory, or from the root, along the names
    of the path, and leaves the path in normal form. -/
theorem abspath_follows (turns : Nat) (ds : List Str) (path : Str) (pwd m : Nat → Byte)
    (hds : ∀ d ∈ ds, Name d) (hplain : Plain path) (hpwd : StringAt pwd 0 (render ds))
    (hpath : StringAt m 0 path) (hturns : (render ds).length + path.length < turns) :
    ∃ s, abspath turns pwd m = .ok s ∧
      StringAt s.pwd 0 (render ((names path).foldl follow (if Absolute path then [] else ds))) := by
  have hzero : ∀ b ∈ path, b ≠ 0 := CharsAt.ne_zero hpath.1
  by_cases habs : Absolute path
  · obtain ⟨b, p, rfl, hb, hnames⟩ := names_absolute habs
    obtain ⟨hplain', hhead⟩ := Plain.behind (c := []) hplain hb
    have hrest := rest_names p (fun c hc => hzero c (List.mem_cons_of_mem _ hc)) hplain' hhead
    have hfirst : isSeparator (m 0) := by
      rw [hpath.1.1.1]
      exact hb
    obtain ⟨s, hs⟩ : ∃ s : Paths, s = ⟨Function.update pwd 1 0, 1, m, 1⟩ := ⟨_, rfl⟩
    have hroot : PwdAt s [] := by
      subst hs
      refine ⟨⟨⟨⟨?_, slash_ne⟩, trivial⟩, Function.update_self 1 (0 : Byte) pwd⟩, rfl⟩
      exact (Function.update_of_ne Nat.zero_ne_one (0 : Byte) pwd).trans hpwd.1.1.1
    have hbehind : StringAt s.path s.pathname p := by
      subst hs
      refine ⟨hpath.1.2, ?_⟩
      have hend := hpath.2
      rw [List.length_cons, Nat.zero_add, Nat.add_comm] at hend
      exact hend
    rw [List.length_cons] at hturns
    have hlen : (render []).length = 1 := rfl
    have hlen' : 1 ≤ (render ds).length := Nat.succ_le_succ (Nat.zero_le _)
    obtain ⟨s₁, s', hwalk, hlast, hall⟩ := walk_eq hrest hroot hbehind (fun d hd => nomatch hd)
      (show (render []).length + p.length < turns by omega) (show p.length < turns by omega)
    refine ⟨s', ?_, ?_⟩
    · rw [abspath]
      simp only [if_pos hfirst, bind, Except.bind, pure, Except.pure]
      rw [← hs, hwalk]
      exact hlast
    · rw [if_pos habs, hnames]
      exact hall
  · have hrest := rest_names path hzero hplain habs
    have hfirst : ¬ isSeparator (m 0) := by
      cases path with
      | nil =>
          have hend : m 0 = 0 := hpath.2
          rw [hend]
          exact not_separator_zero
      | cons b p =>
          rw [hpath.1.1.1]
          exact fun hb => habs ⟨b, rfl, hb⟩
    have hpwd' : StringAt (Paths.mk pwd 0 m 0).pwd 0 (render ds ++ []) := by
      rw [List.append_nil]
      exact hpwd
    obtain ⟨s, hs, hat, hsame, hsame'⟩ := cut_eq hpwd' (fun b hb => nomatch hb)
      (show (render ds ++ []).length < turns by rw [List.append_nil]; omega)
    have hbehind : StringAt s.path s.pathname path := by
      rw [hsame, hsame']
      exact hpath
    obtain ⟨s₁, s', hwalk, hlast, hall⟩ := walk_eq hrest hat hbehind hds hturns
      (show path.length < turns by omega)
    refine ⟨s', ?_, ?_⟩
    · rw [abspath]
      simp only [if_neg hfirst, bind, Except.bind, hs, hwalk]
      exact hlast
    · rw [if_neg habs]
      exact hall

/-- A path up, and down to names that begin with dots. -/
def dottedPath : Str :=
  [0x2E, 0x2E, 0x2F, 0x2E, 0x61, 0x5C, 0x2E, 0x2F, 0x2E, 0x2E, 0x62, 0x2F, 0x63]

theorem abspath_follows_dots : ∃ s,
    abspath 20 (literal (render [[0x61], [0x62]])) (literal dottedPath) = .ok s ∧
      StringAt s.pwd 0 (render ((names dottedPath).foldl follow
        (if Absolute dottedPath then [] else [[0x61], [0x62]]))) := by
  refine abspath_follows 20 [[0x61], [0x62]] dottedPath _ _ ?_ ?_ (literal_at (by decide))
    (literal_at (by decide)) (by decide)
  · intro d hd
    rcases List.mem_cons.mp hd with rfl | hd
    · exact ⟨by decide, by decide⟩
    · rw [List.mem_singleton.mp hd]
      exact ⟨by decide, by decide⟩
  · rw [Plain, dottedPath]
    decide

example : (names dottedPath).foldl follow [[0x61], [0x62]] =
    [[0x61], [0x2E, 0x61], [0x2E, 0x2E, 0x62], [0x63]] := by decide

end NeonixAbsolutePaths
