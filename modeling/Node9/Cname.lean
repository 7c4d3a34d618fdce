import Node9.Cleanname
import Node9.Lib.Steps

/-!
# Channel names in memory (`chan.c`)

A `Cname` knows the length of its string and of its memory. `addelem` makes room and appends, and cleans after `..`; the
string is what `Names.addelem` says.
-/

namespace Node9.Cleanname
open Lexical Buf Names
open List hiding lex span

def CNAMESLOP : Nat := 20

/-- A length is an `int`, and `smalloc` does not return for as many bytes as an `int` cannot count. -/
structure Cname where
  s : Bytes
  len : Nat
  alen : Nat
  ref : Nat

def newcname (s : Bytes) : Cname := ⟨s ++ replicate CNAMESLOP 0, s.length, s.length + CNAMESLOP, 1⟩

def strchr (s : Bytes) (c : UInt8) : Option Nat :=
  let i := (s.takeWhile fun x => x ≠ c ∧ x ≠ 0).length
  if s.getD i 0 = c then some i else none

def cleancname (n : Cname) : Option Cname :=
  if n.s.getD 0 0 = sharp then
    match strchr n.s slash with
    | none => some n
    | some p => (cleanname (n.s.drop p)).map fun m =>
      let s := n.s.take p ++ m
      -- the correct name is `#i` rather than `#i/`, but that of `#/` is `#/`
      let s := if m.take (strlen m) = [slash] ∧ s.getD 1 0 ≠ slash then s.set p 0 else s
      { n with s := s, len := strlen s }
  else (cleanname n.s).map fun s => { n with s := s, len := strlen s }

def addelem (n : Cname) (s : Bytes) : Option Cname :=
  if s = [dot] then some n
  else
    -- copy on write
    let n := if 1 < n.ref then newcname (n.s.take (strlen n.s)) else n
    let i := s.length
    let n :=
      if n.alen < n.len + 1 + i + 1 then
        let a := n.len + 1 + i + 1 + CNAMESLOP
        { n with s := n.s.take (n.len + 1) ++ replicate (a - (n.len + 1)) 0, alen := a }
      else n
    let n :=
      if 0 < n.len ∧ n.s.getD (n.len - 1) 0 ≠ slash ∧ (s ++ [0]).getD 0 0 ≠ slash then
        { n with s := n.s.set n.len slash, len := n.len + 1 }
      else n
    let n := { n with s := n.s.take n.len ++ (s ++ [0]) ++ n.s.drop (n.len + i + 1), len := n.len + i }
    if isdotdot s then cleancname n else some n

/-- What is done to a name; others may hold it too, and then `ref` is what they have made it. -/
inductive Op
  | addelem (ref : Nat) (s : Bytes)
  | cleancname

def Op.run (n : Cname) : Op → Option Cname
  | .addelem ref s => Cleanname.addelem { n with ref := ref } s
  | .cleancname => Cleanname.cleancname n

def Op.Ok : Op → Prop
  | .addelem _ s => 0 ∉ s
  | .cleancname => True

/-- The name is `c`. -/
structure Holds (n : Cname) (c : Bytes) : Prop where
  nul : 0 ∉ c
  s : ∃ tail, n.s = c ++ 0 :: tail ∧ (c = [] → tail ≠ [])
  len : n.len = c.length
  alen : n.alen = n.s.length

variable {n n' : Cname} {c s tail : Bytes} {a : Op} {as : List Op}

theorem holds_newcname (h : 0 ∉ c) : Holds (newcname c) c :=
  ⟨h, ⟨replicate 19 0, rfl, fun _ => cons_ne_nil _ _⟩, rfl, by simp [newcname]⟩

theorem holds_of_eq (h : 0 ∉ c) (hs : n.s = c ++ 0 :: tail) (hlen : n.len = strlen n.s) (halen : n.alen = n.s.length)
    (hne : c ≠ []) : Holds n c :=
  ⟨h, ⟨tail, hs, fun hc => absurd hc hne⟩, by rw [hlen, hs, strlen_append h], halen⟩

theorem cleanname_ne_nil (s : Bytes) : Names.cleanname s ≠ [] := by
  have hdot : orDot (text (isRooted s) (cleaned s).elems) ≠ [] := by
    unfold orDot
    split
    · exact cons_ne_nil _ _
    · assumption
  rw [cleanname_eq, guarded]
  split
  · exact cons_ne_nil _ _
  · exact hdot

theorem strchr_spec {d p : Bytes} (hd : slash ∉ d) (hz : 0 ∉ d) (hp : p = [] ∨ p.head? = some slash) (tail : Bytes) :
    strchr (d ++ (p ++ 0 :: tail)) slash = if p = [] then none else some d.length := by
  have hall : ∀ x ∈ d, decide (x ≠ slash ∧ x ≠ 0) = true := fun x hx =>
    decide_eq_true ⟨fun h => hd (h ▸ hx), fun h => hz (h ▸ hx)⟩
  have hstop : (p ++ 0 :: tail).takeWhile (fun x => decide (x ≠ slash ∧ x ≠ 0)) = [] := by
    rcases hp with rfl | hp
    · simp
    · obtain ⟨c, t, rfl⟩ := exists_cons_of_ne_nil (l := p) (by rintro rfl; cases hp)
      cases Option.some.inj hp
      simp
  unfold strchr
  simp only [takeWhile_append_of_pos hall, hstop, append_nil]
  rw [getD_append_right _ _ _ _ le_rfl, tsub_self]
  rcases hp with rfl | hp
  · have hne : (0 : UInt8) ≠ slash := by decide
    rw [if_pos rfl]
    exact if_neg hne
  · obtain ⟨c, t, rfl⟩ := exists_cons_of_ne_nil (l := p) (by rintro rfl; cases hp)
    cases Option.some.inj hp
    rw [if_neg (cons_ne_nil _ _)]
    exact if_pos rfl

theorem holds_cleaned {m : Bytes} {t : Bytes} (hc : 0 ∉ c) (hm : m = Names.cleanname c ++ 0 :: t)
    (hlen : m.length = n.s.length)
    (halen : n.alen = n.s.length) : Holds { n with s := m, len := strlen m } (Names.cleanname c) :=
  holds_of_eq (nul_not_mem_cleanname hc) hm rfl (halen.trans hlen.symm) (cleanname_ne_nil c)

/-- `n->s[1]` is the same before and after the cleaning. -/
theorem device_iff {d p : Bytes} (hd : slash ∉ d) (hdne : d ≠ []) (hp : p.head? = some slash) (tail : Bytes) :
    (Names.cleanname p = [slash] ∧ (d ++ (Names.cleanname p ++ 0 :: tail)).getD 1 0 ≠ slash) ↔
      (Names.cleanname p = [slash] ∧ (d ++ p)[1]? ≠ some slash) := by
  obtain ⟨x, d, rfl⟩ := exists_cons_of_ne_nil hdne
  refine and_congr_right fun hclean => not_congr ?_
  rw [hclean]
  cases d with
  | nil =>
    obtain ⟨c, t, rfl⟩ := exists_cons_of_ne_nil (l := p) (by rintro rfl; cases hp)
    exact iff_of_true rfl hp
  | cons y d =>
    have hy : y ≠ slash := fun hy => hd (hy ▸ mem_cons_of_mem x mem_cons_self)
    exact iff_of_false hy fun h => hy (Option.some.inj h)

theorem cleancname_spec (h : Holds n c) : ∃ n', cleancname n = some n' ∧ Holds n' (Names.cleancname c) := by
  obtain ⟨tail, hs, hroom⟩ := h.s
  have hhead : n.s.getD 0 0 = sharp ↔ c.head? = some sharp := by
    rw [hs]
    exact getD_eq_sharp tail
  by_cases hsharp : c.head? = some sharp
  · obtain ⟨d, p, rfl, hd, hp⟩ := @exists_first _ _ slash c
    have hzd : 0 ∉ d := fun hz => h.nul (mem_append_left p hz)
    have hzp : 0 ∉ p := fun hz => h.nul (mem_append_right d hz)
    rw [append_assoc] at hs
    obtain ⟨htake, hdrop⟩ := takeWhile_append hd hp
    have hchr := strchr_spec hd hzd hp tail
    rw [← hs] at hchr
    unfold cleancname Names.cleancname
    simp only [if_pos (hhead.2 hsharp), if_pos hsharp, htake, hdrop, hchr]
    by_cases hnil : p = []
    · subst hnil
      simp only [if_true]
      exact ⟨n, rfl, h⟩
    simp only [if_neg hnil, hs, drop_left, take_left]
    obtain ⟨tail', hclean, hlen⟩ := @cleanname_spec p tail hzp fun h => absurd h hnil
    have hzq := nul_not_mem_cleanname hzp
    have hne := cleanname_ne_nil p
    have hmem : (d ++ (Names.cleanname p ++ 0 :: tail')).length = n.s.length := by
      rw [length_append, hlen, ← length_append, hs]
    have hdne : d ≠ [] := by
      rintro rfl
      exact absurd (hsharp.symm.trans (hp.resolve_left hnil)) (by decide)
    have htake : (Names.cleanname p ++ 0 :: tail').take (strlen (Names.cleanname p ++ 0 :: tail')) =
      Names.cleanname p := by
      rw [strlen_append hzq, take_left]
    have hiff := device_iff hd hdne (hp.resolve_left hnil) tail'
    rw [hclean, Option.map_some, htake]
    by_cases hdev : Names.cleanname p = [slash] ∧ (d ++ p)[1]? ≠ some slash
    · rw [if_pos hdev, if_pos (hiff.2 hdev)]
      rw [hdev.1] at hmem ⊢
      have hset : (d ++ ([slash] ++ 0 :: tail')).set d.length 0 = d ++ 0 :: 0 :: tail' := by
        rw [set_append_right _ _ le_rfl, tsub_self]
        rfl
      rw [hset]
      refine ⟨_, rfl, holds_of_eq hzd rfl rfl ?_ hdne⟩
      rw [h.alen, ← hmem, ← hset, length_set]
    · rw [if_neg hdev, if_neg (mt hiff.1 hdev)]
      refine ⟨_, rfl, holds_of_eq ?_ (append_assoc ..).symm rfl (h.alen.trans hmem.symm) ?_⟩
      · exact fun hz => (mem_append.1 hz).elim hzd hzq
      · exact append_ne_nil_of_left_ne_nil hdne _
  · unfold cleancname Names.cleancname
    rw [if_neg (mt hhead.1 hsharp), if_neg hsharp]
    obtain ⟨tail', hclean, hlen⟩ := cleanname_spec h.nul hroom
    rw [hs, hclean, Option.map_some]
    exact ⟨_, rfl, holds_cleaned h.nul rfl (by rw [hlen, hs]) h.alen⟩

/-! ### Adding an element -/

theorem take_strlen (h : Holds n c) : n.s.take (strlen n.s) = c := by
  obtain ⟨tail, hs, -⟩ := h.s
  rw [hs, strlen_append h.nul, take_left]

/-- The memory that there is room in for `i` bytes more, a slash and the NUL. -/
def grown (n : Cname) (i : Nat) : Cname :=
  if n.alen < n.len + 1 + i + 1 then
    let a := n.len + 1 + i + 1 + CNAMESLOP
    { n with s := n.s.take (n.len + 1) ++ replicate (a - (n.len + 1)) 0, alen := a }
  else n

theorem grown_spec (h : Holds n c) (i : Nat) :
    Holds (grown n i) c ∧ (grown n i).len + 1 + i + 1 ≤ (grown n i).s.length := by
  unfold grown
  split
  · obtain ⟨tail, hs, -⟩ := h.s
    have htake : n.s.take (n.len + 1) = c ++ [0] := by
      rw [h.len, hs, ← singleton_append, ← append_assoc]
      exact take_left' (length_append ..)
    have hsub : n.len + 1 + i + 1 + CNAMESLOP - (n.len + 1) = i + CNAMESLOP + 1 := by omega
    have hlen : (n.s.take (n.len + 1) ++ replicate (n.len + 1 + i + 1 + CNAMESLOP - (n.len + 1)) 0).length =
        n.len + 1 + i + 1 + CNAMESLOP := by
      rw [htake, length_append, length_append, length_replicate, ← h.len, length_singleton]
      omega
    refine ⟨⟨h.nul, ⟨replicate (i + CNAMESLOP + 1) 0, ?_, fun _ => cons_ne_nil _ _⟩, h.len, hlen.symm⟩, ?_⟩
    · dsimp only
      rw [htake, hsub, append_assoc]
      rfl
    · dsimp only
      rw [hlen]
      omega
  · next hle =>
    have halen := h.alen
    exact ⟨h, by omega⟩

/-- With the slash that belongs between the name and the element. -/
def slashed (n : Cname) (s : Bytes) : Cname :=
  if 0 < n.len ∧ n.s.getD (n.len - 1) 0 ≠ slash ∧ (s ++ [0]).getD 0 0 ≠ slash then
    { n with s := n.s.set n.len slash, len := n.len + 1 }
  else n

def between (c s : Bytes) : Bytes := if c ≠ [] ∧ c.getLast? ≠ some slash ∧ s.head? ≠ some slash then [slash] else []

theorem slashed_spec (h : Holds n c) (hroom : n.len + 1 + s.length + 1 ≤ n.s.length) : ∃ tail,
    (slashed n s).s = c ++ between c s ++ tail ∧ (slashed n s).len = (c ++ between c s).length ∧
      (slashed n s).alen = (slashed n s).s.length ∧ s.length + 1 ≤ tail.length ∧
      (slashed n s).s.length = n.s.length := by
  obtain ⟨tail, hs, -⟩ := h.s
  have hiff : (0 < n.len ∧ n.s.getD (n.len - 1) 0 ≠ slash ∧ (s ++ [0]).getD 0 0 ≠ slash) ↔
      (c ≠ [] ∧ c.getLast? ≠ some slash ∧ s.head? ≠ some slash) := by
    have hne : (0 : UInt8) ≠ slash := by decide
    rw [h.len, hs]
    refine and_congr length_pos_iff (and_congr (not_congr ?_) (not_congr ?_))
    · rcases c.eq_nil_or_concat with rfl | ⟨d, x, rfl⟩
      · exact iff_of_false hne (by decide)
      have hlast : ((d ++ [x]) ++ 0 :: tail).getD ((d ++ [x]).length - 1) 0 = x := by
        rw [length_append, length_singleton, Nat.add_sub_cancel, append_assoc,
          getD_append_right _ _ _ _ le_rfl, tsub_self]
        rfl
      rw [concat_eq_append, hlast, getLast?_concat]
      exact ⟨congrArg some, Option.some.inj⟩
    · cases s with
      | nil => exact iff_of_false hne (by decide)
      | cons x s => exact ⟨congrArg some, Option.some.inj⟩
  have hlenm := congrArg length hs
  rw [length_append, length_cons] at hlenm
  have hlen := h.len
  unfold slashed between
  by_cases hsep : c ≠ [] ∧ c.getLast? ≠ some slash ∧ s.head? ≠ some slash
  · rw [if_pos hsep, if_pos (hiff.2 hsep)]
    refine ⟨tail, ?_, ?_, ?_, by omega, length_set⟩
    · dsimp only
      rw [h.len, hs, set_append_right _ _ le_rfl, tsub_self, append_assoc]
      rfl
    · rw [length_append, ← h.len]
      rfl
    · dsimp only
      rw [length_set, h.alen]
  · rw [if_neg hsep, if_neg (mt hiff.1 hsep), append_nil]
    exact ⟨0 :: tail, hs, h.len, h.alen, by rw [length_cons]; omega, rfl⟩

theorem addelem_spec (h : Holds n c) (hs : 0 ∉ s) : ∃ n', addelem n s = some n' ∧ Holds n' (Names.addelem c s) := by
  unfold addelem Names.addelem
  by_cases hdot : s = [dot]
  · rw [if_pos hdot, if_pos hdot]
    exact ⟨n, rfl, h⟩
  rw [if_neg hdot, if_neg hdot]
  have hcopy : Holds (if 1 < n.ref then newcname (n.s.take (strlen n.s)) else n) c := by
    split
    · rw [take_strlen h]
      exact holds_newcname h.nul
    · exact h
  generalize (if 1 < n.ref then newcname (n.s.take (strlen n.s)) else n) = n₁ at hcopy
  obtain ⟨hgrown, hroom⟩ := grown_spec hcopy s.length
  change ∃ n', (if isdotdot s then cleancname
      { slashed (grown n₁ s.length) s with
        s := (slashed (grown n₁ s.length) s).s.take (slashed (grown n₁ s.length) s).len ++ (s ++ [0]) ++
          (slashed (grown n₁ s.length) s).s.drop ((slashed (grown n₁ s.length) s).len + s.length + 1)
        len := (slashed (grown n₁ s.length) s).len + s.length }
    else some
      { slashed (grown n₁ s.length) s with
        s := (slashed (grown n₁ s.length) s).s.take (slashed (grown n₁ s.length) s).len ++ (s ++ [0]) ++
          (slashed (grown n₁ s.length) s).s.drop ((slashed (grown n₁ s.length) s).len + s.length + 1)
        len := (slashed (grown n₁ s.length) s).len + s.length }) = some n' ∧
    Holds n' (if isdotdot s then Names.cleancname (c ++ between c s ++ s) else c ++ between c s ++ s)
  obtain ⟨tail, hmem, hlen, halen, htail, hsize⟩ := slashed_spec (s := s) hgrown hroom
  generalize slashed (grown n₁ s.length) s = n₂ at hmem hlen halen hsize
  have htake : n₂.s.take n₂.len = c ++ between c s := by rw [hlen, hmem, take_left]
  have hdrop : n₂.s.drop (n₂.len + s.length + 1) = tail.drop (s.length + 1) := by
    rw [add_assoc, ← drop_drop, hlen, hmem, drop_left]
  have hnul : 0 ∉ c ++ between c s ++ s := by
    have hbetween : 0 ∉ between c s := by
      unfold between
      split <;> decide
    rw [mem_append, mem_append]
    exact fun hz => hz.elim (fun hz => hz.elim h.nul hbetween) hs
  have hjoined : Holds { n₂ with
      s := n₂.s.take n₂.len ++ (s ++ [0]) ++ n₂.s.drop (n₂.len + s.length + 1), len := n₂.len + s.length }
      (c ++ between c s ++ s) := by
    have hsame : n₂.s.take n₂.len ++ (s ++ [0]) ++ n₂.s.drop (n₂.len + s.length + 1) =
        c ++ between c s ++ s ++ 0 :: tail.drop (s.length + 1) := by
      rw [htake, hdrop]
      simp
    refine ⟨hnul, ⟨tail.drop (s.length + 1), hsame, fun hnil htl => ?_⟩, ?_, ?_⟩
    · obtain ⟨hcb, hsnil⟩ := append_eq_nil_iff.1 hnil
      have hzero := congrArg length htl
      have hlen' := congrArg length hmem
      rw [length_append, hcb] at hlen'
      rw [length_drop] at hzero
      simp only [length_nil] at hzero hlen'
      omega
    · dsimp only
      rw [hlen, ← length_append]
    · have hlen' := congrArg length hmem
      rw [length_append] at hlen'
      dsimp only
      rw [hsame, halen, length_append, length_append, length_cons, length_drop]
      omega
  split
  · exact cleancname_spec hjoined
  · exact ⟨_, rfl, hjoined⟩

/-! ### What they are for -/

/-- `len` is the length of the string and below `alen`, the size of the memory. -/
structure Sound (n : Cname) : Prop where
  len : n.len = strlen n.s
  lt : n.len < n.alen
  alen : n.alen = n.s.length

theorem Holds.sound (h : Holds n c) : Sound n := by
  obtain ⟨tail, hs, -⟩ := h.s
  have hlen := h.len
  have halen := h.alen
  have hsize := congrArg length hs
  rw [length_append, length_cons] at hsize
  exact ⟨by rw [hs, strlen_append h.nul, hlen], by omega, halen⟩

theorem Holds.run (h : Holds n c) (ha : a.Ok) : ∃ n' c', a.run n = some n' ∧ Holds n' c' := by
  cases a with
  | addelem ref s =>
    have href : Holds { n with ref := ref } c := ⟨h.nul, h.s, h.len, h.alen⟩
    obtain ⟨n', hrun, hn'⟩ := addelem_spec href ha
    exact ⟨n', _, hrun, hn'⟩
  | cleancname =>
    obtain ⟨n', hrun, hn'⟩ := cleancname_spec h
    exact ⟨n', _, hrun, hn'⟩

theorem Holds.runs (h : Holds n c) (has : ∀ a ∈ as, a.Ok) : ∃ n', Steps.run Op.run n as = some n' ∧ Sound n' := by
  induction as generalizing n c with
  | nil => exact ⟨n, rfl, h.sound⟩
  | cons a as ih =>
    obtain ⟨n₁, c₁, hrun, hn₁⟩ := h.run (has a mem_cons_self)
    obtain ⟨n', hruns, hn'⟩ := ih hn₁ fun b hb => has b (mem_cons_of_mem a hb)
    refine ⟨n', ?_, hn'⟩
    rw [Steps.run, hrun]
    exact hruns

/-- What `cleanname` makes of `name`. -/
structure Cleans (name t : Bytes) : Prop where
  nul : 0 ∉ t
  length : t.length ≤ max 1 name.length
  clean : Clean t ∨ t = [dot]
  same : ∀ cwd, denote cwd t = denote cwd name
  again : ∀ tail, ∃ tail', cleanname (t ++ 0 :: tail) = some (t ++ 0 :: tail')
  sharp : name.head? ≠ some sharp → t.head? ≠ some sharp

theorem cleans_cleanname {name : Bytes} (h : 0 ∉ name) : Cleans name (Names.cleanname name) where
  nul := nul_not_mem_cleanname h
  length := length_cleanname name
  clean := cleanname_clean name
  same cwd := denote_cleanname cwd name
  again tail := by
    obtain ⟨tail', hrun, -⟩ := @cleanname_spec _ tail (nul_not_mem_cleanname h) fun hnil => absurd hnil
      (cleanname_ne_nil name)
    rw [cleanname_cleanname] at hrun
    exact ⟨tail', hrun⟩
  sharp := cleanname_sharp

/-- Every name is cleaned, and every name of a channel keeps its length. -/
theorem names_clean :
    (∀ name tail, 0 ∉ name → (name = [] → tail ≠ []) →
      ∃ t tail', cleanname (name ++ 0 :: tail) = some (t ++ 0 :: tail') ∧ Cleans name t) ∧
    ∀ name as, 0 ∉ name → (∀ a ∈ as, a.Ok) → ∃ n, Steps.run Op.run (newcname name) as = some n ∧ Sound n := by
  refine ⟨fun name tail h hroom => ?_, fun name as h has => (holds_newcname h).runs has⟩
  obtain ⟨tail', hrun, -⟩ := cleanname_spec h hroom
  exact ⟨_, tail', hrun, cleans_cleanname h⟩

/-- `a/..`, to which `b` is added. -/
theorem names_clean_up :
    (∃ t tail', cleanname ([97, 47, 46, 46] ++ 0 :: []) = some (t ++ 0 :: tail') ∧ Cleans [97, 47, 46, 46] t) ∧
    ∃ n, Steps.run Op.run (newcname [97, 47, 46, 46]) [.cleancname, .addelem 1 [98], .cleancname] = some n ∧ Sound n := by
  refine ⟨names_clean.1 _ _ (by decide) nofun, names_clean.2 _ _ (by decide) fun a ha => ?_⟩
  simp only [mem_cons, not_mem_nil, or_false] at ha
  rcases ha with rfl | rfl | rfl
  · trivial
  · exact show (0 : UInt8) ∉ [98] by decide
  · trivial

/-- The name without elements is `.`. -/
theorem not_canonical : ¬ ∀ name tail, 0 ∉ name → (name = [] → tail ≠ []) →
    ∃ t tail', cleanname (name ++ 0 :: tail) = some (t ++ 0 :: tail') ∧ 0 ∉ t ∧ Clean t := by
  intro h
  obtain ⟨t, tail', hrun, ht, hclean⟩ := h [] [0] not_mem_nil fun _ => cons_ne_nil _ _
  have hdot : cleanname ([] ++ 0 :: [0]) = some [dot, 0] := by decide
  have heq := Option.some.inj (hrun.symm.trans hdot)
  have hlen : t = [dot] := by
    have htake : (t ++ 0 :: tail').take (strlen (t ++ 0 :: tail')) = [dot, 0].take (strlen [dot, 0]) := by rw [heq]
    rw [strlen_append ht, take_left] at htake
    rw [htake]
    decide
  subst hlen
  rcases hclean with hcan | ⟨u, hu, -⟩
  · exact (hcan.elem [dot] (by decide)).2 rfl
  · exact absurd (congrArg length hu) (by simp)

end Node9.Cleanname
