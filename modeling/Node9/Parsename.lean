import Node9.Names

/-!
# Path parsing (`chan.c`)

`parsename` cuts a copy of the name at its slashes, and keeps the offsets at which the elements end, after that at which
the first one starts. The arrays are made longer by `growparse`, eight elements at a time; it copies as many offsets as
there are elements, and the last offset is not among them.
-/

namespace Node9.Names
open Lexical Buf
open List hiding span

/-- The strings are those that the pointers into the copy have in front of them once it is cut. -/
structure Elemlist where
  elems : List Bytes
  off : List Nat
  mustbedir : Bool

def skipslash : Bytes → Bytes
  | [] => []
  | c :: name => if c = slash ∨ c = dot ∧ (name = [] ∨ name.head? = some slash) then skipslash name else c :: name

/-- What `smalloc` gives is zero. -/
def growparse (e : Elemlist) : Elemlist :=
  if e.elems.length % 8 = 0 then { e with off := e.off.take e.elems.length ++ replicate 9 0 } else e

/-- The loop. The offset of a suffix is what it is shorter than the name. -/
def parseLoop (len : Nat) : Nat → Bytes → Elemlist → Elemlist
  | 0, _, e => e
  | k + 1, name, e =>
    let name := skipslash name
    if name = [] then { e with mustbedir := true }
    else
      let e := growparse e
      let elem := name.takeWhile (· ≠ slash)
      let rest := name.dropWhile (· ≠ slash)
      let e := { e with
        elems := e.elems ++ [elem]
        off := e.off.set (e.elems.length + 1) (len - rest.length) }
      if rest = [] then { e with mustbedir := false } else parseLoop len k rest.tail e

def parsename (name : Bytes) : Elemlist :=
  parseLoop name.length (name.length + 1) name ⟨[], [name.length - (skipslash name).length], false⟩

def validpath (name : Bytes) : Bool :=
  name.length < 1 <<< 16 && name.all fun c => c ≥ 0x80 || !isfrog c || c = slash

def IsElem (e : Bytes) : Prop := e ≠ [] ∧ e ≠ [dot]

instance : DecidablePred IsElem := fun _ => inferInstanceAs (Decidable (_ ∧ _))

def pieces (name : Bytes) : List Bytes := (name.splitOn slash).filter IsElem

/-- After `pre` comes the element `e`. -/
structure Stands (name pre e : Bytes) : Prop where
  split : ∃ post, name = pre ++ (e ++ post) ∧ (post = [] ∨ post.head? = some slash)
  starts : pre = [] ∨ pre.getLast? = some slash
  no_slash : slash ∉ e
  elem : IsElem e

structure Parsed (name : Bytes) (r : Elemlist) : Prop where
  elems : r.elems = pieces name
  first : ∀ pre e, Stands name pre e → pieces pre = [] → r.off[0]? = some pre.length
  ends : ∀ pre e, Stands name pre e → r.off[(pieces pre).length + 1]? = some (pre.length + e.length)
  dir : r.mustbedir = true ↔ name.getLast? = some slash ∨ (name.splitOn slash).getLast? = some [dot] ∨ pieces name = []

/-! ### The parts between the slashes -/

variable {name pre post p e : Bytes} {ps : List Bytes} {r : Elemlist} {T : List Nat} {pos len k n : Nat}

/-- Where the elements end, if the first part starts at `pos`. -/
def marks : Nat → List Bytes → List Nat
  | _, [] => []
  | pos, p :: ps => if IsElem p then (pos + p.length) :: marks (pos + p.length + 1) ps
  else marks (pos + p.length + 1) ps

theorem filter_elem (hp : IsElem p) : (p :: ps).filter IsElem = p :: ps.filter IsElem :=
  filter_cons_of_pos (decide_eq_true hp)

theorem filter_other (hp : ¬ IsElem p) : (p :: ps).filter IsElem = ps.filter IsElem :=
  filter_cons_of_neg (by simpa using hp)

theorem skipslash_slash : skipslash (slash :: name) = skipslash name := if_pos (.inl rfl)

theorem skipslash_part (hp : ¬ IsElem p) : skipslash (p ++ slash :: name) = skipslash name := by
  by_cases h : p = []
  · subst h
    exact skipslash_slash
  · have hdot : p = [dot] := by
      by_contra hne
      exact hp ⟨h, hne⟩
    subst hdot
    exact (if_pos (.inr ⟨rfl, .inr rfl⟩)).trans skipslash_slash

theorem skipslash_last (hp : ¬ IsElem p) : skipslash p = [] := by
  by_cases h : p = []
  · subst h
    rfl
  · have hdot : p = [dot] := by
      by_contra hne
      exact hp ⟨h, hne⟩
    subst hdot
    rfl

theorem skipslash_elem (hp : IsElem p) (hs : slash ∉ p) : skipslash (p ++ post) = p ++ post := by
  obtain ⟨c, q, rfl⟩ := exists_cons_of_ne_nil hp.1
  refine if_neg ?_
  rintro (rfl | ⟨rfl, hq⟩)
  · exact hs mem_cons_self
  cases q with
  | nil => exact hp.2 rfl
  | cons d q =>
    rcases hq with hq | hq
    · cases hq
    · exact hs (mem_cons_of_mem _ (Option.some.inj hq ▸ mem_cons_self))

/-- The offset that was the last when the arrays were made longer is zero. `T` is what the offsets should be. -/
structure Lost (n : Nat) (off T : List Nat) : Prop where
  length : T.length = n + 1
  room : n < off.length
  grown : ¬ 8 ∣ n → n / 8 * 8 + 9 ≤ off.length
  get : ∀ j ≤ n, off[j]? = if 8 ∣ j ∧ j < n then some 0 else T[j]?

theorem lost_start : Lost 0 [n] [n] where
  length := rfl
  room := Nat.zero_lt_one
  grown h := absurd (dvd_zero 8) h
  get j hj := by
    obtain rfl := Nat.le_zero.1 hj
    rfl

theorem Lost.snoc (h : Lost r.elems.length r.off T) :
    Lost (r.elems.length + 1) ((growparse r).off.set (r.elems.length + 1) n) (T ++ [n]) := by
  have hT := h.length
  have hroom := h.room
  have hlen : (growparse r).off.length = if 8 ∣ r.elems.length then r.elems.length + 9 else r.off.length := by
    unfold growparse
    by_cases hd : 8 ∣ r.elems.length
    · rw [if_pos (Nat.mod_eq_zero_of_dvd hd), if_pos hd, length_append, length_take, length_replicate]
      omega
    · rw [if_neg (fun h => hd (Nat.dvd_of_mod_eq_zero h)), if_neg hd]
  have hget : ∀ j ≤ r.elems.length, (growparse r).off[j]? = if 8 ∣ j then some 0 else T[j]? := by
    intro j hj
    have hold := h.get j hj
    unfold growparse
    by_cases hd : 8 ∣ r.elems.length
    · rw [if_pos (Nat.mod_eq_zero_of_dvd hd)]
      rcases Nat.lt_or_eq_of_le hj with hlt | rfl
      · rw [getElem?_append_left (by rw [length_take]; omega), getElem?_take_of_lt hlt, hold]
        simp [hlt]
      · rw [getElem?_append_right (by rw [length_take]; omega), if_pos hd, length_take,
          min_eq_left hroom.le, tsub_self]
        rfl
    · rw [if_neg (fun h => hd (Nat.dvd_of_mod_eq_zero h)), hold]
      by_cases hdj : 8 ∣ j
      · have hlt : j < r.elems.length := Nat.lt_of_le_of_ne hj fun heq => hd (heq ▸ hdj)
        simp [hdj, hlt]
      · simp [hdj]
  have hgrown : r.elems.length + 1 < (growparse r).off.length := by
    rw [hlen]
    split
    · omega
    · next hd =>
      have hg := h.grown hd
      omega
  refine ⟨by rw [length_append, hT]; rfl, ?_, ?_, fun j hj => ?_⟩
  · rwa [length_set]
  · intro hd
    rw [length_set, hlen]
    split
    · omega
    · next hd' =>
      have hg := h.grown hd'
      omega
  · rcases Nat.lt_or_eq_of_le hj with hlt | rfl
    · rw [getElem?_set_ne (Nat.ne_of_gt hlt), hget j (Nat.le_of_lt_succ hlt),
        getElem?_append_left (by omega)]
      simp [hlt]
    · rw [getElem?_set_self hgrown, getElem?_append_right (by omega), hT, tsub_self]
      simp

/-- The list after one more element. -/
def Elemlist.push (r : Elemlist) (p : Bytes) (n : Nat) : Elemlist :=
  { growparse r with elems := r.elems ++ [p], off := (growparse r).off.set (r.elems.length + 1) n }

theorem growparse_elems : (growparse r).elems = r.elems := by
  unfold growparse
  split <;> rfl

theorem parseLoop_elem (hp : IsElem p) (hs : slash ∉ p) (hpost : post = [] ∨ post.head? = some slash) :
    parseLoop len (k + 1) (p ++ post) r =
      if post = [] then { r.push p (len - post.length) with mustbedir := false }
      else parseLoop len k post.tail (r.push p (len - post.length)) := by
  obtain ⟨htake, hdrop⟩ := takeWhile_append hs hpost
  have hne : p ++ post ≠ [] := fun h => hp.1 (append_eq_nil_iff.1 h).1
  rw [parseLoop]
  simp only [skipslash_elem hp hs, if_neg hne, htake, hdrop, growparse_elems, Elemlist.push]

theorem parseLoop_part (hp : ¬ IsElem p) :
    parseLoop len (k + 1) (p ++ slash :: name) r = parseLoop len (k + 1) name r := by
  unfold parseLoop
  rw [skipslash_part hp]

theorem parseLoop_last (hp : ¬ IsElem p) : parseLoop len (k + 1) p r = { r with mustbedir := true } := by
  rw [parseLoop]
  simp only [skipslash_last hp, if_true]

theorem parseLoop_spec (hne : ps ≠ []) (hs : ∀ p ∈ ps, slash ∉ p) (hk : ps.length ≤ k)
    (hlen : pos + (glue slash ps).length = len) (hl : Lost r.elems.length r.off T) :
    (parseLoop len k (glue slash ps) r).elems = r.elems ++ ps.filter IsElem ∧
      Lost (r.elems ++ ps.filter IsElem).length (parseLoop len k (glue slash ps) r).off (T ++ marks pos ps) ∧
      ((parseLoop len k (glue slash ps) r).mustbedir = true ↔ ∃ p, ps.getLast? = some p ∧ ¬ IsElem p) := by
  induction ps generalizing pos k r T with
  | nil => exact absurd rfl hne
  | cons p ps ih =>
    obtain ⟨k, rfl⟩ : ∃ i, k = i + 1 := ⟨k - 1, by rw [length_cons] at hk; omega⟩
    have hsp := hs p mem_cons_self
    have hsps : ∀ q ∈ ps, slash ∉ q := fun q hq => hs q (mem_cons_of_mem p hq)
    have hkps : ps.length ≤ k := Nat.le_of_succ_le_succ hk
    by_cases hp : IsElem p
    · have hpush : Lost (r.push p (pos + p.length)).elems.length (r.push p (pos + p.length)).off
        (T ++ [pos + p.length]) := by
        have helems : (r.push p (pos + p.length)).elems.length = r.elems.length + 1 := length_append
        rw [helems]
        exact hl.snoc
      rw [filter_elem hp, marks, if_pos hp]
      by_cases hps : ps = []
      · subst hps
        rw [glue_singleton] at hlen ⊢
        have hstep : parseLoop len (k + 1) (p ++ []) r = _ := parseLoop_elem hp hsp (.inl rfl)
        rw [append_nil, if_pos rfl, length_nil, Nat.sub_zero, ← hlen] at hstep
        rw [← hlen, hstep]
        exact ⟨rfl, hpush, by simp [hp]⟩
      rw [glue_cons hps] at hlen ⊢
      rw [length_append, length_cons] at hlen
      have hpos : len - (slash :: glue slash ps).length = pos + p.length := by
        rw [length_cons]
        omega
      have hlen' : pos + p.length + 1 + (glue slash ps).length = len := by omega
      rw [parseLoop_elem hp hsp (.inr rfl), if_neg (cons_ne_nil _ _), hpos, tail_cons]
      have hrest := ih hps hsps hkps hlen' hpush
      have helems : (r.push p (pos + p.length)).elems ++ ps.filter IsElem = r.elems ++ p :: ps.filter IsElem := by
        simp [Elemlist.push]
      have hmarks : T ++ [pos + p.length] ++ marks (pos + p.length + 1) ps =
          T ++ (pos + p.length) :: marks (pos + p.length + 1) ps := by simp
      rw [helems, hmarks] at hrest
      rwa [getLast?_cons_of_ne_nil hps]
    · rw [filter_other hp, marks, if_neg hp]
      by_cases hps : ps = []
      · subst hps
        rw [glue_singleton, parseLoop_last hp]
        refine ⟨(append_nil _).symm, ?_, by simp [hp]⟩
        simpa [marks] using hl
      · rw [glue_cons hps] at hlen ⊢
        rw [length_append, length_cons] at hlen
        have hlen' : pos + p.length + 1 + (glue slash ps).length = len := by omega
        rw [parseLoop_part hp, getLast?_cons_of_ne_nil hps]
        exact ih hps hsps (Nat.le_succ_of_le hkps) hlen' hl

/-! ### Where the elements are -/

theorem pieces_slash (q : Bytes) : pieces (q ++ [slash]) = pieces q := by
  rw [pieces, splitOn_append_cons_self, filter_append]
  exact append_nil _

theorem Stands.parts (h : Stands name pre e) : ∃ qs ps, name.splitOn slash = qs ++ e :: ps ∧ span qs = pre.length ∧
    qs.filter IsElem = pieces pre := by
  obtain ⟨⟨post, rfl, hpost⟩, hpre, hs, he⟩ := h
  obtain ⟨ps, hps⟩ := splitOn_append hs hpost
  rcases hpre with rfl | hpre
  · exact ⟨[], ps, hps, rfl, rfl⟩
  · obtain ⟨q, rfl⟩ := getLast?_eq_some_iff.1 hpre
    refine ⟨q.splitOn slash, ps, ?_, ?_, (pieces_slash q).symm⟩
    · rw [append_assoc, singleton_append, splitOn_append_cons_self, hps]
    · rw [length_glue (splitOn_ne_nil slash q), glue_splitOn q, length_append]
      rfl

theorem marks_get {qs : List Bytes} (he : IsElem e) :
    (marks pos (qs ++ e :: ps))[(qs.filter IsElem).length]? = some (pos + span qs + e.length) := by
  induction qs generalizing pos with
  | nil =>
    rw [nil_append, marks, if_pos he]
    rfl
  | cons q qs ih =>
    rw [cons_append, marks, span_cons, ← add_assoc, ← add_assoc]
    by_cases hq : IsElem q
    · rw [if_pos hq, filter_elem hq, length_cons, getElem?_cons_succ]
      exact ih
    · rw [if_neg hq, filter_other hq]
      exact ih

theorem exists_filter {n : Nat} (hn : n < (ps.filter IsElem).length) :
    ∃ qs e rest, ps = qs ++ e :: rest ∧ IsElem e ∧ (qs.filter IsElem).length = n := by
  induction ps generalizing n with
  | nil => exact absurd hn (Nat.not_lt_zero n)
  | cons p ps ih =>
    by_cases hp : IsElem p
    · rw [filter_elem hp, length_cons] at hn
      cases n with
      | zero => exact ⟨[], p, ps, rfl, hp, rfl⟩
      | succ n =>
        obtain ⟨qs, e, rest, rfl, he, hlen⟩ := ih (Nat.lt_of_succ_lt_succ hn)
        refine ⟨p :: qs, e, rest, rfl, he, ?_⟩
        rw [filter_elem hp, length_cons, hlen]
    · rw [filter_other hp] at hn
      obtain ⟨qs, e, rest, rfl, he, hlen⟩ := ih hn
      refine ⟨p :: qs, e, rest, rfl, he, ?_⟩
      rw [filter_other hp, hlen]

theorem exists_stands (hn : n < (pieces name).length) : ∃ pre e, Stands name pre e ∧ (pieces pre).length = n := by
  obtain ⟨qs, e, rest, hsplit, he, hlen⟩ := exists_filter hn
  have hs : slash ∉ e := Lexical.not_mem_of_mem_splitOn (hsplit ▸ mem_append_right qs mem_cons_self)
  have hpost : ∃ post, glue slash (e :: rest) = e ++ post ∧ (post = [] ∨ post.head? = some slash) := by
    by_cases hrest : rest = []
    · subst hrest
      exact ⟨[], by rw [glue_singleton, append_nil], .inl rfl⟩
    · exact ⟨_, glue_cons hrest, .inr rfl⟩
  obtain ⟨post, hglue, hpost⟩ := hpost
  by_cases hqs : qs = []
  · subst hqs
    refine ⟨[], e, ⟨⟨post, ?_, hpost⟩, .inl rfl, hs, he⟩, hlen⟩
    rw [nil_append, ← hglue, ← glue_splitOn name, hsplit, nil_append]
  have hsqs : ∀ q ∈ qs, slash ∉ q := fun q hq =>
    Lexical.not_mem_of_mem_splitOn (hsplit ▸ mem_append_left _ hq)
  refine ⟨glue slash qs ++ [slash], e, ⟨⟨post, ?_, hpost⟩, .inr getLast?_concat, hs, he⟩, ?_⟩
  · rw [← glue_splitOn name, hsplit, ← hglue, glue_append hqs (cons_ne_nil e rest), append_assoc]
    rfl
  · rw [pieces_slash, pieces, splitOn_glue hqs hsqs, hlen]

theorem skipslash_glue (hps : ps ≠ []) (h : ps.filter IsElem = []) :
    skipslash (glue slash ps ++ slash :: name) = skipslash name := by
  induction ps with
  | nil => exact absurd rfl hps
  | cons p ps ih =>
    by_cases hp : IsElem p
    · rw [filter_elem hp] at h
      cases h
    · rw [filter_other hp] at h
      by_cases hnil : ps = []
      · subst hnil
        rw [glue_singleton, skipslash_part hp]
      · rw [glue_cons hnil, append_assoc, cons_append, skipslash_part hp, ih hnil h]

theorem Stands.skipslash (h : Stands name pre e) (hpre : pieces pre = []) :
    ∃ post, name = pre ++ (e ++ post) ∧ Names.skipslash name = e ++ post := by
  obtain ⟨⟨post, rfl, hpost⟩, hstart, hs, he⟩ := h
  refine ⟨post, rfl, ?_⟩
  rcases hstart with rfl | hstart
  · exact (skipslash_elem he hs : Names.skipslash (e ++ post) = e ++ post)
  obtain ⟨q, rfl⟩ := getLast?_eq_some_iff.1 hstart
  rw [pieces_slash] at hpre
  have hglue : Names.skipslash (glue slash (q.splitOn slash) ++ slash :: (e ++ post)) = _ :=
    skipslash_glue (splitOn_ne_nil slash q) hpre
  rw [glue_splitOn] at hglue
  rw [append_assoc, singleton_append, hglue, skipslash_elem he hs]

theorem parsename_spec (name : Bytes) : (parsename name).elems = pieces name ∧
    Lost (pieces name).length (parsename name).off
    ((name.length - (skipslash name).length) :: marks 0 (name.splitOn slash)) ∧
    ((parsename name).mustbedir = true ↔ ∃ p, (name.splitOn slash).getLast? = some p ∧ ¬ IsElem p) := by
  have hs : ∀ p ∈ name.splitOn slash, slash ∉ p := fun p => Lexical.not_mem_of_mem_splitOn
  have hne := splitOn_ne_nil slash name
  have hlen : (name.splitOn slash).length ≤ name.length + 1 := by
    have hspan : span (name.splitOn slash) = (glue slash (name.splitOn slash)).length + 1 := length_glue hne
    rw [glue_splitOn name] at hspan
    rw [← hspan, span]
    have hle := length_le_sum_of_one_le ((name.splitOn slash).map fun p => p.length + 1) fun n hn => by
      obtain ⟨p, -, rfl⟩ := mem_map.1 hn
      exact Nat.le_add_left 1 p.length
    rwa [length_map] at hle
  have hspec := parseLoop_spec (r := ⟨[], [name.length - (skipslash name).length], false⟩) hne hs hlen
    ((zero_add _).trans (congrArg length (glue_splitOn name))) lost_start
  rw [glue_splitOn] at hspec
  exact hspec

theorem last_part : (∃ p, (name.splitOn slash).getLast? = some p ∧ ¬ IsElem p) ↔
    name.getLast? = some slash ∨ (name.splitOn slash).getLast? = some [dot] ∨ pieces name = [] := by
  by_cases hname : name.getLast? = some slash
  · obtain ⟨q, rfl⟩ := getLast?_eq_some_iff.1 hname
    refine iff_of_true ⟨[], ?_, fun h => h.1 rfl⟩ (.inl hname)
    rw [splitOn_append_cons_self]
    exact getLast?_concat
  obtain ⟨p, hp⟩ := Option.ne_none_iff_exists'.1 (mt getLast?_eq_none_iff.1 (splitOn_ne_nil slash name))
  obtain ⟨ps, hps⟩ := getLast?_eq_some_iff.1 hp
  rw [hp]
  constructor
  · rintro ⟨_, hp', helem⟩
    cases hp'
    by_cases hdot : p = [dot]
    · exact .inr (.inl (congrArg some hdot))
    have hnil : p = [] := by
      by_contra hne
      exact helem ⟨hne, hdot⟩
    subst hnil
    by_cases hpsnil : ps = []
    · subst hpsnil
      exact .inr (.inr (by rw [pieces, hps]; rfl))
    · refine absurd ?_ hname
      rw [← glue_splitOn name, hps, glue_append hpsnil (cons_ne_nil _ _), glue_singleton]
      exact getLast?_concat
  · rintro (h | h | h)
    · exact absurd h hname
    · cases h
      exact ⟨_, rfl, fun h => h.2 rfl⟩
    · refine ⟨p, rfl, fun helem => ?_⟩
      have hmem : p ∈ pieces name :=
        mem_filter.2 ⟨hps ▸ mem_append_right ps mem_cons_self, decide_eq_true helem⟩
      rw [h] at hmem
      cases hmem

/-- `parsename` does what it is for when there is nothing to lose: no element, or eight at most of which the first one
starts the name. -/
theorem parsename_iff (name : Bytes) : Parsed name (parsename name) ↔
    pieces name = [] ∨ skipslash name = name ∧ (pieces name).length ≤ 8 := by
  obtain ⟨helems, hlost, hdir⟩ := parsename_spec name
  constructor
  · intro h
    refine or_iff_not_imp_left.2 fun hne => ?_
    have hpos : 0 < (pieces name).length := length_pos_iff.2 hne
    refine ⟨?_, not_lt.1 fun hlt => ?_⟩
    · obtain ⟨pre, e, hst, hpre⟩ := exists_stands hpos
      have hnil : pieces pre = [] := length_eq_zero_iff.1 hpre
      have hoff := (h.first pre e hst hnil).symm.trans (hlost.get 0 hpos.le)
      rw [if_pos ⟨dvd_zero 8, hpos⟩] at hoff
      obtain ⟨post, hname, hskip⟩ := hst.skipslash hnil
      rw [length_eq_zero_iff.1 (Option.some.inj hoff), nil_append] at hname
      rw [hskip, ← hname]
    · obtain ⟨pre, e, hst, hpre⟩ := exists_stands (show 7 < (pieces name).length by omega)
      have hoff := (h.ends pre e hst).symm.trans (hlost.get _ (by omega))
      rw [hpre, if_pos ⟨⟨1, rfl⟩, hlt⟩] at hoff
      have hzero := Option.some.inj hoff
      exact hst.elem.1 (length_eq_zero_iff.1 (by omega))
  · intro h
    refine ⟨helems, fun pre e hst hpre => ?_, fun pre e hst => ?_, hdir.trans last_part⟩
    · have hmem : 0 < (pieces name).length := by
        obtain ⟨qs, ps, hsplit, -, -⟩ := hst.parts
        exact length_pos_of_mem (mem_filter.2
          ⟨hsplit ▸ mem_append_right qs mem_cons_self, decide_eq_true hst.elem⟩)
      rw [hlost.get 0 hmem.le, if_pos ⟨dvd_zero 8, hmem⟩]
      rcases h with h | ⟨h, -⟩
      · rw [h] at hmem
        cases hmem
      · obtain ⟨post, hname, hskip⟩ := hst.skipslash hpre
        have hlen := congrArg length (hskip.symm.trans (h.trans hname))
        rw [length_append, length_append, length_append] at hlen
        exact congrArg some (by omega)
    · obtain ⟨qs, ps, hsplit, hspan, hfilter⟩ := hst.parts
      have hmark : (marks 0 (qs ++ e :: ps))[(qs.filter IsElem).length]? = _ := marks_get hst.elem
      rw [← hsplit, hfilter, hspan, Nat.zero_add] at hmark
      have hlt : (pieces pre).length < (pieces name).length := by
        rw [pieces, pieces, hsplit, filter_append, filter_elem hst.elem, hfilter, length_append,
          length_cons]
        exact Nat.lt_add_of_pos_right (Nat.succ_pos _)
      rw [hlost.get _ hlt, if_neg, getElem?_cons_succ, hmark]
      rcases h with h | ⟨-, h⟩
      · rw [h] at hlt
        cases hlt
      · rintro ⟨⟨c, hc⟩, hlt'⟩
        omega

/-- A rooted name has its offset lost. -/
theorem not_parsename : ¬ ∀ name, validpath name = true → Parsed name (parsename name) := by
  intro h
  have hparsed := (h [slash, 97] (by decide)).first [slash] [97] ⟨⟨[], rfl, .inl rfl⟩, .inr rfl, by decide, by decide⟩ rfl
  exact absurd hparsed (by decide)

end Node9.Names
