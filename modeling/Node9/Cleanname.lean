import Node9.Cleaned

/-!
# Cleaning a name in place (`cleanname.c`)

The scan has three pointers into the memory of the name: `p` reads, `q` writes behind it, and `dotdot` is where `q`
cannot go back any further. What it leaves is what `Names.cleanname` makes of the elements.
-/

namespace Node9.Cleanname
open Lexical Buf Names
open List hiding lex span

/-- The memory from `name` on, and the offsets of the pointers. -/
structure Scan where
  name : Bytes
  p : Nat
  q : Nat
  dotdot : Nat
  erasedprefix : Bool

def SEP (x : UInt8) : Prop := x = slash ∨ x = 0

instance : DecidablePred SEP := fun _ => inferInstanceAs (Decidable (_ ∨ _))

/-- `p[i]` -/
def Scan.look (s : Scan) (i : Nat) : UInt8 := s.name.getD (s.p + i) 0

/-- `*q++ = c` -/
def Scan.put (s : Scan) (c : UInt8) : Scan := { s with name := s.name.set s.q c, q := s.q + 1 }

/-- `while(--q > dotdot && *q != '/')` -/
def backtrack (name : Bytes) (dotdot : Nat) : Nat → Nat
  | 0 => 0
  | q + 1 => if dotdot < q ∧ name.getD q 0 ≠ slash then backtrack name dotdot q else q

/-- `while((*q = *p) != '/' && *q != 0)` -/
def copyElem : Nat → Scan → Scan
  | 0, s => s
  | k + 1, s =>
    let c := s.look 0
    let s := { s with name := s.name.set s.q c }
    if c ≠ slash ∧ c ≠ 0 then copyElem k { s with p := s.p + 1, q := s.q + 1 } else s

def Scan.step (rooted : Nat) (s : Scan) : Scan :=
  if s.look 0 = slash then { s with p := s.p + 1 }
  else if s.look 0 = dot ∧ SEP (s.look 1) then { s with erasedprefix := s.erasedprefix || s.p = 0, p := s.p + 1 }
  else if s.look 0 = dot ∧ s.look 1 = dot ∧ SEP (s.look 2) then
    let s := { s with p := s.p + 2 }
    let s :=
      if s.dotdot < s.q then { s with q := backtrack s.name s.dotdot s.q }
      else if rooted = 0 then
        let s := if s.q ≠ 0 then s.put slash else s
        let s := (s.put dot).put dot
        { s with dotdot := s.q }
      else s
    { s with erasedprefix := s.erasedprefix || s.q = 0 }
  else copyElem s.name.length (if s.q ≠ rooted then s.put slash else s)

def scan (rooted : Nat) : Nat → Scan → Option Scan
  | 0, _ => none
  | k + 1, s => if s.look 0 = 0 then some s else scan rooted k (s.step rooted)

def strlen (s : Bytes) : Nat := (s.takeWhile (· ≠ 0)).length

/-- There is nothing if the loop does not end. -/
def cleanname (name : Bytes) : Option Bytes :=
  let rooted := if name.getD 0 0 = slash then 1 else 0
  (scan rooted (name.length + 1) ⟨name, rooted, rooted, rooted, false⟩).map fun s =>
    let s := if s.q = 0 then s.put dot else s
    let name := s.name.set s.q 0
    if s.erasedprefix = true ∧ name.getD 0 0 = sharp then
      -- the string and its NUL move up by two
      [dot, slash] ++ name.take (strlen name + 1) ++ name.drop (strlen name + 3)
    else name

variable {s s' : Scan} {w : Cleaning} {rooted : Bool} {name t rest tail e : Bytes} {es ps : List Bytes} {c : UInt8}
  {k n a : Nat} {b : Bool}

/-! ### Reading and writing -/

theorem look_of_drop (h : s.name.drop s.p = t) (i : Nat) : s.look i = t.getD i 0 := by
  rw [← h, getD_eq_getElem?_getD, List.getElem?_drop, ← getD_eq_getElem?_getD]
  rfl

theorem lt_of_drop (h : s.name.drop s.p = c :: t) : s.p < s.name.length := by
  by_contra hle
  rw [drop_eq_nil_of_le (not_lt.1 hle)] at h
  cases h

theorem drop_succ (h : s.name.drop s.p = c :: t) : s.name.drop (s.p + 1) = t := by
  rw [← drop_drop, h]
  rfl

theorem take_put (hq : s.q < s.name.length) : (s.put c).name.take (s.q + 1) = s.name.take s.q ++ [c] := by
  rw [Scan.put, take_set, take_add_one, List.getElem?_eq_getElem hq, set_append_right _ _
    (length_take_of_le hq.le).le, length_take_of_le hq.le, tsub_self]
  rfl

theorem drop_put (hq : s.q < n) : (s.put c).name.drop n = s.name.drop n := drop_set_of_lt hq

theorem length_put : (s.put c).name.length = s.name.length := length_set

theorem copyElem_spec (hdrop : s.name.drop s.p = e ++ c :: t) (hs : slash ∉ e) (hz : 0 ∉ e) (hc : SEP c)
    (hle : s.q ≤ s.p)
    (hk : e.length < k) : ∃ m, copyElem k s = { s with name := m, p := s.p + e.length, q := s.q + e.length } ∧
      m.take (s.q + e.length) = s.name.take s.q ++ e ∧ m.drop (s.p + e.length) = c :: t ∧ m.length = s.name.length := by
  induction e generalizing k s with
  | nil =>
    obtain ⟨k, rfl⟩ : ∃ i, k = i + 1 := ⟨k - 1, by omega⟩
    have hlook : s.look 0 = c := look_of_drop hdrop 0
    have hstop : ¬ (c ≠ slash ∧ c ≠ 0) := fun h => hc.elim h.1 h.2
    refine ⟨s.name.set s.q c, ?_, ?_, ?_, length_set⟩
    · simp only [copyElem, hlook, if_neg hstop, length_nil, add_zero]
    · rw [length_nil, add_zero, append_nil, take_set_of_le le_rfl]
    rw [length_nil, add_zero]
    rcases Nat.lt_or_eq_of_le hle with hlt | heq
    · rw [drop_set_of_lt hlt, hdrop]
      rfl
    have hlt := lt_of_drop hdrop
    have hget : s.name[s.p] = c := by
      rw [drop_eq_getElem_cons hlt] at hdrop
      exact (List.cons.inj hdrop).1
    rw [heq, ← hget, set_getElem_self, hdrop, hget]
    rfl
  | cons x e ih =>
    obtain ⟨k, rfl⟩ : ∃ i, k = i + 1 := ⟨k - 1, by omega⟩
    have hlook : s.look 0 = x := look_of_drop hdrop 0
    have hgo : x ≠ slash ∧ x ≠ 0 :=
      ⟨fun h => hs (h ▸ mem_cons_self), fun h => hz (h ▸ mem_cons_self)⟩
    have hlt := lt_of_drop hdrop
    have htake : (s.put x).name.take (s.q + 1) = s.name.take s.q ++ [x] := take_put (by omega)
    have hdrop' : (s.put x).name.drop (s.p + 1) = e ++ c :: t := (drop_put (by omega)).trans (drop_succ hdrop)
    obtain ⟨m, hm, hmt, hmd, hml⟩ := ih (s := { s.put x with p := s.p + 1 }) (k := k) hdrop'
      (fun h => hs (mem_cons_of_mem x h)) (fun h => hz (mem_cons_of_mem x h))
      (Nat.succ_le_succ hle) (Nat.lt_of_succ_lt_succ hk)
    have hp : s.p + (x :: e).length = s.p + 1 + e.length := by rw [length_cons]; omega
    have hq : s.q + (x :: e).length = s.q + 1 + e.length := by rw [length_cons]; omega
    refine ⟨m, ?_, ?_, ?_, hml.trans length_put⟩
    · rw [hp, hq, copyElem]
      simp only [hlook]
      rw [if_pos hgo]
      exact hm
    · rw [hq]
      refine hmt.trans ?_
      rw [← singleton_append, ← append_assoc]
      exact congrArg (· ++ e) htake
    · rw [hp]
      exact hmd

theorem backtrack_spec (hn : 0 < n) (hd : name.getD a 0 = slash ∨ a = k) (hk : k ≤ a)
    (hne : ∀ i, 0 < i → i < n → name.getD (a + i) 0 ≠ slash) : backtrack name k (a + n) = a := by
  induction n with
  | zero => exact absurd hn (lt_irrefl 0)
  | succ n ih =>
    rw [← add_assoc, backtrack]
    by_cases hzero : n = 0
    · subst hzero
      exact if_neg fun h => hd.elim h.2 (Nat.ne_of_gt h.1)
    · have hpos := Nat.pos_of_ne_zero hzero
      rw [if_pos ⟨by omega, hne n hpos (Nat.lt_succ_self n)⟩]
      exact ih hpos fun i hi hin => hne i hi (Nat.lt_succ_of_lt hin)

/-- What has been written is the text of the elements that are kept; the reader has `rest` before it. -/
structure At (rooted : Bool) (s : Scan) (w : Cleaning) (rest : Bytes) : Prop where
  take : s.name.take s.q = text rooted w.elems
  q : s.q = (text rooted w.elems).length
  dotdot : s.dotdot = (text rooted (List.replicate w.ups [dot, dot])).length
  rest : s.name.drop s.p = rest
  erased : s.erasedprefix = w.erased
  le : s.q ≤ s.p

theorem text_concat (es : List Bytes) (e : Bytes) :
    text rooted (es ++ [e]) = text rooted es ++ ((if es = [] then [] else [slash]) ++ e) := by
  by_cases h : es = []
  · subst h
    rw [text, text, nil_append, glue_singleton, glue_nil, append_nil]
    rfl
  · rw [text, text, glue_append h (cons_ne_nil e []), glue_singleton, if_neg h, append_assoc]
    rfl

/-- `name+rooted` -/
def root (rooted : Bool) : Nat := if rooted then 1 else 0

theorem length_text_nil : (text rooted []).length = root rooted := by cases rooted <;> rfl

theorem length_text_pos (h : Elems rooted es) (hes : es ≠ []) : root rooted < (text rooted es).length := by
  obtain ⟨c, t, -, hg, -⟩ := head_glue h hes
  rw [text, hg]
  cases rooted
  · exact Nat.succ_pos _
  · exact Nat.succ_lt_succ (Nat.succ_pos _)

theorem At.q_eq_root (h : At rooted s w rest) (hok : w.Ok rooted) : s.q = root rooted ↔ w.elems = [] := by
  rw [h.q]
  constructor
  · intro hq
    by_contra hes
    exact absurd hq (Nat.ne_of_gt (length_text_pos hok.elems hes))
  · intro hes
    rw [hes, length_text_nil]

theorem At.q_eq_zero (h : At rooted s w rest) (hok : w.Ok rooted) : s.q = 0 ↔ rooted = false ∧ w.elems = [] := by
  rw [← h.q_eq_root hok]
  have hq := h.q
  cases rooted with
  | true =>
    have hpos : 0 < (text true w.elems).length := Nat.succ_pos _
    refine iff_of_false (by omega) fun hf => by cases hf.1
  | false => exact ⟨fun h0 => ⟨rfl, h0⟩, fun h0 => h0.2⟩

theorem length_text_le (es ds : List Bytes) : (text rooted es).length ≤ (text rooted (es ++ ds)).length := by
  induction ds using List.reverseRecOn with
  | nil => rw [append_nil]
  | append_singleton ds d ih =>
    rw [← append_assoc, text_concat, length_append]
    exact ih.trans (Nat.le_add_right _ _)

theorem At.dotdot_lt (h : At rooted s w rest) (hok : w.Ok rooted) : s.dotdot < s.q ↔ w.kept ≠ [] := by
  rw [h.q, h.dotdot]
  constructor
  · rintro hlt hk
    rw [Cleaning.elems, hk, append_nil] at hlt
    exact lt_irrefl _ hlt
  intro hk
  obtain ⟨l, x, hlx⟩ := (w.kept.eq_nil_or_concat).resolve_left hk
  rw [concat_eq_append] at hlx
  have hx := length_pos_iff.2 (hok.kept x (hlx ▸ mem_append_right l mem_cons_self)).ne_nil
  have hle : (text rooted (List.replicate w.ups [dot, dot])).length ≤ _ := length_text_le _ l
  rw [Cleaning.elems_concat hlx, text_concat, length_append, length_append]
  omega

theorem At.single (h : At rooted s w (dot :: c :: t)) (hc : SEP c) :
    At rooted (s.step (root rooted)) (cleanElem rooted (decide (s.p = 0)) w [dot]) (c :: t) ∧
      (s.step (root rooted)).p = s.p + 1 ∧ (s.step (root rooted)).name.length = s.name.length := by
  have hl₀ : s.look 0 = dot := look_of_drop h.rest 0
  have hl₁ : s.look 1 = c := look_of_drop h.rest 1
  have hne : dot ≠ slash := by decide
  have hstep : s.step (root rooted) = { s with erasedprefix := s.erasedprefix || s.p = 0, p := s.p + 1 } := by
    rw [Scan.step, hl₀, hl₁, if_neg hne, if_pos ⟨rfl, hc⟩]
  rw [hstep, cleanElem_dot]
  exact ⟨⟨h.take, h.q, h.dotdot, drop_succ h.rest, congrArg (· || decide (s.p = 0)) h.erased, Nat.le_succ_of_le h.le⟩,
    rfl, rfl⟩

theorem At.up (h : At rooted s w ([dot, dot] ++ c :: t)) (hok : w.Ok rooted) (hc : SEP c) (hk : w.kept ≠ []) :
    At rooted (s.step (root rooted)) (cleanElem rooted (decide (s.p = 0)) w [dot, dot]) (c :: t) ∧
      (s.step (root rooted)).p = s.p + 2 ∧ (s.step (root rooted)).name.length = s.name.length := by
  have hl₀ : s.look 0 = dot := look_of_drop h.rest 0
  have hl₁ : s.look 1 = dot := look_of_drop h.rest 1
  have hl₂ : s.look 2 = c := look_of_drop h.rest 2
  have hne : dot ≠ slash := by decide
  have hsep : ¬ SEP dot := by decide
  have hlt := (h.dotdot_lt hok).2 hk
  have hstep : s.step (root rooted) = { s with
      p := s.p + 2, q := backtrack s.name s.dotdot s.q, erasedprefix :=
        s.erasedprefix || backtrack s.name s.dotdot s.q = 0 } := by
    simp only [Scan.step, hl₀, hl₁, hl₂, if_neg hne, hsep, and_false, if_false, hc, and_true, if_true, if_pos hlt]
  obtain ⟨l, x, hlx⟩ := (w.kept.eq_nil_or_concat).resolve_left hk
  rw [concat_eq_append] at hlx
  have hx : Proper slash dot x := hok.kept x (hlx ▸ mem_append_right l mem_cons_self)
  have hxpos := length_pos_iff.2 hx.ne_nil
  set es := List.replicate w.ups [dot, dot] ++ l with hes
  have htext : text rooted w.elems = text rooted es ++ ((if es = [] then [] else [slash]) ++ x) := by
    rw [Cleaning.elems_concat hlx, text_concat]
  -- the last element, as it stands in the memory
  have hget : ∀ i, (text rooted es).length + i < s.q →
      s.name.getD ((text rooted es).length + i) 0 = ((if es = [] then [] else [slash]) ++ x).getD i 0 := by
    intro i hi
    have htake : (s.name.take s.q)[(text rooted es).length + i]? = s.name[(text rooted es).length + i]? :=
      List.getElem?_take_of_lt hi
    rw [getD_eq_getElem?_getD, ← htake, h.take, htext, List.getElem?_append_right (Nat.le_add_right _ _),
      Nat.add_sub_cancel_left, ← getD_eq_getElem?_getD]
  have hq : s.q = (text rooted es).length + ((if es = [] then [] else [slash]) ++ x).length := by
    rw [h.q, htext, length_append]
  have hdd : s.dotdot ≤ (text rooted es).length := by
    rw [h.dotdot]
    exact length_text_le _ _
  have hback : backtrack s.name s.dotdot s.q = (text rooted es).length := by
    have hnx : ∀ i, x.getD i 0 ≠ slash := fun i hi => by
      by_cases hilt : i < x.length
      · rw [getD_eq_getElem _ _ hilt] at hi
        exact hx.sep_not_mem (hi ▸ getElem_mem hilt)
      · rw [getD_eq_default _ _ (not_lt.1 hilt)] at hi
        exact absurd hi (by decide)
    rw [hq]
    refine backtrack_spec (by rw [length_append]; omega) ?_ hdd fun i hi hin => ?_
    · by_cases hnil : es = []
      · refine .inr ?_
        obtain ⟨hups, -⟩ := append_eq_nil_iff.1 hnil
        rw [h.dotdot, hups, hnil]
      · refine .inl ?_
        have h0 := hget 0 (by rw [hq, length_append]; omega)
        rw [add_zero, if_neg hnil] at h0
        exact h0
    · rw [hget i (by omega)]
      by_cases hnil : es = []
      · rw [if_pos hnil]
        exact hnx i
      · obtain ⟨j, rfl⟩ : ∃ j, i = j + 1 := ⟨i - 1, by omega⟩
        rw [if_neg hnil]
        exact hnx j
  have hzero : decide ((text rooted es).length = 0) = (!rooted && decide (w.ups = 0) && decide (l = [])) := by
    have hiff : (text rooted es).length = 0 ↔ rooted = false ∧ w.ups = 0 ∧ l = [] := by
      rw [length_eq_zero_iff, text, append_eq_nil_iff]
      constructor
      · rintro ⟨hr, hg⟩
        have hrf : rooted = false := by
          cases rooted
          · rfl
          · cases hr
        have hnil : es = [] := by
          by_contra hne
          have hsplit : (glue slash es).splitOn slash = es := splitOn_glue hne fun e he =>
            hok.sep_not_mem (Cleaning.elems_concat hlx ▸ mem_append_left _ he)
          rw [hg] at hsplit
          have hmem : [] ∈ es := hsplit ▸ mem_cons_self
          exact hok.ne_nil (Cleaning.elems_concat hlx ▸ mem_append_left _ hmem) rfl
        obtain ⟨hups, hl⟩ := append_eq_nil_iff.1 hnil
        exact ⟨hrf, (replicate_eq_nil_iff _).1 hups, hl⟩
      · rintro ⟨rfl, hups, hl⟩
        rw [hes, hups, hl]
        exact ⟨rfl, rfl⟩
    cases rooted <;> simp [hiff]
  rw [hstep, hback, cleanElem_up hlx]
  refine ⟨⟨?_, rfl, h.dotdot, ?_, ?_, ?_⟩, rfl, rfl⟩
  · have htake := h.take
    have hmin : (text rooted es).length ≤ s.q := by rw [hq]; exact Nat.le_add_right _ _
    have := congrArg (List.take (text rooted es).length) htake
    rw [take_take, min_eq_left hmin, htext, take_left] at this
    exact this
  · rw [← drop_drop, h.rest]
    rfl
  · rw [h.erased, hzero]
  · have hle := h.le
    dsimp only
    omega

/-- `u` has been written and `rest` is still to be read. -/
structure Written (s : Scan) (u rest : Bytes) : Prop where
  take : s.name.take s.q = u
  q : s.q = u.length
  rest : s.name.drop s.p = rest
  le : s.q ≤ s.p

theorem At.written (h : At rooted s w rest) : Written s (text rooted w.elems) rest := ⟨h.take, h.q, h.rest, h.le⟩

theorem Written.put {u : Bytes} (h : Written s u (c :: t)) (hlt : s.q < s.p) (x : UInt8) :
    Written (s.put x) (u ++ [x]) (c :: t) := by
  have hp := lt_of_drop h.rest
  refine ⟨?_, ?_, (drop_put hlt).trans h.rest, hlt⟩
  · rw [← h.take]
    exact take_put (by omega)
  · rw [length_append, ← h.q]
    rfl

theorem At.between (h : At rooted s w (c :: t)) (hok : w.Ok rooted) (hroom : w.elems = [] ∨ s.q < s.p) :
    Written (if s.q ≠ root rooted then s.put slash else s)
      (text rooted w.elems ++ if w.elems = [] then [] else [slash]) (c :: t) := by
  by_cases hes : w.elems = []
  · rw [if_neg (not_not.2 ((h.q_eq_root hok).2 hes)), if_pos hes, append_nil]
    exact h.written
  · rw [if_pos (mt (h.q_eq_root hok).1 hes), if_neg hes]
    exact h.written.put (hroom.resolve_left hes) slash

theorem At.top (h : At rooted s w ([dot, dot] ++ c :: t)) (hok : w.Ok rooted) (hc : SEP c) (hk : w.kept = [])
    (hroom : w.elems = [] ∨ s.q < s.p) :
    At rooted (s.step (root rooted)) (cleanElem rooted (decide (s.p = 0)) w [dot, dot]) (c :: t) ∧
      (s.step (root rooted)).p = s.p + 2 ∧ (s.step (root rooted)).name.length = s.name.length := by
  have hl₀ : s.look 0 = dot := look_of_drop h.rest 0
  have hl₁ : s.look 1 = dot := look_of_drop h.rest 1
  have hl₂ : s.look 2 = c := look_of_drop h.rest 2
  have hne : dot ≠ slash := by decide
  have hsep : ¬ SEP dot := by decide
  have hlt : ¬ s.dotdot < s.q := fun hlt => (h.dotdot_lt hok).1 hlt hk
  have hdrop : s.name.drop (s.p + 2) = c :: t := by
    rw [← drop_drop, h.rest]
    rfl
  have hle := h.le
  rw [cleanElem_top hk]
  cases rooted with
  | true =>
    have hq : s.q ≠ 0 := fun hq => by cases ((h.q_eq_zero hok).1 hq).1
    have hstep : s.step (root true) = { s with p := s.p + 2 } := by
      simp only [Scan.step, hl₀, hl₁, hl₂, if_neg hne, hsep, and_false, if_false, hc, and_true, if_true, if_neg hlt,
        root,
        Nat.one_ne_zero, hq, decide_false, Bool.or_false]
    rw [hstep, if_pos rfl]
    exact ⟨⟨h.take, h.q, h.dotdot, hdrop, h.erased, Nat.le_add_right_of_le hle⟩, rfl, rfl⟩
  | false =>
    have hzero : root false = 0 := rfl
    have hat : At false { s with p := s.p + 2 } w (c :: t) :=
      ⟨h.take, h.q, h.dotdot, hdrop, h.erased, Nat.le_add_right_of_le hle⟩
    have hbetween := hat.between hok (.inr (by dsimp only; omega))
    rw [hzero] at hbetween
    generalize hs₁ : (if ({ s with p := s.p + 2 } : Scan).q ≠ 0 then ({ s with p := s.p + 2 } : Scan).put slash
      else { s with p := s.p + 2 }) = s₁ at hbetween
    have hs₁p : s₁.p = s.p + 2 ∧ s₁.q + 2 ≤ s₁.p ∧ s₁.erasedprefix = s.erasedprefix ∧
      s₁.name.length = s.name.length := by
      subst hs₁
      by_cases hq : s.q = 0
      · rw [if_neg (not_not.2 hq)]
        exact ⟨rfl, by dsimp only; omega, rfl, rfl⟩
      · have hes : w.elems ≠ [] := fun hes => hq ((h.q_eq_zero hok).2 ⟨rfl, hes⟩)
        have hlt := hroom.resolve_left hes
        rw [if_pos (show ({ s with p := s.p + 2 } : Scan).q ≠ 0 from hq)]
        exact ⟨rfl, by dsimp only [Scan.put]; omega, rfl, length_put⟩
    have h₂ := hbetween.put (by omega) dot
    have h₃ := h₂.put (by dsimp only [Scan.put]; omega) dot
    have hq₃ : ((s₁.put dot).put dot).q ≠ 0 := Nat.succ_ne_zero _
    have hstep : s.step (root false) = { (s₁.put dot).put dot with dotdot := ((s₁.put dot).put dot).q } := by
      simp only [Scan.step, hl₀, hl₁, hl₂, if_neg hne, hsep, and_false, if_false, hc, and_true, if_true, if_neg hlt,
        hzero,
        hs₁, hq₃, decide_false, Bool.or_false]
    have hw : Cleaning.elems { w with ups := w.ups + 1 } = w.elems ++ [[dot, dot]] := by
      rw [Cleaning.elems, Cleaning.elems, hk, append_nil, append_nil, replicate_succ']
    have htext : text false w.elems ++ (if w.elems = [] then [] else [slash]) ++ [dot] ++ [dot] =
        text false (Cleaning.elems { w with ups := w.ups + 1 }) := by
      rw [hw, text_concat, append_assoc, append_assoc]
      rfl
    rw [htext] at h₃
    have hups : Cleaning.elems { w with ups := w.ups + 1 } = List.replicate (w.ups + 1) [dot, dot] := by
      rw [Cleaning.elems, hk, append_nil]
    rw [hstep, if_neg Bool.false_ne_true]
    refine ⟨⟨h₃.take, h₃.q, h₃.q.trans (congrArg (fun es => (text false es).length) hups), h₃.rest,
      hs₁p.2.2.1.trans h.erased, h₃.le⟩, hs₁p.1, ?_⟩
    exact (length_put.trans length_put).trans hs₁p.2.2.2

theorem At.proper (h : At rooted s w (e ++ c :: t)) (hok : w.Ok rooted) (hc : SEP c) (he : Proper slash dot e)
    (hz : 0 ∉ e)
    (hroom : w.elems = [] ∨ s.q < s.p) :
    At rooted (s.step (root rooted)) (cleanElem rooted (decide (s.p = 0)) w e) (c :: t) ∧
      (s.step (root rooted)).p = s.p + e.length ∧ (s.step (root rooted)).name.length = s.name.length := by
  obtain ⟨x, e', rfl⟩ := exists_cons_of_ne_nil he.ne_nil
  have hl₀ : s.look 0 = x := look_of_drop h.rest 0
  have hx : x ≠ slash := fun hx => he.sep_not_mem (hx ▸ mem_cons_self)
  have hmem : ∀ y ∈ x :: e', ¬ SEP y := fun y hy hsep =>
    hsep.elim (fun heq => he.sep_not_mem (heq ▸ hy)) fun heq => hz (heq ▸ hy)
  have hnot₁ : ¬ (x = dot ∧ SEP (s.look 1)) := by
    rintro ⟨rfl, hsep⟩
    cases e' with
    | nil => exact he.ne_dot rfl
    | cons y e' =>
      have hl₁ : s.look 1 = y := look_of_drop h.rest 1
      rw [hl₁] at hsep
      exact hmem y (mem_cons_of_mem _ mem_cons_self) hsep
  have hnot₂ : ¬ (x = dot ∧ s.look 1 = dot ∧ SEP (s.look 2)) := by
    rintro ⟨rfl, hdot, hsep⟩
    cases e' with
    | nil =>
      have hl₁ : s.look 1 = c := look_of_drop h.rest 1
      exact he.ne_dot rfl
    | cons y e' =>
      have hl₁ : s.look 1 = y := look_of_drop h.rest 1
      obtain rfl : y = dot := hl₁.symm.trans hdot
      cases e' with
      | nil => exact he.ne_dotdot rfl
      | cons z e' =>
        have hl₂ : s.look 2 = z := look_of_drop h.rest 2
        rw [hl₂] at hsep
        exact hmem z (mem_cons_of_mem _ (mem_cons_of_mem _ mem_cons_self)) hsep
  have hbetween := h.between hok hroom
  generalize hs₁ : (if s.q ≠ root rooted then s.put slash else s) = s₁ at hbetween
  have hstep : s.step (root rooted) = copyElem s.name.length s₁ := by
    rw [Scan.step, hl₀, if_neg hx, if_neg hnot₁, if_neg hnot₂, hs₁]
  have hsame : s₁.p = s.p ∧ s₁.dotdot = s.dotdot ∧ s₁.erasedprefix = s.erasedprefix ∧
    s₁.name.length = s.name.length := by
    subst hs₁
    split
    · exact ⟨rfl, rfl, rfl, length_put⟩
    · exact ⟨rfl, rfl, rfl, rfl⟩
  have hlen : (x :: e').length < s.name.length := by
    have hdrop := congrArg List.length h.rest
    rw [length_drop, length_append, length_cons (a := c)] at hdrop
    omega
  obtain ⟨m, hm, hmt, hmd, hml⟩ := copyElem_spec hbetween.rest he.sep_not_mem hz hc hbetween.le hlen
  have hw : Cleaning.elems { w with kept := w.kept ++ [x :: e'] } = w.elems ++ [x :: e'] := Cleaning.elems_concat rfl
  have htext : text rooted w.elems ++ (if w.elems = [] then [] else [slash]) ++ (x :: e') =
      text rooted (Cleaning.elems { w with kept := w.kept ++ [x :: e'] }) := by
    rw [hw, text_concat, append_assoc]
  rw [hstep, hm, cleanElem_proper he]
  refine ⟨⟨?_, ?_, hsame.2.1.trans h.dotdot, hmd, hsame.2.2.1.trans h.erased, Nat.add_le_add_right hbetween.le _⟩, ?_,
    hml.trans hsame.2.2.2⟩
  · rw [← htext, ← hbetween.take]
    exact hmt
  · rw [← htext, length_append, ← hbetween.q]
  · exact congrArg (· + (x :: e').length) hsame.1

theorem At.elem (h : At rooted s w (e ++ c :: t)) (hok : w.Ok rooted) (hc : SEP c) (hs : slash ∉ e) (hz : 0 ∉ e)
    (hne : e ≠ []) (hroom : w.elems = [] ∨ s.q < s.p) :
    At rooted (s.step (root rooted)) (cleanElem rooted (decide (s.p = 0)) w e) (c :: t) ∧
      (s.step (root rooted)).p = s.p + e.length ∧ (s.step (root rooted)).name.length = s.name.length := by
  rcases elem_cases hs with rfl | rfl | rfl | he
  · exact absurd rfl hne
  · exact h.single hc
  · by_cases hk : w.kept = []
    · exact h.top hok hc hk hroom
    · exact h.up hok hc hk
  · exact h.proper hok hc he hz hroom

theorem At.slash (h : At rooted s w (slash :: t)) : At rooted (s.step (root rooted)) w t ∧
    (s.step (root rooted)).p = s.p + 1 ∧ (s.step (root rooted)).q < (s.step (root rooted)).p ∧
      (s.step (root rooted)).name.length = s.name.length := by
  have hl₀ : s.look 0 = Names.slash := look_of_drop h.rest 0
  have hstep : s.step (root rooted) = { s with p := s.p + 1 } := by rw [Scan.step, if_pos hl₀]
  rw [hstep]
  exact ⟨⟨h.take, h.q, h.dotdot, drop_succ h.rest, h.erased, Nat.le_succ_of_le h.le⟩, rfl, Nat.lt_succ_of_le h.le, rfl⟩

theorem scan_spec (hps : ps ≠ []) (hs : ∀ p ∈ ps, slash ∉ p) (hz : ∀ p ∈ ps, 0 ∉ p) (hok : w.Ok rooted)
    (h : At rooted s w (glue slash ps ++ 0 :: tail)) (hroom : w.elems = [] ∨ s.q < s.p)
    (hk : (glue slash ps).length < k) : ∃ s', scan (root rooted) k s = some s' ∧
      At rooted s' (cleanElems rooted (decide (s.p = 0)) w ps) (0 :: tail) ∧ s'.p = s.p + (glue slash ps).length ∧
      s'.name.length = s.name.length := by
  have hnul : SEP 0 := .inr rfl
  have hstop : ∀ {s : Scan} {w : Cleaning} {k : Nat}, At rooted s w (0 :: tail) → 0 < k →
      scan (root rooted) k s = some s := by
    intro s w k h hk
    obtain ⟨k, rfl⟩ : ∃ i, k = i + 1 := ⟨k - 1, by omega⟩
    exact if_pos (look_of_drop h.rest 0)
  have hgo : ∀ {s : Scan} {x : UInt8} {t : Bytes} {k : Nat}, s.name.drop s.p = x :: t → x ≠ 0 →
      scan (root rooted) (k + 1) s = scan (root rooted) k (s.step (root rooted)) := by
    intro s x t k h hx
    have hl : s.look 0 = x := look_of_drop h 0
    exact if_neg (hl ▸ hx)
  induction ps generalizing s w k with
  | nil => exact absurd rfl hps
  | cons e ps ih =>
    have hse := hs e mem_cons_self
    have hze := hz e mem_cons_self
    by_cases hnil : ps = []
    · subst hnil
      rw [glue_singleton] at h hk ⊢
      by_cases he : e = []
      · subst he
        refine ⟨s, hstop h (by omega), ?_, rfl, rfl⟩
        rw [cleanElems, cleanElem_nil]
        exact h
      · obtain ⟨x, e', rfl⟩ := exists_cons_of_ne_nil he
        obtain ⟨k, rfl⟩ : ∃ i, k = i + 1 := ⟨k - 1, by omega⟩
        obtain ⟨hat, hp, hlen⟩ := h.elem hok hnul hse hze he hroom
        rw [length_cons] at hk
        exact ⟨_, (hgo h.rest fun hx => hze (hx ▸ mem_cons_self)).trans (hstop hat (by omega)), hat, hp, hlen⟩
    rw [glue_cons hnil] at h hk ⊢
    rw [append_assoc, cons_append] at h
    rw [length_append, length_cons] at hk ⊢
    have hsps : ∀ p ∈ ps, Names.slash ∉ p := fun p hp => hs p (mem_cons_of_mem e hp)
    have hzps : ∀ p ∈ ps, 0 ∉ p := fun p hp => hz p (mem_cons_of_mem e hp)
    have hslash : Names.slash ≠ 0 := by decide
    have hlater : ∀ {s' : Scan} {w' : Cleaning} {k : Nat},
      At rooted s' w' (Names.slash :: (glue Names.slash ps ++ 0 :: tail)) →
        w'.Ok rooted → (glue Names.slash ps).length + 1 < k → ∃ s'', scan (root rooted) k s' = some s'' ∧
          At rooted s'' (cleanElems rooted false w' ps) (0 :: tail) ∧
            s''.p = s'.p + (1 + (glue Names.slash ps).length) ∧
          s''.name.length = s'.name.length := by
      intro s' w' k h' hok' hk'
      obtain ⟨k, rfl⟩ : ∃ i, k = i + 1 := ⟨k - 1, by omega⟩
      obtain ⟨hat, hp, hlt, hlen⟩ := h'.slash
      obtain ⟨s'', hscan, hat'', hp'', hlen''⟩ := ih hnil hsps hzps hok' hat (.inr hlt) (Nat.lt_of_succ_lt_succ hk')
      have hfirst : decide ((s'.step (root rooted)).p = 0) = false := by
        rw [hp]
        rfl
      rw [hfirst] at hat''
      refine ⟨s'', (hgo h'.rest hslash).trans hscan, hat'', ?_, hlen''.trans hlen⟩
      rw [hp'', hp, add_assoc]
    by_cases he : e = []
    · subst he
      rw [length_nil, zero_add] at hk ⊢
      rw [cleanElems, cleanElem_nil]
      obtain ⟨s'', hscan, hat'', hp'', hlen''⟩ := hlater h hok hk
      exact ⟨s'', hscan, hat'', by omega, hlen''⟩
    obtain ⟨x, e', rfl⟩ := exists_cons_of_ne_nil he
    obtain ⟨k, rfl⟩ : ∃ i, k = i + 1 := ⟨k - 1, by omega⟩
    obtain ⟨hat, hp, hlen⟩ := h.elem hok (.inl rfl) hse hze he hroom
    have hk' : (glue Names.slash ps).length + 1 < k := by
      rw [length_cons] at hk
      omega
    obtain ⟨s'', hscan, hat'', hp'', hlen''⟩ := hlater hat (hok.step hse) hk'
    refine ⟨s'', (hgo h.rest fun hx => hze (hx ▸ mem_cons_self)).trans hscan, hat'', ?_, hlen''.trans hlen⟩
    rw [hp'', hp]
    omega

theorem mem_elems_step (hs : slash ∉ e) {x : Bytes} (hx : x ∈ (cleanElem rooted b w e).elems) :
    x = [dot, dot] ∨ x ∈ w.kept ∨ x = e := by
  have hold : x ∈ w.elems → x = [dot, dot] ∨ x ∈ w.kept ∨ x = e := fun hx =>
    (mem_append.1 hx).imp eq_of_mem_replicate .inl
  rcases elem_cases hs with rfl | rfl | rfl | he
  · rw [cleanElem_nil] at hx
    exact hold hx
  · rw [cleanElem_dot] at hx
    exact hold hx
  · rcases w.kept.eq_nil_or_concat with hk | ⟨l, y, hk⟩
    · rw [cleanElem_top hk] at hx
      split at hx
      · exact hold hx
      · exact .inl ((mem_append.1 hx).elim eq_of_mem_replicate fun hx => by rw [hk] at hx; cases hx)
    · rw [concat_eq_append] at hk
      rw [cleanElem_up hk] at hx
      exact (mem_append.1 hx).imp eq_of_mem_replicate fun hx => .inl (hk ▸ mem_append_left _ hx)
  · rw [cleanElem_proper he, Cleaning.elems_concat rfl] at hx
    rcases mem_append.1 hx with hx | hx
    · exact hold hx
    · exact .inr (.inr (mem_singleton.1 hx))

theorem nul_not_mem_run (hs : ∀ e ∈ ps, slash ∉ e) (hz : ∀ e ∈ ps, 0 ∉ e) (hw : ∀ x ∈ w.elems, 0 ∉ x) :
    ∀ x ∈ (cleanElems rooted b w ps).elems, 0 ∉ x := by
  induction ps generalizing b w with
  | nil => exact hw
  | cons e ps ih =>
    refine ih (fun e' he' => hs e' (mem_cons_of_mem e he')) (fun e' he' => hz e' (mem_cons_of_mem e he')) ?_
    intro x hx
    rcases mem_elems_step (hs e mem_cons_self) hx with rfl | hx | rfl
    · decide
    · exact hw x (mem_append_right _ hx)
    · exact hz x mem_cons_self

theorem nul_not_mem_glue (h : ∀ x ∈ es, 0 ∉ x) : 0 ∉ glue slash es := by
  induction es with
  | nil => exact not_mem_nil
  | cons e es ih =>
    have he := h e mem_cons_self
    by_cases hnil : es = []
    · subst hnil
      rwa [glue_singleton]
    · rw [glue_cons hnil, mem_append, mem_cons]
      have hne : (0 : UInt8) ≠ slash := by decide
      exact fun hmem => hmem.elim he fun hmem => hmem.elim hne (ih fun x hx => h x (mem_cons_of_mem e hx))

section
variable (h : 0 ∉ name)
include h

theorem nul_not_mem_parts : ∀ p ∈ (path name).splitOn slash, 0 ∉ p := by
  have hpath : 0 ∉ path name := by
    unfold path
    split
    · exact fun hmem => h (mem_of_mem_tail hmem)
    · exact h
  intro p hp hmem
  refine hpath ?_
  rw [← glue_splitOn (path name)]
  obtain ⟨ps, qs, hsplit⟩ := append_of_mem hp
  rw [hsplit]
  have hin : 0 ∈ glue slash (p :: qs) := by
    by_cases hqs : qs = []
    · subst hqs
      rwa [glue_singleton]
    · rw [glue_cons hqs]
      exact mem_append_left _ hmem
  by_cases hps : ps = []
  · subst hps
    exact hin
  · rw [glue_append hps (cons_ne_nil p qs)]
    exact mem_append_right _ (mem_cons_of_mem _ hin)

theorem nul_not_mem_text : 0 ∉ orDot (text (isRooted name) (cleaned name).elems) := by
  have hne : (0 : UInt8) ≠ slash := by decide
  have helems : ∀ x ∈ (cleaned name).elems, 0 ∉ x :=
    nul_not_mem_run (fun _ => not_mem_of_mem_splitOn) (nul_not_mem_parts h) fun x hx => absurd hx not_mem_nil
  have hglue := nul_not_mem_glue helems
  have htext : 0 ∉ text (isRooted name) (cleaned name).elems := by
    rw [text, mem_append]
    refine fun hmem => hmem.elim (fun hmem => ?_) hglue
    split at hmem
    · exact hne (mem_singleton.1 hmem)
    · cases hmem
  unfold orDot
  split
  · decide
  · exact htext

theorem nul_not_mem_cleanname : 0 ∉ Names.cleanname name := by
  have htext := nul_not_mem_text h
  rw [cleanname_eq]
  rcases guarded_cases (cleaned name).erased (orDot (text (isRooted name) (cleaned name).elems))
    with ⟨heq, -⟩ | ⟨-, -, heq⟩
  · rwa [heq]
  · rw [heq, mem_append]
    exact fun hmem => hmem.elim (by decide) htext

theorem strlen_append : strlen (name ++ 0 :: tail) = name.length := by
  have hall : ∀ c ∈ name, decide (c ≠ 0) = true := fun c hc => decide_eq_true fun hc' => h (hc' ▸ hc)
  rw [strlen, takeWhile_append_of_pos hall]
  simp

theorem scan_start : ∃ s, scan (root (isRooted name)) ((name ++ 0 :: tail).length + 1)
    ⟨name ++ 0 :: tail, root (isRooted name), root (isRooted name), root (isRooted name), false⟩ = some s ∧
    At (isRooted name) s (cleaned name) (0 :: tail) ∧ s.p = name.length ∧ s.name.length =
    (name ++ 0 :: tail).length := by
  have hglue : glue slash ((path name).splitOn slash) = path name := glue_splitOn (path name)
  have hlen := length_path name
  have hroot : root (isRooted name) + (path name).length = name.length := hlen
  have hstart : At (isRooted name) ⟨name ++ 0 :: tail, root (isRooted name), root (isRooted name),
    root (isRooted name), false⟩
      ⟨0, [], false⟩ (glue slash ((path name).splitOn slash) ++ 0 :: tail) := by
    rw [hglue]
    cases hr : isRooted name with
    | true =>
      obtain ⟨t, rfl⟩ : ∃ t, name = slash :: t := ⟨path name, eq_cons_of_isRooted hr⟩
      exact ⟨rfl, rfl, rfl, rfl, rfl, le_rfl⟩
    | false =>
      rw [path_of_not hr]
      exact ⟨rfl, rfl, rfl, rfl, rfl, le_rfl⟩
  obtain ⟨s, hscan, hat, hp, hl⟩ := scan_spec (splitOn_ne_nil slash (path name)) (fun _ => not_mem_of_mem_splitOn)
    (nul_not_mem_parts h) Cleaning.Ok.start hstart (.inl rfl)
    (show (glue slash ((path name).splitOn slash)).length < (name ++ 0 :: tail).length + 1 by
      rw [hglue, length_append]
      omega)
  have hfirst : decide (root (isRooted name) = 0) = !isRooted name := by cases isRooted name <;> rfl
  dsimp only at hat hp hl
  rw [hfirst] at hat
  rw [hglue, hroot] at hp
  exact ⟨s, hscan, hat, hp, hl⟩

end

theorem root_eq (name tail : Bytes) : (if (name ++ 0 :: tail).getD 0 0 = slash then 1 else 0) =
    root (isRooted name) := by
  cases name with
  | nil => rfl
  | cons c name =>
    rw [root, isRooted]
    simp

theorem finish_spec (hat : At (isRooted name) s (cleaned name) (0 :: tail)) (htwo : 1 < s.name.length) :
    ∃ u, ((if s.q = 0 then s.put dot else s).name.set (if s.q = 0 then s.put dot else s).q 0) =
        orDot (text (isRooted name) (cleaned name).elems) ++ 0 :: u ∧
      (orDot (text (isRooted name) (cleaned name).elems) ++ 0 :: u).length = s.name.length := by
  have hok := cleaned_ok name
  have hp := lt_of_drop hat.rest
  have hle := hat.le
  by_cases hq : s.q = 0
  · obtain ⟨hroot, hes⟩ := (hat.q_eq_zero hok).1 hq
    rw [if_pos hq, hroot, hes]
    obtain ⟨x, m, hm⟩ := exists_cons_of_length_pos (Nat.lt_of_succ_lt htwo)
    rw [hm] at htwo
    obtain ⟨y, u, rfl⟩ := exists_cons_of_length_pos (Nat.lt_of_succ_lt_succ htwo)
    refine ⟨u, ?_, ?_⟩
    · rw [Scan.put, hm, hq]
      rfl
    · rw [hm]
      rfl
  · have htext : orDot (text (isRooted name) (cleaned name).elems) = text (isRooted name) (cleaned name).elems := by
      rw [orDot, if_neg]
      intro hnil
      rw [hat.q, hnil] at hq
      exact hq rfl
    have hset : s.name.set s.q 0 = text (isRooted name) (cleaned name).elems ++ 0 :: s.name.drop (s.q + 1) := by
      rw [set_eq_take_append_cons_drop, if_pos (by omega), hat.take]
    rw [if_neg hq, htext]
    exact ⟨_, hset, by rw [← hset, length_set]⟩

theorem getD_eq_sharp {q : Bytes} (u : Bytes) : (q ++ 0 :: u).getD 0 0 = sharp ↔ q.head? = some sharp := by
  cases q with
  | nil =>
    have hne : (0 : UInt8) ≠ sharp := by decide
    exact iff_of_false hne (by decide)
  | cons c q => exact ⟨congrArg some, Option.some.inj⟩

/-- The loop ends, and what is in the memory then is the clean name. Only the empty name needs a byte behind its NUL. -/
theorem cleanname_spec (h : 0 ∉ name) (hroom : name = [] → tail ≠ []) :
    ∃ tail', cleanname (name ++ 0 :: tail) = some (Names.cleanname name ++ 0 :: tail') ∧
      (Names.cleanname name ++ 0 :: tail').length = (name ++ 0 :: tail).length := by
  obtain ⟨s, hscan, hat, hp, hlen⟩ := @scan_start name tail h
  have hlentail : (name ++ 0 :: tail).length = name.length + (tail.length + 1) := length_append
  have htwo : 1 < s.name.length := by
    by_cases hname : name = []
    · have htail := length_pos_iff.2 (hroom hname)
      omega
    · have hpos := length_pos_iff.2 hname
      omega
  obtain ⟨u, hset, hlenu⟩ := finish_spec hat htwo
  have hnul := nul_not_mem_text h
  have hguard := guarded_cases (cleaned name).erased (orDot (text (isRooted name) (cleaned name).elems))
  have hshort := length_erased name
  rw [← cleanname_eq] at hguard
  have hrun : cleanname (name ++ 0 :: tail) =
      some (if (cleaned name).erased = true ∧
          ((if s.q = 0 then s.put dot else s).name.set (if s.q = 0 then s.put dot else s).q 0).getD 0 0 = sharp then
        [dot, slash] ++ ((if s.q = 0 then s.put dot else s).name.set (if s.q = 0 then s.put dot else s).q 0).take
          (strlen ((if s.q = 0 then s.put dot else s).name.set (if s.q = 0 then s.put dot else s).q 0) + 1) ++
            ((if s.q = 0 then s.put dot else s).name.set (if s.q = 0 then s.put dot else s).q 0).drop
          (strlen ((if s.q = 0 then s.put dot else s).name.set (if s.q = 0 then s.put dot else s).q 0) + 3)
      else ((if s.q = 0 then s.put dot else s).name.set (if s.q = 0 then s.put dot else s).q 0)) := by
    have herased : Scan.erasedprefix (if s.q = 0 then s.put dot else s) = (cleaned name).erased := by
      rw [← hat.erased]
      split <;> rfl
    rw [cleanname]
    simp only [root_eq, hscan, Option.map_some, herased]
  rw [hset] at hrun
  generalize hT : orDot (text (isRooted name) (cleaned name).elems) = T at hrun hlenu hguard hnul hshort
  rw [strlen_append hnul] at hrun
  rcases hguard with ⟨heq, hne⟩ | ⟨her, hsharp, heq⟩
  · rw [if_neg fun h => hne h.1 ((getD_eq_sharp u).1 h.2)] at hrun
    exact ⟨u, by rw [hrun, heq], by rw [heq, hlenu, hlen]⟩
  rw [if_pos ⟨her, (getD_eq_sharp u).2 hsharp⟩] at hrun
  have hes : (cleaned name).elems ≠ [] := by
    intro hes
    rw [hes] at hT
    rw [← hT] at hsharp
    have hno : ∀ r, (orDot (text r [])).head? ≠ some sharp := by decide
    exact hno _ hsharp
  have hroom' := hshort hes
  rw [her, if_pos rfl] at hroom'
  have htake : (T ++ 0 :: u).take (T.length + 1) = T ++ [0] := by
    rw [← singleton_append, ← append_assoc]
    exact take_left' (length_append ..)
  have hdrop : (T ++ 0 :: u).drop (T.length + 3) = u.drop 2 := by
    rw [← drop_drop, drop_left]
    rfl
  have hlenT : (T ++ 0 :: u).length = T.length + (u.length + 1) := length_append
  refine ⟨u.drop 2, ?_, ?_⟩
  · rw [hrun, htake, hdrop, heq]
    simp
  · have htwo : [dot, slash].length = 2 := rfl
    have hcons : (0 :: u.drop 2).length = u.length - 2 + 1 := congrArg (· + 1) (length_drop ..)
    rw [heq, length_append, length_append, hcons]
    omega

end Node9.Cleanname
