import Node9.Names

/-!
# Clean names

What `cleanname` makes of a name, in terms of its elements: the `..` that could not be taken back, and the elements
after them. The result means what the name does, is not longer, and is clean already.
-/

namespace Node9.Names
open Lexical Buf
open List hiding span

def isRooted (s : Bytes) : Bool := s.head? = some slash

/-- The name without the slash at its start. -/
def path (s : Bytes) : Bytes := if isRooted s then s.tail else s

namespace Cleaning

def elems (w : Cleaning) : List Bytes := List.replicate w.ups [dot, dot] ++ w.kept

structure Ok (rooted : Bool) (w : Cleaning) : Prop where
  kept : ∀ e ∈ w.kept, Proper slash dot e
  ups : rooted = true → w.ups = 0

end Cleaning

def text (rooted : Bool) (es : List Bytes) : Bytes := (if rooted then [slash] else []) ++ glue slash es

def orDot (q : Bytes) : Bytes := if q = [] then [dot] else q

/-- A name that was not one of a device is not made one. -/
def guarded (erased : Bool) (q : Bytes) : Bytes := if erased && q.head? = some sharp then [dot, slash] ++ q else q

def cleaned (s : Bytes) : Cleaning := cleanElems (isRooted s) (!isRooted s) ⟨0, [], false⟩ ((path s).splitOn slash)

/-- The elements of a name; `/` has none. -/
def elements (t : Bytes) : List Bytes := if t = [slash] then [] else (path t).splitOn slash

/-- No empty element and no `.`, and `..` only in front of a name that is not rooted. -/
structure Canonical (t : Bytes) : Prop where
  elem : ∀ e ∈ elements t, e ≠ [] ∧ e ≠ [dot]
  ups : ∃ n es, elements t = List.replicate n [dot, dot] ++ es ∧ [dot, dot] ∉ es
  rooted : isRooted t = true → [dot, dot] ∉ elements t

/-- Canonical, but for a `./` before `#`. -/
def Clean (t : Bytes) : Prop := Canonical t ∨ ∃ u, t = [dot, slash] ++ u ∧ u.head? = some sharp ∧ Canonical u

/-- Where a name leads from the directory `cwd`, if no element is looked at. -/
def denote (cwd : List Bytes) (s : Bytes) : List Bytes :=
  (s.splitOn slash).foldl (resolveStep dot) (if isRooted s then [] else cwd)

variable {s t e : Bytes} {w : Cleaning} {rooted first : Bool} {es cwd : List Bytes}

theorem cleanname_eq (s : Bytes) :
    cleanname s = guarded (cleaned s).erased (orDot (text (isRooted s) (cleaned s).elems)) := by
  unfold cleanname guarded orDot text cleaned path isRooted
  by_cases h : s.head? = some slash <;> simp [h] <;> rfl

theorem Cleaning.elems_concat {l : List Bytes} {x : Bytes} (hk : w.kept = l ++ [x]) :
    w.elems = List.replicate w.ups [dot, dot] ++ l ++ [x] := by
  rw [elems, hk, append_assoc]

theorem cleanElem_nil : cleanElem rooted first w [] = w := if_pos rfl

theorem cleanElem_dot : cleanElem rooted first w [dot] = { w with erased := w.erased || first } := by
  rw [cleanElem, if_neg (cons_ne_nil _ _), if_pos rfl]

theorem cleanElem_up {l : List Bytes} {x : Bytes} (hk : w.kept = l ++ [x]) : cleanElem rooted first w [dot, dot] =
    ⟨w.ups, l, w.erased || (!rooted && w.ups = 0 && l = [])⟩ := by
  obtain ⟨ups, kept, erased⟩ := w
  obtain rfl : kept = l ++ [x] := hk
  simp [cleanElem]

theorem cleanElem_top (hk : w.kept = []) : cleanElem rooted first w [dot, dot] =
    if rooted then w else { w with ups := w.ups + 1 } := by
  obtain ⟨ups, kept, erased⟩ := w
  obtain rfl : kept = [] := hk
  cases rooted <;> simp [cleanElem]

theorem cleanElem_proper (he : Proper slash dot e) : cleanElem rooted first w e = { w with kept := w.kept ++ [e] } := by
  rw [cleanElem, if_neg he.ne_nil, if_neg he.ne_dot, if_neg he.ne_dotdot]

theorem elem_cases (hs : slash ∉ e) : e = [] ∨ e = [dot] ∨ e = [dot, dot] ∨ Proper slash dot e := by
  by_cases h₁ : e = []
  · exact .inl h₁
  · by_cases h₂ : e = [dot]
    · exact .inr (.inl h₂)
    · by_cases h₃ : e = [dot, dot]
      · exact .inr (.inr (.inl h₃))
      · exact .inr (.inr (.inr ⟨h₁, h₂, h₃, hs⟩))

namespace Cleaning.Ok

theorem start : Ok rooted ⟨0, [], false⟩ := ⟨fun _ h => absurd h not_mem_nil, fun _ => rfl⟩

section
variable (h : Ok rooted w)
include h

theorem step (hs : slash ∉ e) : Ok rooted (cleanElem rooted first w e) := by
  rcases elem_cases hs with rfl | rfl | rfl | he
  · rwa [cleanElem_nil]
  · rw [cleanElem_dot]
    exact ⟨h.kept, h.ups⟩
  · rcases w.kept.eq_nil_or_concat with hk | ⟨l, x, hk⟩
    · rw [cleanElem_top hk]
      cases rooted with
      | true => exact h
      | false => exact ⟨h.kept, fun hr => by cases hr⟩
    · rw [concat_eq_append] at hk
      rw [cleanElem_up hk]
      exact ⟨fun e he => h.kept e (hk ▸ mem_append_left _ he), h.ups⟩
  · rw [cleanElem_proper he]
    refine ⟨fun e' he' => ?_, h.ups⟩
    rcases mem_append.1 he' with he' | he'
    · exact h.kept e' he'
    · rwa [mem_singleton.1 he']

theorem run (hs : ∀ e ∈ es, slash ∉ e) : Ok rooted (cleanElems rooted first w es) := by
  induction es generalizing first w with
  | nil => exact h
  | cons e es ih =>
    exact ih (h.step (hs e mem_cons_self)) fun e' he' => hs e' (mem_cons_of_mem e he')

theorem mem_elems (he : e ∈ w.elems) : e = [dot, dot] ∨ Proper slash dot e :=
  (mem_append.1 he).imp eq_of_mem_replicate (h.kept e)

theorem sep_not_mem (he : e ∈ w.elems) : slash ∉ e := by
  rcases h.mem_elems he with rfl | he
  · decide
  · exact he.sep_not_mem

theorem ne_nil (he : e ∈ w.elems) : e ≠ [] := by
  rcases h.mem_elems he with rfl | he
  · exact cons_ne_nil _ _
  · exact he.ne_nil

end

end Cleaning.Ok

theorem cleaned_ok (s : Bytes) : (cleaned s).Ok (isRooted s) :=
  Cleaning.Ok.start.run fun _ => not_mem_of_mem_splitOn

/-! ### It means the same -/

theorem foldl_step (h : w.Ok rooted) (hs : slash ∉ e) (hc : rooted = true → cwd = []) :
    (cleanElem rooted first w e).elems.foldl (resolveStep dot) cwd =
      resolveStep dot (w.elems.foldl (resolveStep dot) cwd) e := by
  rcases elem_cases hs with rfl | rfl | rfl | he
  · rw [cleanElem_nil, resolveStep_nil]
  · rw [cleanElem_dot, resolveStep_dot]
    rfl
  · rw [resolveStep_dotdot]
    rcases w.kept.eq_nil_or_concat with hk | ⟨l, x, hk⟩
    · rw [cleanElem_top hk]
      cases rooted with
      | true =>
        have helems : w.elems = [] := by rw [Cleaning.elems, hk, h.ups rfl]; rfl
        rw [if_pos rfl, helems, hc rfl]
        rfl
      | false =>
        rw [if_neg Bool.false_ne_true, Cleaning.elems, Cleaning.elems, hk, append_nil, append_nil,
          replicate_succ', foldl_append, foldl_cons, foldl_nil, resolveStep_dotdot]
    · rw [concat_eq_append] at hk
      have hx : Proper slash dot x := h.kept x (hk ▸ mem_append_right l mem_cons_self)
      rw [cleanElem_up hk, Cleaning.elems_concat hk, foldl_concat, resolveStep_proper hx, dropLast_concat]
      rfl
  · rw [cleanElem_proper he, Cleaning.elems_concat rfl, foldl_concat]
    rfl

theorem foldl_run (h : w.Ok rooted) (hs : ∀ e ∈ es, slash ∉ e) (hc : rooted = true → cwd = []) :
    (cleanElems rooted first w es).elems.foldl (resolveStep dot) cwd =
      es.foldl (resolveStep dot) (w.elems.foldl (resolveStep dot) cwd) := by
  induction es generalizing first w with
  | nil => rfl
  | cons e es ih =>
    have he := hs e mem_cons_self
    rw [cleanElems, ih (h.step he) fun e' he' => hs e' (mem_cons_of_mem e he'), foldl_step h he hc,
      foldl_cons]

theorem span_step (h : w.Ok rooted) (hs : slash ∉ e) :
    span (cleanElem rooted first w e).elems + (if (cleanElem rooted first w e).erased then 2 else 0) ≤
      span w.elems + (if w.erased then 2 else 0) + (e.length + 1) := by
  rcases elem_cases hs with rfl | rfl | rfl | he
  · rw [cleanElem_nil]
    omega
  · rw [cleanElem_dot]
    have hlen : [dot].length = 1 := rfl
    have helems : ({ w with erased := w.erased || first } : Cleaning).elems = w.elems := rfl
    rw [helems, hlen]
    split <;> split <;> omega
  · have hlen : [dot, dot].length = 2 := rfl
    rcases w.kept.eq_nil_or_concat with hk | ⟨l, x, hk⟩
    · rw [cleanElem_top hk, hlen]
      cases rooted with
      | true =>
        rw [if_pos rfl]
        omega
      | false =>
        have hup : ({ w with ups := w.ups + 1 } : Cleaning).elems = w.elems ++ [[dot, dot]] := by
          rw [Cleaning.elems, Cleaning.elems, hk, append_nil, append_nil, replicate_succ']
        have hone : span [[dot, dot]] = 3 := rfl
        rw [if_neg Bool.false_ne_true, hup, span_append, hone]
        dsimp only
        omega
    · rw [concat_eq_append] at hk
      have hx : x ≠ [] := (h.kept x (hk ▸ mem_append_right l mem_cons_self)).ne_nil
      have hpos := length_pos_iff.2 hx
      have hspan : span w.elems = span (List.replicate w.ups [dot, dot] ++ l) + (x.length + 1) := by
        rw [Cleaning.elems_concat hk, span_append, span_cons]
        rfl
      rw [cleanElem_up hk, hlen, hspan, Cleaning.elems]
      dsimp only
      split <;> split <;> omega
  · have hone : span [e] = e.length + 1 := rfl
    rw [cleanElem_proper he, Cleaning.elems_concat rfl, span_append, hone, Cleaning.elems]
    dsimp only
    omega

theorem span_run (h : w.Ok rooted) (hs : ∀ e ∈ es, slash ∉ e) :
    span (cleanElems rooted first w es).elems + (if (cleanElems rooted first w es).erased then 2 else 0) ≤
      span w.elems + (if w.erased then 2 else 0) + span es := by
  induction es generalizing first w with
  | nil => exact Nat.le_add_right _ _
  | cons e es ih =>
    have he := hs e mem_cons_self
    have hstep := @span_step e w rooted first h he
    have hok : (cleanElem rooted first w e).Ok rooted := h.step he
    rw [cleanElems, span_cons]
    refine (ih hok fun e' he' => hs e' (mem_cons_of_mem e he')).trans ?_
    omega

/-! ### What it starts with -/

theorem head_step {e₀ : Bytes} (hs : slash ∉ e) (hw : w.erased = true ∨ w.elems.head? = some e₀) :
    (cleanElem false false w e).erased = true ∨ (cleanElem false false w e).elems.head? = some e₀ := by
  have happ : ∀ l : List Bytes, w.elems.head? = some e₀ → (w.elems ++ l).head? = some e₀ := fun l hw => by
    rw [List.head?_append, hw]
    rfl
  rcases elem_cases hs with rfl | rfl | rfl | he
  · rwa [cleanElem_nil]
  · rw [cleanElem_dot]
    exact hw.imp_left fun hw => by rw [hw]; rfl
  · rcases w.kept.eq_nil_or_concat with hk | ⟨l, x, hk⟩
    · rw [cleanElem_top hk, if_neg Bool.false_ne_true]
      refine hw.imp_right fun hw => ?_
      have hup : ({ w with ups := w.ups + 1 } : Cleaning).elems = w.elems ++ [[dot, dot]] := by
        rw [Cleaning.elems, Cleaning.elems, hk, append_nil, append_nil, replicate_succ']
      rw [hup]
      exact happ _ hw
    rw [concat_eq_append] at hk
    rw [cleanElem_up hk]
    rcases hw with hw | hw
    · exact .inl (by rw [hw]; rfl)
    by_cases hempty : List.replicate w.ups [dot, dot] ++ l = []
    · obtain ⟨hups, rfl⟩ := append_eq_nil_iff.1 hempty
      have hzero := (replicate_eq_nil_iff _).1 hups
      exact .inl (by simp [hzero])
    · refine .inr ?_
      rw [Cleaning.elems_concat hk, List.head?_append_of_ne_nil _ hempty] at hw
      exact hw
  · rw [cleanElem_proper he, Cleaning.elems_concat rfl]
    exact hw.imp_right (happ [e])

theorem head_run {e₀ : Bytes} (hs : ∀ e ∈ es, slash ∉ e)
    (hw : w.erased = true ∨ w.elems.head? = some e₀) :
    (cleanElems false false w es).erased = true ∨ (cleanElems false false w es).elems.head? = some e₀ := by
  induction es generalizing w with
  | nil => exact hw
  | cons e es ih =>
    have he := hs e mem_cons_self
    exact ih (fun e' he' => hs e' (mem_cons_of_mem e he')) (head_step he hw)

theorem head_start (hs : slash ∉ e) (he : e ≠ []) : (cleanElem false true ⟨0, [], false⟩ e).erased = true ∨
    (cleanElem false true ⟨0, [], false⟩ e).elems.head? = some e := by
  rcases elem_cases hs with rfl | rfl | rfl | he
  · exact absurd rfl he
  · exact .inl (by rw [cleanElem_dot]; rfl)
  · exact .inr (by rw [cleanElem_top rfl]; rfl)
  · exact .inr (by rw [cleanElem_proper he]; rfl)

theorem path_of_not (h : isRooted s = false) : path s = s := by
  rw [path, h]
  rfl

theorem eq_cons_of_isRooted (h : isRooted s = true) : s = slash :: path s := by
  cases s with
  | nil => cases h
  | cons c s =>
    cases Option.some.inj (of_decide_eq_true h)
    rw [path, h]
    rfl

/-- The elements of the text are those that were put into it. -/
structure Elems (rooted : Bool) (es : List Bytes) : Prop where
  ne_nil : ∀ e ∈ es, e ≠ []
  no_slash : ∀ e ∈ es, slash ∉ e

theorem head_glue (h : Elems rooted es) (hes : es ≠ []) : ∃ c t e, glue slash es = c :: t ∧ es.head? = some e ∧
    e.head? = some c ∧ c ≠ slash := by
  obtain ⟨e, es, rfl⟩ := exists_cons_of_ne_nil hes
  obtain ⟨c, t, rfl⟩ := exists_cons_of_ne_nil (h.ne_nil e mem_cons_self)
  have hc : c ≠ slash := fun hc => h.no_slash _ mem_cons_self (hc ▸ mem_cons_self)
  by_cases hnil : es = []
  · subst hnil
    exact ⟨c, t, c :: t, glue_singleton, rfl, rfl, hc⟩
  · exact ⟨c, t ++ slash :: glue slash es, c :: t, glue_cons hnil, rfl, rfl, hc⟩

theorem orDot_text_rooted : orDot (text true es) = slash :: glue slash es := rfl

theorem orDot_text (h : Elems false es) (hes : es ≠ []) : orDot (text false es) = glue slash es := by
  obtain ⟨c, t, -, hg, -, -, -⟩ := head_glue h hes
  have htext : text false es = glue slash es := rfl
  rw [orDot, htext, if_neg]
  rw [hg]
  exact cons_ne_nil c t

theorem isRooted_text (h : Elems rooted es) : isRooted (orDot (text rooted es)) = rooted := by
  cases rooted with
  | true => rfl
  | false =>
    by_cases hes : es = []
    · subst hes
      rfl
    · obtain ⟨c, t, -, hg, -, -, hc⟩ := head_glue h hes
      rw [orDot_text h hes, hg, isRooted]
      simpa using hc

theorem splitOn_path_text (h : Elems rooted es) (hes : es ≠ []) : (path (orDot (text rooted es))).splitOn slash =
    es := by
  have hpath : path (orDot (text rooted es)) = glue slash es := by
    cases rooted with
    | true => rfl
    | false => rw [path_of_not (isRooted_text h), orDot_text h hes]
  rw [hpath, splitOn_glue hes h.no_slash]

theorem elements_text (h : Elems rooted es) (hr : rooted = true ∨ es ≠ []) :
    elements (orDot (text rooted es)) = es := by
  by_cases hes : es = []
  · subst hes
    obtain rfl := hr.resolve_right fun hne => hne rfl
    rfl
  · rw [elements, if_neg, splitOn_path_text h hes]
    intro heq
    have hsplit := splitOn_path_text h hes
    rw [heq] at hsplit
    exact h.ne_nil [] (hsplit ▸ mem_cons_self) rfl

theorem Cleaning.Ok.elems (h : w.Ok rooted) : Elems rooted w.elems := ⟨fun _ => h.ne_nil, fun _ => h.sep_not_mem⟩

theorem canonical_text (h : w.Ok rooted) (hr : rooted = true ∨ w.elems ≠ []) :
    Canonical (orDot (text rooted w.elems)) := by
  have hels := elements_text h.elems hr
  refine ⟨fun e he => ?_, ⟨w.ups, w.kept, hels, fun hmem => (h.kept _ hmem).ne_dotdot rfl⟩, fun hroot hmem => ?_⟩
  · rw [hels] at he
    rcases h.mem_elems he with rfl | he
    · decide
    · exact ⟨he.ne_nil, he.ne_dot⟩
  · rw [isRooted_text h.elems] at hroot
    rw [hels, Cleaning.elems, h.ups hroot] at hmem
    exact (h.kept _ hmem).ne_dotdot rfl

theorem guarded_cases (b : Bool) (q : Bytes) : guarded b q = q ∧ (b = true → q.head? ≠ some sharp) ∨
    b = true ∧ q.head? = some sharp ∧ guarded b q = [dot, slash] ++ q := by
  unfold guarded
  by_cases hb : b = true
  · by_cases hq : q.head? = some sharp
    · exact .inr ⟨hb, hq, by rw [hb, hq]; rfl⟩
    · exact .inl ⟨if_neg fun h => hq (by simpa [hb] using h), fun _ => hq⟩
  · exact .inl ⟨if_neg fun h => hb (Bool.and_eq_true_iff.1 h).1, fun h => absurd h hb⟩

theorem guarded_dot (b : Bool) : guarded b [dot] = [dot] := by cases b <;> rfl

theorem cleanname_cases (s : Bytes) : cleanname s = [dot] ∧ isRooted s = false ∧ (cleaned s).elems = [] ∨
    (isRooted s = true ∨ (cleaned s).elems ≠ []) := by
  by_cases hes : (cleaned s).elems = []
  · cases hr : isRooted s with
    | true => exact .inr (.inl rfl)
    | false =>
      refine .inl ⟨?_, rfl, hes⟩
      rw [cleanname_eq, hes, hr]
      exact guarded_dot _
  · exact .inr (.inr hes)

theorem cleanname_clean (s : Bytes) : Clean (cleanname s) ∨ cleanname s = [dot] := by
  rcases cleanname_cases s with ⟨hdot, -, -⟩ | hr
  · exact .inr hdot
  have hcan := canonical_text (cleaned_ok s) hr
  rw [cleanname_eq]
  rcases guarded_cases (cleaned s).erased (orDot (text (isRooted s) (cleaned s).elems))
    with ⟨heq, -⟩ | ⟨-, hsharp, heq⟩
  · rw [heq]
    exact .inl (.inl hcan)
  · rw [heq]
    exact .inl (.inr ⟨_, rfl, hsharp, hcan⟩)

theorem span_path (s : Bytes) : span ((path s).splitOn slash) = (path s).length + 1 := by
  rw [length_glue (splitOn_ne_nil slash (path s)), glue_splitOn (path s)]

theorem length_text (h : Elems rooted es) (hes : es ≠ []) :
    (orDot (text rooted es)).length + 1 = (if rooted then 1 else 0) + span es := by
  have hspan : span es = (glue slash es).length + 1 := length_glue hes
  cases rooted with
  | true =>
    rw [orDot_text_rooted, length_cons, if_pos rfl, hspan]
    omega
  | false =>
    rw [orDot_text h hes, if_neg Bool.false_ne_true, hspan]
    omega

theorem length_path (s : Bytes) : (if isRooted s then 1 else 0) + (path s).length = s.length := by
  cases hr : isRooted s with
  | true =>
    have hlen := congrArg List.length (eq_cons_of_isRooted hr)
    rw [hlen, length_cons, if_pos rfl, add_comm]
  | false => rw [path_of_not hr, if_neg Bool.false_ne_true, zero_add]

theorem length_erased (s : Bytes) (hes : (cleaned s).elems ≠ []) :
    (orDot (text (isRooted s) (cleaned s).elems)).length + (if (cleaned s).erased then 2 else 0) ≤ s.length := by
  have hrun : span (cleaned s).elems + (if (cleaned s).erased then 2 else 0) ≤ 0 + 0 + span ((path s).splitOn slash) :=
    span_run Cleaning.Ok.start fun _ => not_mem_of_mem_splitOn
  have htext := length_text (cleaned_ok s).elems hes
  have hpath := length_path s
  rw [span_path] at hrun
  omega

theorem length_cleanname (s : Bytes) : (cleanname s).length ≤ max 1 s.length := by
  by_cases hes : (cleaned s).elems = []
  · refine le_trans (le_of_eq ?_) (Nat.le_max_left 1 s.length)
    rw [cleanname_eq, hes]
    cases isRooted s <;> cases (cleaned s).erased <;> rfl
  have hlen := length_erased s hes
  refine le_trans ?_ (Nat.le_max_right 1 s.length)
  rw [cleanname_eq]
  rcases guarded_cases (cleaned s).erased (orDot (text (isRooted s) (cleaned s).elems)) with ⟨heq, -⟩ | ⟨hb, -, heq⟩
  · rw [heq]
    omega
  · rw [heq, length_append]
    rw [hb, if_pos rfl] at hlen
    have htwo : [dot, slash].length = 2 := rfl
    omega

theorem splitOn_slash (t : Bytes) : (slash :: t).splitOn slash = [] :: t.splitOn slash := by
  simp [splitOn_cons_eq_if_modifyHead]

theorem denote_eq (cwd : List Bytes) (s : Bytes) :
    denote cwd s = ((path s).splitOn slash).foldl (resolveStep dot) (if isRooted s then [] else cwd) := by
  cases hr : isRooted s with
  | true =>
    rw [denote, hr, eq_cons_of_isRooted hr, splitOn_slash, foldl_cons, resolveStep_nil, ← eq_cons_of_isRooted hr]
  | false => rw [denote, hr, path_of_not hr]

theorem splitOn_dot_slash (t : Bytes) : ([dot, slash] ++ t).splitOn slash = [dot] :: t.splitOn slash := by
  have happ : [dot, slash] ++ t = [dot] ++ slash :: t := rfl
  rw [happ, splitOn_append_cons_self, splitOn_eq_singleton (by decide)]
  rfl

theorem isRooted_of_sharp (h : t.head? = some sharp) : isRooted t = false := by
  rw [isRooted, h]
  rfl

theorem denote_dot_slash (h : t.head? = some sharp) : denote cwd ([dot, slash] ++ t) = denote cwd t := by
  have hdot : isRooted ([dot, slash] ++ t) = false := rfl
  rw [denote, denote, splitOn_dot_slash, hdot, isRooted_of_sharp h, foldl_cons, resolveStep_dot]

theorem denote_text (h : Elems rooted es) :
    denote cwd (orDot (text rooted es)) = es.foldl (resolveStep dot) (if rooted then [] else cwd) := by
  by_cases hes : es = []
  · subst hes
    cases rooted <;> rfl
  · rw [denote_eq, splitOn_path_text h hes, isRooted_text h]

theorem denote_cleanname (cwd : List Bytes) (s : Bytes) : denote cwd (cleanname s) = denote cwd s := by
  have hrun : (cleaned s).elems.foldl (resolveStep dot) (if isRooted s then [] else cwd) = denote cwd s := by
    rw [denote_eq]
    exact foldl_run Cleaning.Ok.start (fun _ => not_mem_of_mem_splitOn) fun hr => if_pos hr
  rw [← hrun, ← denote_text (cleaned_ok s).elems, cleanname_eq]
  rcases guarded_cases (cleaned s).erased (orDot (text (isRooted s) (cleaned s).elems)) with ⟨heq, -⟩ | ⟨-, hsharp, heq⟩
  · rw [heq]
  · rw [heq, denote_dot_slash hsharp]

theorem cleanElems_elems {n : Nat} {b : Bool} (h : w.Ok rooted) :
    cleanElems rooted first ⟨n, [], b⟩ w.elems = ⟨n + w.ups, w.kept, b⟩ := by
  obtain ⟨ups, kept, erased⟩ := w
  have hkept : ∀ (l : List Bytes) (n : Nat) (first : Bool), (∀ e ∈ kept, Proper slash dot e) →
      cleanElems rooted first ⟨n, l, b⟩ kept = ⟨n, l ++ kept, b⟩ := by
    intro l n first hk
    clear h
    induction kept generalizing l first with
    | nil => rw [cleanElems, append_nil]
    | cons e kept ih =>
      rw [cleanElems, cleanElem_proper (hk e mem_cons_self),
        ih _ _ fun e' he' => hk e' (mem_cons_of_mem e he'),
        append_assoc]
      rfl
  have hups := h.ups
  have hk := h.kept
  unfold Cleaning.elems
  dsimp only at hups hk ⊢
  clear h
  induction ups generalizing n first with
  | zero => exact hkept [] n first hk
  | succ ups ih =>
    obtain rfl : rooted = false := by
      by_contra hr
      exact absurd (hups (Bool.eq_true_of_not_eq_false hr)) (Nat.succ_ne_zero ups)
    rw [replicate_succ, cons_append, cleanElems, cleanElem_top rfl, if_neg Bool.false_ne_true,
      ih fun hr => by cases hr]
    exact congrArg (Cleaning.mk · kept b) (by dsimp only; omega)

theorem cleaned_text (h : w.Ok rooted) (hr : rooted = true ∨ w.elems ≠ []) :
    cleaned (orDot (text rooted w.elems)) = ⟨w.ups, w.kept, false⟩ := by
  rw [cleaned, isRooted_text h.elems]
  by_cases hes : w.elems = []
  · obtain rfl := hr.resolve_right fun hne => hne hes
    obtain ⟨hups, hk⟩ := append_eq_nil_iff.1 hes
    rw [hes, hk, (replicate_eq_nil_iff _).1 hups]
    rfl
  · rw [splitOn_path_text h.elems hes, cleanElems_elems h, zero_add]

theorem cleanname_text (h : w.Ok rooted) (hr : rooted = true ∨ w.elems ≠ []) :
    cleanname (orDot (text rooted w.elems)) = orDot (text rooted w.elems) := by
  rw [cleanname_eq, cleaned_text h hr, isRooted_text h.elems]
  rfl

theorem cleanname_dot_slash (h : w.Ok false) (hes : w.elems ≠ [])
    (hsharp : (orDot (text false w.elems)).head? = some sharp) :
    cleanname ([dot, slash] ++ orDot (text false w.elems)) = [dot, slash] ++ orDot (text false w.elems) := by
  have hroot : isRooted ([dot, slash] ++ orDot (text false w.elems)) = false := rfl
  have hcleaned : cleaned ([dot, slash] ++ orDot (text false w.elems)) = ⟨w.ups, w.kept, true⟩ := by
    have hsplit : (orDot (text false w.elems)).splitOn slash = w.elems := by
      have hpath := splitOn_path_text h.elems hes
      rwa [path_of_not (isRooted_text h.elems)] at hpath
    rw [cleaned, hroot, path_of_not hroot, splitOn_dot_slash, hsplit, cleanElems, cleanElem_dot]
    exact (cleanElems_elems h).trans (congrArg (Cleaning.mk · w.kept true) (zero_add _))
  rw [cleanname_eq, hcleaned, hroot]
  exact if_pos (by rw [Bool.and_eq_true]; exact ⟨rfl, decide_eq_true hsharp⟩)

theorem cleanname_cleanname (s : Bytes) : cleanname (cleanname s) = cleanname s := by
  rcases cleanname_cases s with ⟨hdot, -, -⟩ | hr
  · rw [hdot]
    rfl
  rw [cleanname_eq s]
  rcases guarded_cases (cleaned s).erased (orDot (text (isRooted s) (cleaned s).elems))
    with ⟨heq, -⟩ | ⟨-, hsharp, heq⟩
  · rw [heq, cleanname_text (cleaned_ok s) hr]
  · rw [heq]
    have hok := cleaned_ok s
    have hroot : isRooted s = false := (isRooted_text hok.elems).symm.trans (isRooted_of_sharp hsharp)
    rw [hroot] at hok hsharp hr ⊢
    exact cleanname_dot_slash hok (hr.resolve_left Bool.false_ne_true) hsharp

theorem cleanname_sharp (hs : s.head? ≠ some sharp) : (cleanname s).head? ≠ some sharp := by
  rcases cleanname_cases s with ⟨hdot, -, -⟩ | hr
  · rw [hdot]
    decide
  rw [cleanname_eq]
  rcases guarded_cases (cleaned s).erased (orDot (text (isRooted s) (cleaned s).elems)) with ⟨heq, hq⟩ | ⟨-, -, heq⟩
  · rw [heq]
    intro hsharp
    have hok := cleaned_ok s
    have hroot : isRooted s = false := (isRooted_text hok.elems).symm.trans (isRooted_of_sharp hsharp)
    rw [hroot] at hok hsharp hr hq
    have hne := hr.resolve_left Bool.false_ne_true
    -- the first element is still there, for nothing has been erased
    obtain ⟨e, es, hsplit⟩ := exists_cons_of_ne_nil (splitOn_ne_nil slash s)
    have hse : ∀ e' ∈ e :: es, slash ∉ e' := fun e' he' => not_mem_of_mem_splitOn (hsplit ▸ he')
    have hglue : glue slash (s.splitOn slash) = s := glue_splitOn s
    rw [hsplit] at hglue
    have hcleaned : cleaned s = cleanElems false true ⟨0, [], false⟩ (e :: es) := by
      rw [cleaned, hroot, path_of_not hroot, hsplit]
      rfl
    have hnil : e ≠ [] := by
      rintro rfl
      by_cases hes : es = []
      · subst hes
        rw [hcleaned] at hne
        exact hne rfl
      · rw [glue_cons hes] at hglue
        rw [← hglue] at hroot
        cases hroot
    have hhead : s.head? = e.head? := by
      rw [← hglue]
      by_cases hes : es = []
      · rw [hes, glue_singleton]
      · rw [glue_cons hes, List.head?_append_of_ne_nil _ hnil]
    have hrun := head_run (fun e' he' => hse e' (mem_cons_of_mem e he'))
      (head_start (hse e mem_cons_self) hnil)
    rw [← cleanElems, ← hcleaned] at hrun
    rcases hrun with hrun | hrun
    · exact hq hrun hsharp
    · obtain ⟨c, t, e', hg, hhd, hc, -⟩ := head_glue hok.elems hne
      rw [orDot_text hok.elems hne, hg] at hsharp
      cases hhd.symm.trans hrun
      exact hs (hhead.trans (hc.trans hsharp))
  · rw [heq]
    have hdot : some dot ≠ some sharp := by decide
    exact hdot

end Node9.Names
