import Mathlib

/-!
# Names made of elements

A name is a list of symbols; `sep` separates its elements and `dot` is the symbol of `.` and `..`. `resolve`
is what the name means without looking at any directory: empty elements and `.` say nothing, `..` takes the
element before it away, and at the top it says nothing either. `render` writes elements as a rooted name.
-/

namespace Lexical
open List

variable {α : Type} [DecidableEq α] (sep dot : α)

/-- An element that is the name of something in a directory. -/
structure Proper (e : List α) : Prop where
  ne_nil : e ≠ []
  ne_dot : e ≠ [dot]
  ne_dotdot : e ≠ [dot, dot]
  sep_not_mem : sep ∉ e

def resolveStep (es : List (List α)) (e : List α) : List (List α) :=
  if e = [] ∨ e = [dot] then es else if e = [dot, dot] then es.dropLast else es ++ [e]

def resolve (s : List α) : List (List α) := (s.splitOn sep).foldl (resolveStep dot) []

def render (es : List (List α)) : List α := sep :: [sep].intercalate es

variable {sep dot} {e s t : List α} {es : List (List α)}

theorem resolveStep_nil : resolveStep dot es [] = es := if_pos (.inl rfl)

theorem resolveStep_dot : resolveStep dot es [dot] = es := if_pos (.inr rfl)

theorem resolveStep_dotdot : resolveStep dot es [dot, dot] = es.dropLast := by simp [resolveStep]

theorem resolveStep_proper (he : Proper sep dot e) : resolveStep dot es e = es ++ [e] := by
  simp [resolveStep, he.ne_nil, he.ne_dot, he.ne_dotdot]

theorem not_mem_of_mem_splitOn (he : e ∈ s.splitOn sep) : sep ∉ e := by
  induction s generalizing e with
  | nil =>
    simp at he
    simp [he]
  | cons x s ih =>
    rw [splitOn_cons_eq_if_modifyHead] at he
    split at he
    · rcases mem_cons.1 he with rfl | he
      · exact not_mem_nil
      · exact ih he
    next hx =>
    have hx : sep ≠ x := fun h => hx (by simp [h])
    obtain ⟨a, l, hal⟩ := exists_cons_of_ne_nil (splitOn_ne_nil sep s)
    rw [hal] at he ih
    rcases mem_cons.1 he with rfl | he
    · exact fun h => (mem_cons.1 h).elim hx (ih mem_cons_self)
    · exact ih (mem_cons_of_mem a he)

theorem foldl_resolveStep_proper {l : List (List α)} (hl : ∀ e ∈ l, sep ∉ e) (hes : ∀ e ∈ es, Proper sep dot e) :
    ∀ e ∈ l.foldl (resolveStep dot) es, Proper sep dot e := by
  induction l generalizing es with
  | nil => exact hes
  | cons a l ih =>
    refine ih (fun e he => hl e (mem_cons_of_mem a he)) ?_
    intro e he
    rw [resolveStep] at he
    split at he
    · exact hes e he
    next h₁ =>
    rw [not_or] at h₁
    split at he
    · exact hes e (dropLast_subset es he)
    · next h₂ =>
      rcases mem_append.1 he with he | he
      · exact hes e he
      · cases mem_singleton.1 he
        exact ⟨h₁.1, h₁.2, h₂, hl a mem_cons_self⟩

theorem resolve_proper : ∀ e ∈ resolve sep dot s, Proper sep dot e :=
  foldl_resolveStep_proper (fun _ => not_mem_of_mem_splitOn) (by simp)

theorem foldl_resolveStep_of_proper {l : List (List α)} (hl : ∀ e ∈ l, Proper sep dot e) :
    l.foldl (resolveStep dot) es = es ++ l := by
  induction l generalizing es with
  | nil => simp
  | cons a l ih =>
    rw [foldl_cons, resolveStep_proper (hl a mem_cons_self), ih fun e he => hl e (mem_cons_of_mem a he)]
    simp

theorem resolve_sep_cons : resolve sep dot (sep :: s) = resolve sep dot s := by
  have h : (sep :: s).splitOn sep = [] :: s.splitOn sep := by simp [splitOn_cons_eq_if_modifyHead]
  rw [resolve, h, foldl_cons, resolveStep_nil, resolve]

theorem resolve_render (hes : ∀ e ∈ es, Proper sep dot e) : resolve sep dot (render sep es) = es := by
  rw [render, resolve_sep_cons, resolve]
  by_cases h : es = []
  · subst h
    simp [resolveStep_nil]
  · rw [splitOn_intercalate sep (fun e he => (hes e he).sep_not_mem) h, foldl_resolveStep_of_proper hes,
      nil_append]

theorem resolve_concat (he : sep ∉ e) : resolve sep dot (s ++ sep :: e) = resolveStep dot (resolve sep dot s) e := by
  rw [resolve, splitOn_append_cons_self, splitOn_eq_singleton he, foldl_append]
  rfl

theorem resolve_append_sep : resolve sep dot (s ++ [sep]) = resolve sep dot s := by
  rw [resolve_concat not_mem_nil, resolveStep_nil]

/-! ### Elements with separators between them -/

section
omit [DecidableEq α]

variable (sep) in
def glue (es : List (List α)) : List α := [sep].intercalate es

/-- The length of the elements, each with a separator after it. -/
def span (es : List (List α)) : Nat := (es.map fun e => e.length + 1).sum

theorem glue_nil : glue sep [] = [] := rfl

theorem glue_singleton : glue sep [e] = e := intercalate_singleton

theorem glue_cons (hes : es ≠ []) : glue sep (e :: es) = e ++ sep :: glue sep es :=
  (intercalate_cons_of_ne_nil hes).trans (append_assoc ..)

theorem glue_append {ds : List (List α)} (hds : ds ≠ []) (hes : es ≠ []) :
    glue sep (ds ++ es) = glue sep ds ++ sep :: glue sep es := by
  induction ds with
  | nil => exact absurd rfl hds
  | cons d ds ih =>
    rw [cons_append]
    by_cases h : ds = []
    · subst h
      rw [nil_append, glue_cons hes, glue_singleton]
    · rw [glue_cons (append_ne_nil_of_left_ne_nil h es), glue_cons h, ih h, append_assoc, cons_append]

theorem span_cons : span (e :: es) = e.length + 1 + span es := by rw [span, span, map_cons, sum_cons]

theorem span_append {ds : List (List α)} : span (ds ++ es) = span ds + span es := by
  rw [span, map_append, sum_append, span, span]

theorem length_glue (hes : es ≠ []) : span es = (glue sep es).length + 1 := by
  induction es with
  | nil => exact absurd rfl hes
  | cons e es ih =>
    rw [span_cons]
    by_cases h : es = []
    · subst h
      rw [glue_singleton]
      rfl
    · rw [glue_cons h, length_append, length_cons, ← ih h]
      omega

end

theorem splitOn_glue (hes : es ≠ []) (hs : ∀ e ∈ es, sep ∉ e) : (glue sep es).splitOn sep = es :=
  splitOn_intercalate sep hs hes

theorem glue_splitOn (s : List α) : glue sep (s.splitOn sep) = s := intercalate_splitOn sep

theorem splitOn_append (he : sep ∉ e) (ht : t = [] ∨ t.head? = some sep) :
    ∃ es, (e ++ t).splitOn sep = e :: es := by
  rcases ht with rfl | ht
  · rw [append_nil]
    exact ⟨[], splitOn_eq_singleton he⟩
  · obtain ⟨c, t, rfl⟩ := exists_cons_of_ne_nil (l := t) (by rintro rfl; cases ht)
    cases Option.some.inj ht
    rw [splitOn_append_cons_self, splitOn_eq_singleton he]
    exact ⟨_, rfl⟩

theorem takeWhile_append (he : sep ∉ e) (ht : t = [] ∨ t.head? = some sep) :
    (e ++ t).takeWhile (· ≠ sep) = e ∧ (e ++ t).dropWhile (· ≠ sep) = t := by
  have hall : ∀ c ∈ e, decide (c ≠ sep) = true := fun c hc => decide_eq_true fun h => he (h ▸ hc)
  rw [takeWhile_append_of_pos hall, dropWhile_append_of_pos hall]
  rcases ht with rfl | ht
  · exact ⟨append_nil e, rfl⟩
  · obtain ⟨c, t, rfl⟩ := exists_cons_of_ne_nil (l := t) (by rintro rfl; cases ht)
    cases Option.some.inj ht
    simp

theorem exists_first (s : List α) : ∃ e t, s = e ++ t ∧ sep ∉ e ∧ (t = [] ∨ t.head? = some sep) := by
  induction s with
  | nil => exact ⟨[], [], rfl, not_mem_nil, .inl rfl⟩
  | cons c s ih =>
    by_cases hc : c = sep
    · exact ⟨[], c :: s, rfl, not_mem_nil, .inr (congrArg some hc)⟩
    · obtain ⟨e, t, rfl, he, ht⟩ := ih
      exact ⟨c :: e, t, rfl, fun h => (mem_cons.1 h).elim (fun h => hc h.symm) he, ht⟩

end Lexical
