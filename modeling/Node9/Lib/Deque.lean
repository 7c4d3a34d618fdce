import Mathlib

/-!
# Doubly linked lists with a head and a tail

The nodes of a list know the next one and the one before. Nodes are added at the tail, and removed wherever they
are.
-/

namespace Deque
open List

variable {α : Type} [DecidableEq α]

/-- `p` is the node before the list. -/
def Links (next prev : α → Option α) : Option α → List α → Prop
  | _, [] => True
  | p, a :: xs => prev a = p ∧ next a = xs.head? ∧ Links next prev (some a) xs

variable {next prev next' prev' : α → Option α} {p : Option α} {xs ys : List α} {a : α}

namespace Links

omit [DecidableEq α] in
theorem congr (h : Links next prev p xs) (hxs : ∀ b ∈ xs, next' b = next b ∧ prev' b = prev b) :
    Links next' prev' p xs := by
  induction xs generalizing p with
  | nil => trivial
  | cons a xs ih =>
    obtain ⟨hp, hn, h⟩ := h
    obtain ⟨hn', hp'⟩ := hxs a (by simp)
    exact ⟨hp'.trans hp, hn'.trans hn, ih h fun b hb => hxs b (by simp [hb])⟩

theorem snoc (h : Links next prev p xs) (hnd : xs.Nodup)
    (hn : ∀ b ∈ xs, next' b = if xs.getLast? = some b then some a else next b) (hp : ∀ b ∈ xs, prev' b = prev b)
    (hna : next' a = none) (hpa : prev' a = xs.getLast?.or p) : Links next' prev' p (xs ++ [a]) := by
  induction xs generalizing p with
  | nil => exact ⟨hpa, hna, trivial⟩
  | cons x xs ih =>
    obtain ⟨hpx, hnx, h⟩ := h
    obtain ⟨hx, hnd⟩ := nodup_cons.1 hnd
    have hnx' := hn x (by simp)
    refine ⟨(hp x (by simp)).trans hpx, ?_, ?_⟩
    · cases xs with
      | nil => simpa using hnx'
      | cons y xs =>
        have hlast : (x :: y :: xs).getLast? ≠ some x := by
          intro heq
          rw [List.getLast?_cons_cons] at heq
          exact hx (mem_of_getLast? heq)
        rw [hnx', if_neg hlast, hnx]
        rfl
    refine ih h hnd (fun b hb => ?_) (fun b hb => hp b (by simp [hb])) ?_
    · rw [hn b (by simp [hb])]
      cases xs with
      | nil => cases hb
      | cons y xs => rw [List.getLast?_cons_cons]
    rw [hpa]
    cases xs with
    | nil => rfl
    | cons y xs =>
      rw [List.getLast?_cons_cons, List.getLast?_eq_some_getLast (by simp)]
      rfl

omit [DecidableEq α] in
theorem around (h : Links next prev p (xs ++ a :: ys)) : prev a = xs.getLast?.or p ∧ next a = ys.head? := by
  induction xs generalizing p with
  | nil => exact ⟨h.1, h.2.1⟩
  | cons x xs ih =>
    obtain ⟨hpa, hna⟩ := ih h.2.2
    refine ⟨hpa.trans ?_, hna⟩
    cases xs with
    | nil => rfl
    | cons y xs =>
      rw [List.getLast?_cons_cons, List.getLast?_eq_some_getLast (by simp)]
      rfl

theorem erase (h : Links next prev p (xs ++ a :: ys)) (hnd : (xs ++ a :: ys).Nodup) (hpx : ∀ b ∈ xs ++ ys, p ≠ some b)
    (hn : ∀ b ∈ xs ++ ys, next' b = if prev a = some b then next a else next b)
    (hp : ∀ b ∈ xs ++ ys, prev' b = if next a = some b then prev a else prev b) : Links next' prev' p (xs ++ ys) := by
  induction xs generalizing p with
  | nil =>
    obtain ⟨hpa, hna, h⟩ := h
    cases ys with
    | nil => trivial
    | cons y ys =>
      obtain ⟨-, hny, h⟩ := h
      obtain ⟨hy, -⟩ := nodup_cons.1 (nodup_cons.1 hnd).2
      have hnext : ∀ b ∈ y :: ys, next' b = next b := fun b hb => by
        rw [hn b hb, hpa, if_neg (hpx b hb)]
      refine ⟨?_, (hnext y (by simp)).trans hny, h.congr fun b hb => ⟨hnext b (by simp [hb]), ?_⟩⟩
      · have hna : next a = some y := hna
        rw [hp y (by simp), if_pos hna, hpa]
      · have hyb : some y ≠ some b := fun heq => hy (Option.some.inj heq ▸ hb)
        rw [hp b (by simp [hb]), hna]
        exact if_neg hyb
  | cons x xs ih =>
    obtain ⟨hpa, hna⟩ := h.around
    obtain ⟨hprev, hnext, h⟩ := h
    obtain ⟨hx, hnd⟩ := nodup_cons.1 hnd
    have hxs : x ∉ xs ++ ys := fun hmem => hx (by simp at hmem ⊢; tauto)
    refine ⟨?_, ?_, ih h hnd (fun b hb heq => hxs (Option.some.inj heq ▸ hb)) (fun b hb => hn b (by simp [hb]))
      fun b hb => hp b (by simp [hb])⟩
    · have hne : next a ≠ some x := fun heq => hxs (mem_append_right _ (mem_of_head? (hna ▸ heq)))
      rw [hp x (by simp), if_neg hne, hprev]
    rw [hn x (by simp)]
    cases xs with
    | nil =>
      have hpa : prev a = some x := hpa
      rw [if_pos hpa, hna]
      rfl
    | cons y xs =>
      have hlast := List.getLast?_eq_some_getLast (cons_ne_nil y xs)
      rw [List.getLast?_cons_cons, hlast] at hpa
      have hne : prev a ≠ some x := by
        rw [hpa]
        intro heq
        exact hxs (mem_append_left _ (Option.some.inj heq ▸ getLast_mem (cons_ne_nil y xs)))
      rw [if_neg hne, hnext]
      rfl

end Links
end Deque
