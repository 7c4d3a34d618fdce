import Mathlib

/-!
# What the threads have between them

Every thread `p` is in a state `s p`, and `f` says how much a thread in that state has of something. The
tally is what all threads have together. A step of one thread changes the tally by what that thread gains or
loses, and a tally of at most one is in one hand.
-/

namespace Tally
open Function

variable {τ α : Type} [Fintype τ] {f g : α → Nat} {s : τ → α} {p u : τ} {a : α}

def tally (f : α → Nat) (s : τ → α) : Nat := ∑ p, f (s p)

theorem le_tally (f : α → Nat) (s : τ → α) (p : τ) : f (s p) ≤ tally f s :=
  Finset.single_le_sum (f := fun p => f (s p)) (fun _ _ => zero_le) (Finset.mem_univ p)

theorem pos_iff : 0 < tally f s ↔ ∃ p, 0 < f (s p) := by
  unfold tally
  rw [Nat.pos_iff_ne_zero, Ne, Finset.sum_eq_zero_iff]
  simp [Nat.pos_iff_ne_zero]

theorem eq_zero_iff : tally f s = 0 ↔ ∀ p, f (s p) = 0 := by
  unfold tally
  simp [Finset.sum_eq_zero_iff]

theorem congr {t : τ → α} (h : ∀ p, f (t p) = g (s p)) : tally f t = tally g s :=
  Finset.sum_congr rfl fun p _ => h p

theorem add_le_tally (f : α → Nat) (s : τ → α) (h : p ≠ u) : f (s p) + f (s u) ≤ tally f s := by
  classical
  unfold tally
  rw [← Finset.add_sum_erase _ _ (Finset.mem_univ p)]
  have hu : u ∈ Finset.univ.erase p := Finset.mem_erase.2 ⟨h.symm, Finset.mem_univ u⟩
  have := Finset.single_le_sum (f := fun p => f (s p)) (fun _ _ => zero_le) hu
  omega

theorem unique (h : tally f s ≤ 1) (hp : 0 < f (s p)) (hu : 0 < f (s u)) : p = u := by
  by_contra hne
  have := add_le_tally f s hne
  omega

variable [DecidableEq τ]

theorem tally_update (f : α → Nat) (s : τ → α) (p : τ) (a : α) :
    tally f (update s p a) + f (s p) = tally f s + f a := by
  unfold tally
  rw [← Finset.add_sum_erase _ _ (Finset.mem_univ p), ← Finset.add_sum_erase _ (fun u => f (s u)) (Finset.mem_univ p)]
  have hsum : ∑ u ∈ Finset.univ.erase p, f (update s p a u) = ∑ u ∈ Finset.univ.erase p, f (s u) := by
    refine Finset.sum_congr rfl fun u hu => ?_
    rw [update_of_ne (Finset.ne_of_mem_erase hu)]
  rw [hsum, update_self]
  omega

theorem tally_update_eq (h : f a = f (s p)) : tally f (update s p a) = tally f s := by
  have := tally_update f s p a
  omega

end Tally
