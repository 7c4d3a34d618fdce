import Mathlib

/-!
# Locks and the threads that hold them

`owner l` is the thread that has the lock `l`, `held t` the locks that the thread `t` has taken by where it
is in its code. `Owned` says that what a thread holds is its own, and with `strict` also that it owns nothing
else. A thread keeps it by taking a lock that is free and by giving back one that it holds; a thread that
forgets to give one back keeps it only without `strict`. In either case no two threads hold the same lock.
-/

namespace Locks
open Function

variable {τ ℓ : Type}

structure Owned (strict : Prop) (owner : ℓ → Option τ) (held : τ → List ℓ) : Prop where
  holds : ∀ t, ∀ l ∈ held t, owner l = some t
  only : strict → ∀ l t, owner l = some t → l ∈ held t

namespace Owned
variable {strict : Prop} {owner : ℓ → Option τ} {held : τ → List ℓ} {l : ℓ} {t t' : τ} {m : List ℓ}

theorem unique (t t' : τ) (h : Owned strict owner held) (ht : l ∈ held t) (ht' : l ∈ held t') : t = t' :=
  Option.some.inj ((h.holds t l ht).symm.trans (h.holds t' l ht'))

theorem not_held (h : Owned strict owner held) (hl : owner l = none) : l ∉ held t := by
  intro ht
  exact absurd (h.holds t l ht) (by simp [hl])

/-- When every lock that a thread waits for comes after those that it holds, some thread can go on: one that
holds a lock, not before the given one, and waits for none that is taken. -/
theorem exists_ready {rank : ℓ → Nat} {bound : Nat} {wants : τ → Option ℓ} (h : Owned strict owner held)
    (hstrict : strict) (hbound : ∀ l, rank l ≤ bound) (hwants : ∀ t l, wants t = some l → ∀ k ∈ held t, rank k < rank l)
    (hl : owner l = some t) :
    ∃ l' t', owner l' = some t' ∧ rank l ≤ rank l' ∧ ∀ k, wants t' = some k → owner k = none := by
  induction hn : bound - rank l using Nat.strongRecOn generalizing l t with
  | ind n ih =>
    by_cases hready : ∀ k, wants t = some k → owner k = none
    · exact ⟨l, t, hl, le_refl _, hready⟩
    push Not at hready
    obtain ⟨k, hk, hne⟩ := hready
    obtain ⟨u, hu⟩ := Option.ne_none_iff_exists'.1 hne
    have hlt : rank l < rank k := hwants t k hk l (h.only hstrict l t hl)
    have hle := hbound k
    obtain ⟨l', t', hl', hle', hready'⟩ := ih (bound - rank k) (by omega) hu rfl
    exact ⟨l', t', hl', by omega, hready'⟩

variable [DecidableEq τ]

theorem stay (h : Owned strict owner held) (hmem : m = held t) : Owned strict owner (update held t m) := by
  rw [hmem, update_eq_self]
  exact h

theorem forget (h : Owned strict owner held) (hstrict : ¬ strict) (hmem : ∀ k ∈ m, k ∈ held t) :
    Owned strict owner (update held t m) := by
  refine ⟨fun u k hk => ?_, fun hst => absurd hst hstrict⟩
  by_cases hu : u = t
  · subst hu
    rw [update_self] at hk
    exact h.holds u k (hmem k hk)
  · rw [update_of_ne hu] at hk
    exact h.holds u k hk

variable [DecidableEq ℓ]

theorem acquire (h : Owned strict owner held) (hl : owner l = none) (hmem : ∀ k, k ∈ m ↔ k = l ∨ k ∈ held t) :
    Owned strict (update owner l (some t)) (update held t m) := by
  refine ⟨fun u k hk => ?_, fun hst k u hk => ?_⟩
  · by_cases hu : u = t
    · subst hu
      rw [update_self, hmem] at hk
      rcases hk with rfl | hk
      · exact update_self _ _ _
      · rw [update_of_ne fun hkl => h.not_held hl (hkl ▸ hk)]
        exact h.holds u k hk
    · rw [update_of_ne hu] at hk
      rw [update_of_ne fun hkl => h.not_held hl (hkl ▸ hk)]
      exact h.holds u k hk
  by_cases hkl : k = l
  · subst hkl
    rw [update_self] at hk
    cases hk
    rw [update_self, hmem]
    exact .inl rfl
  rw [update_of_ne hkl] at hk
  have hm := h.only hst k u hk
  by_cases hu : u = t
  · subst hu
    rw [update_self, hmem]
    exact .inr hm
  · rw [update_of_ne hu]
    exact hm

theorem release (h : Owned strict owner held) (hl : l ∈ held t) (hmem : ∀ k, k ∈ m ↔ k ≠ l ∧ k ∈ held t) :
    Owned strict (update owner l none) (update held t m) := by
  refine ⟨fun u k hk => ?_, fun hst k u hk => ?_⟩
  · by_cases hu : u = t
    · subst hu
      rw [update_self, hmem] at hk
      rw [update_of_ne hk.1]
      exact h.holds u k hk.2
    rw [update_of_ne hu] at hk
    have hkl : k ≠ l := by
      rintro rfl
      exact hu (unique _ _ h hk hl)
    rw [update_of_ne hkl]
    exact h.holds u k hk
  by_cases hkl : k = l
  · rw [hkl, update_self] at hk
    cases hk
  rw [update_of_ne hkl] at hk
  have hm := h.only hst k u hk
  by_cases hu : u = t
  · subst hu
    rw [update_self, hmem]
    exact ⟨hkl, hm⟩
  · rw [update_of_ne hu]
    exact hm

theorem release₂ {l' : ℓ} (h : Owned strict owner held) (hl : l ∈ held t) (hl' : l' ∈ held t) (hne : l' ≠ l)
    (hmem : ∀ k, k ∈ m ↔ k ≠ l' ∧ k ≠ l ∧ k ∈ held t) :
    Owned strict (update (update owner l none) l' none) (update held t m) := by
  have h₁ := h.release (m := (held t).filter (· ≠ l)) hl (by simp [and_comm])
  have h₂ := h₁.release (l := l') (t := t) (m := m) (by simp [hl', hne]) (fun k => by simp [hmem, and_comm])
  rwa [update_idem] at h₂

end Owned

end Locks
