import Mathlib

/-!
# Lists of records as finite maps

No two records of the list have the same key. What is found under a key is what `get` finds first.
-/

namespace Keyed
open Function

variable {α κ : Type} [DecidableEq κ] (key : α → κ)

def get (l : List α) (k : κ) : Option α := l.find? fun a => key a = k

variable {key} {l₁ l₂ l : List α} {a b : α} {k : κ}

theorem get_eq_none_iff : get key l k = none ↔ ∀ a ∈ l, key a ≠ k := by
  simp [get, List.find?_eq_none]

theorem key_of_get (h : get key l k = some a) : key a = k := by
  simpa using List.find?_some h

theorem mem_of_get (h : get key l k = some a) : a ∈ l := List.mem_of_find?_eq_some h

theorem get_of_mem (hnd : (l.map key).Nodup) (ha : a ∈ l) : get key l (key a) = some a := by
  cases h : get key l (key a) with
  | none => exact absurd rfl (get_eq_none_iff.1 h a ha)
  | some b => rw [List.inj_on_of_nodup_map hnd (mem_of_get h) ha (key_of_get h)]

theorem get_insert (h : ∀ a ∈ l₁ ++ l₂, key a ≠ key b) :
    get key (l₁ ++ b :: l₂) = update (get key (l₁ ++ l₂)) (key b) (some b) := by
  funext k
  have hl : get key l₁ (key b) = none := get_eq_none_iff.2 fun a ha => h a (List.mem_append_left _ ha)
  by_cases hk : k = key b
  · subst hk
    rw [update_self, get, List.find?_append, ← get, hl, List.find?_cons_of_pos (by simp)]
    rfl
  · rw [update_of_ne hk, get, get, List.find?_append, List.find?_append,
      List.find?_cons_of_neg (by simpa using Ne.symm hk)]

theorem get_remove (h : ∀ a ∈ l₁ ++ l₂, key a ≠ key b) :
    get key (l₁ ++ l₂) = update (get key (l₁ ++ b :: l₂)) (key b) none := by
  rw [get_insert h, update_idem, ← get_eq_none_iff.2 h, update_eq_self]

end Keyed
