import Node9.Lib.Tally

/-!
# Threads that wait to be woken

A thread that waits has a `target`, the queue or the event that it waits for, and is put on the list `L t` of
its target `t`. Another thread takes it off that list (`wakes` says whom it has taken), then posts the
semaphore of the taken thread, which goes on when it has consumed the post. `Handoff`: a thread that waits is
on its list, or taken by exactly one thread, or posted once; a thread that does not wait is none of these.
-/

namespace Waiting
open Tally Function List Option

structure View (τ θ : Type) where
  target : Option θ
  wakes : Option (τ × θ)
  sem : Nat

variable {τ θ : Type} [DecidableEq τ]

/-- One if the thread has taken `w`. -/
def View.takes (w : τ) (v : View τ θ) : Nat := if v.wakes.map Prod.fst = some w then 1 else 0

/-- How often a thread with the view `v` is on the list it belongs on. -/
def recorded (L : θ → List τ) (w : τ) (v : View τ θ) : Nat := (v.target.elim [] L).count w

theorem takes_pos {v : View τ θ} {w : τ} {t : θ} (hv : v.wakes = some (w, t)) : 0 < v.takes w := by
  simp [View.takes, hv]

variable [Fintype τ]

structure Handoff (L : θ → List τ) (V : τ → View τ θ) : Prop where
  listed : ∀ t, ∀ w ∈ L t, (V w).target = some t
  same : ∀ u w t, (V u).wakes = some (w, t) → (V w).target = some t
  once : ∀ w, (V w).sem + tally (View.takes w) V + recorded L w (V w) = if (V w).target.isSome then 1 else 0

namespace Handoff
variable {L : θ → List τ} {V : τ → View τ θ} {p u w : τ} {t : θ} {v : View τ θ} {xs : List τ}

theorem sem_le (h : Handoff L V) (w : τ) : (V w).sem ≤ 1 := by
  have hw := h.once w
  split at hw <;> omega

theorem idle (h : Handoff L V) (hw : (V w).target = none) : (V w).sem = 0 ∧ ∀ u t, (V u).wakes ≠ some (w, t) := by
  have hone := h.once w
  rw [hw] at hone
  simp only [isSome_none, Bool.false_eq_true, ↓reduceIte] at hone
  refine ⟨by omega, fun u t hu => ?_⟩
  have := h.same u w t hu
  rw [hw] at this
  cases this

theorem mem_iff (h : Handoff L V) : w ∈ L t ↔
    (V w).target = some t ∧ (V w).sem = 0 ∧ ∀ u, ∀ t', (V u).wakes ≠ some (w, t') := by
  have hw := h.once w
  constructor
  · intro hmem
    have ht := h.listed t w hmem
    have hpos : 0 < (L t).count w := count_pos_iff.2 hmem
    simp only [recorded, ht, elim_some, isSome_some, ↓reduceIte] at hw
    refine ⟨ht, by omega, fun u t' hu => ?_⟩
    have hle := le_tally (View.takes w) V u
    have := takes_pos hu
    omega
  rintro ⟨ht, hsem, hno⟩
  simp only [recorded, ht, elim_some, isSome_some, ↓reduceIte, hsem] at hw
  have hzero : tally (View.takes w) V = 0 := by
    refine eq_zero_iff.2 fun u => if_neg fun hu => ?_
    obtain ⟨⟨w', t'⟩, hto, rfl⟩ := map_eq_some_iff.1 hu
    exact hno u t' hto
  rw [hzero] at hw
  exact count_pos_iff.1 (by omega)

theorem sem_of_posted (h : Handoff L V) (hs : 0 < (V w).sem) :
    (V w).sem = 1 ∧ (V w).target.isSome ∧ (∀ t, w ∉ L t) ∧ ∀ u t, (V u).wakes ≠ some (w, t) := by
  have hle := h.sem_le w
  refine ⟨by omega, ?_, fun t hmem => ?_, fun u t hu => ?_⟩
  · by_contra hnone
    rw [not_isSome_iff_eq_none] at hnone
    have := (h.idle hnone).1
    omega
  · have := (h.mem_iff.1 hmem).2.1
    omega
  have hw := h.once w
  have hsome := h.same u w t hu
  simp only [hsome, isSome_some, ↓reduceIte] at hw
  have := le_tally (View.takes w) V u
  have := takes_pos hu
  omega

theorem wait [DecidableEq θ] (h : Handoff L V) (hp : (V p).target = none) (hv : v.target = some t)
    (hto : v.wakes = (V p).wakes) (hsem : v.sem = (V p).sem) (hxs : xs.Perm (p :: L t)) :
    Handoff (update L t xs) (update V p v) := by
  obtain ⟨hsem0, hno⟩ := h.idle hp
  have hnot : ∀ t', p ∉ L t' := by
    intro t' hmem
    have := h.listed t' p hmem
    rw [hp] at this
    cases this
  have htakes : ∀ w, tally (View.takes w) (update V p v) = tally (View.takes w) V := fun w =>
    tally_update_eq (by unfold View.takes; rw [hto])
  have hone := h.once p
  rw [hp, hsem0] at hone
  simp only [isSome_none, Bool.false_eq_true, ↓reduceIte] at hone
  refine ⟨fun t' w hw => ?_, fun u w t' hu => ?_, fun w => ?_⟩
  · by_cases hwp : w = p
    · subst hwp
      rw [update_self]
      by_cases ht : t' = t
      · rw [ht]
        exact hv
      · rw [update_of_ne ht] at hw
        exact absurd hw (hnot t')
    rw [update_of_ne hwp]
    by_cases ht : t' = t
    · subst ht
      rw [update_self, hxs.mem_iff] at hw
      exact h.listed t' w (mem_of_ne_of_mem hwp hw)
    · rw [update_of_ne ht] at hw
      exact h.listed t' w hw
  · have hu' : (V u).wakes = some (w, t') := by
      by_cases hup : u = p
      · subst hup
        rwa [update_self, hto] at hu
      · rwa [update_of_ne hup] at hu
    have hwp : w ≠ p := by
      rintro rfl
      exact hno u t' hu'
    rw [update_of_ne hwp]
    exact h.same u w t' hu'
  · rw [htakes]
    by_cases hwp : w = p
    · subst hwp
      rw [update_self]
      have hcount : xs.count w = 1 := by
        rw [hxs.count_eq, count_cons_self, count_eq_zero.2 (hnot t)]
      simp only [recorded, hv, elim_some, update_self, hcount, isSome_some, ↓reduceIte]
      omega
    rw [update_of_ne hwp]
    rw [← h.once w]
    congr 1
    unfold recorded
    cases htw : (V w).target with
    | none => rfl
    | some t' =>
      by_cases ht : t' = t
      · subst ht
        rw [elim_some, elim_some, update_self, hxs.count_eq,
          count_cons_of_ne (Ne.symm hwp)]
      · rw [elim_some, elim_some, update_of_ne ht]

theorem take [DecidableEq θ] (h : Handoff L V) (hw : (L t).Perm (w :: xs)) (hp : (V p).wakes = none)
    (hv : v.target = (V p).target) (hto : v.wakes = some (w, t)) (hsem : v.sem = (V p).sem) :
    Handoff (update L t xs) (update V p v) := by
  have hmem : w ∈ L t := hw.mem_iff.2 mem_cons_self
  have hwt := h.listed t w hmem
  have htarget : ∀ u, (update V p v u).target = (V u).target := by
    intro u
    by_cases hup : u = p
    · subst hup
      rw [update_self, hv]
    · rw [update_of_ne hup]
  have hsems : ∀ u, (update V p v u).sem = (V u).sem := by
    intro u
    by_cases hup : u = p
    · subst hup
      rw [update_self, hsem]
    · rw [update_of_ne hup]
  refine ⟨fun t' u hu => ?_, fun u u' t' hu => ?_, fun u => ?_⟩
  · rw [htarget]
    by_cases ht : t' = t
    · subst ht
      rw [update_self] at hu
      exact h.listed t' u (hw.mem_iff.2 (mem_cons_of_mem _ hu))
    · rw [update_of_ne ht] at hu
      exact h.listed t' u hu
  · rw [htarget]
    by_cases hup : u = p
    · subst hup
      rw [update_self, hto] at hu
      obtain ⟨rfl, rfl⟩ := Prod.mk.inj (Option.some.inj hu)
      exact hwt
    · rw [update_of_ne hup] at hu
      exact h.same u u' t' hu
  have hone := h.once u
  have htally := tally_update (View.takes u) V p v
  have hpu : View.takes u (V p) = 0 := by simp [View.takes, hp]
  rw [hsems, htarget, ← hone]
  by_cases huw : u = w
  · subst huw
    have hpv : View.takes u v = 1 := by simp [View.takes, hto]
    have hcount : (L t).count u = xs.count u + 1 := by rw [hw.count_eq, count_cons_self]
    simp only [recorded, htarget, hwt, elim_some, update_self]
    omega
  have hpv : View.takes u v = 0 := by simp [View.takes, hto, Ne.symm huw]
  have hrec : recorded (update L t xs) u (update V p v u) = recorded L u (V u) := by
    unfold recorded
    rw [htarget]
    cases (V u).target with
    | none => rfl
    | some t' =>
      by_cases ht : t' = t
      · subst ht
        rw [elim_some, elim_some, update_self, hw.count_eq,
          count_cons_of_ne (Ne.symm huw)]
      · rw [elim_some, elim_some, update_of_ne ht]
  omega

theorem post {v' : View τ θ} (h : Handoff L V) (hp : (V p).wakes = some (w, t)) (hpw : p ≠ w)
    (hv : v.target = (V p).target) (hto : v.wakes = none) (hsem : v.sem = (V p).sem)
    (hv' : v'.target = (V w).target) (hto' : v'.wakes = (V w).wakes) (hsem' : v'.sem = (V w).sem + 1) :
    Handoff L (update (update V w v') p v) := by
  have htarget : ∀ u, (update (update V w v') p v u).target = (V u).target := by
    intro u
    by_cases hup : u = p
    · subst hup
      rw [update_self, hv]
    · rw [update_of_ne hup]
      by_cases huw : u = w
      · subst huw
        rw [update_self, hv']
      · rw [update_of_ne huw]
  refine ⟨fun t' u hu => ?_, fun u u' t' hu => ?_, fun u => ?_⟩
  · rw [htarget]
    exact h.listed t' u hu
  · rw [htarget]
    by_cases hup : u = p
    · subst hup
      rw [update_self, hto] at hu
      cases hu
    rw [update_of_ne hup] at hu
    by_cases huw : u = w
    · subst huw
      rw [update_self, hto'] at hu
      exact h.same u u' t' hu
    · rw [update_of_ne huw] at hu
      exact h.same u u' t' hu
  have hone := h.once u
  have h₁ := tally_update (View.takes u) V w v'
  have h₂ := tally_update (View.takes u) (update V w v') p v
  have hw' : View.takes u v' = View.takes u (V w) := by
    unfold View.takes
    rw [hto']
  have hvz : View.takes u v = 0 := by simp [View.takes, hto]
  rw [update_of_ne hpw] at h₂
  have hrec : recorded L u (update (update V w v') p v u) = recorded L u (V u) := by
    unfold recorded
    rw [htarget]
  rw [htarget, hrec, ← hone]
  by_cases huw : u = w
  · subst huw
    have hpt : View.takes u (V p) = 1 := by simp [View.takes, hp]
    rw [update_of_ne (Ne.symm hpw), update_self, hsem']
    omega
  have hpt : View.takes u (V p) = 0 := by simp [View.takes, hp, Ne.symm huw]
  have hsems : (update (update V w v') p v u).sem = (V u).sem := by
    by_cases hup : u = p
    · subst hup
      rw [update_self, hsem]
    · rw [update_of_ne hup, update_of_ne huw]
  rw [hsems]
  omega

theorem pass (h : Handoff L V) (hp : 0 < (V p).sem) (hv : v.target = none) (hto : v.wakes = (V p).wakes)
    (hsem : v.sem = (V p).sem - 1) : Handoff L (update V p v) := by
  obtain ⟨hone, -, hnot, hno⟩ := h.sem_of_posted hp
  have htakes : ∀ w, tally (View.takes w) (update V p v) = tally (View.takes w) V := fun w =>
    tally_update_eq (by unfold View.takes; rw [hto])
  refine ⟨fun t w hw => ?_, fun u w t hu => ?_, fun w => ?_⟩
  · have hwp : w ≠ p := by
      rintro rfl
      exact hnot t hw
    rw [update_of_ne hwp]
    exact h.listed t w hw
  · have hu' : (V u).wakes = some (w, t) := by
      by_cases hup : u = p
      · subst hup
        rwa [update_self, hto] at hu
      · rwa [update_of_ne hup] at hu
    have hwp : w ≠ p := by
      rintro rfl
      exact hno u t hu'
    rw [update_of_ne hwp]
    exact h.same u w t hu'
  · rw [htakes]
    by_cases hwp : w = p
    · subst hwp
      have hzero : tally (View.takes w) V = 0 := by
        refine eq_zero_iff.2 fun u => if_neg fun hu => ?_
        obtain ⟨⟨w', t⟩, hwakes, rfl⟩ := map_eq_some_iff.1 hu
        exact hno u t hwakes
      rw [update_self, hzero]
      simp [recorded, hv, hsem, hone]
    · rw [update_of_ne hwp]
      exact h.once w

end Handoff

end Waiting
