import Mathlib

/-!
# Runs of a step function

`step s a` is the state after the action `a`, or `none` if `a` cannot happen in `s`. A run is a list of
actions, and goes as far as they can happen. `Along G` says that every action of a run meets `G` in the state
it starts from, `Always P` that `P` holds in every state of the run, the first and the last included, `Each P` that
it holds of every step.
-/

namespace Steps
variable {σ α : Type} (step : σ → α → Option σ)

def run : σ → List α → Option σ
  | s, [] => some s
  | s, a :: as => (step s a).bind fun s' => run s' as

def Along (G : σ → α → Prop) : σ → List α → Prop
  | _, [] => True
  | s, a :: as => ∀ s', step s a = some s' → G s a ∧ Along G s' as

def Always (P : σ → Prop) (s : σ) (as : List α) : Prop :=
  ∀ pre, pre <+: as → ∀ s', run step s pre = some s' → P s'

/-- Every step of a run is one that `P` allows. -/
def Each (P : σ → α → σ → Prop) : σ → List α → Prop
  | _, [] => True
  | s, a :: as => ∀ s', step s a = some s' → P s a s' ∧ Each P s' as

variable {step} {I P : σ → Prop} {G : σ → α → Prop} {s s' : σ} {a : α} {as : List α}

theorem run_cons : run step s (a :: as) = some s' ↔ ∃ s₁, step s a = some s₁ ∧ run step s₁ as = some s' :=
  Option.bind_eq_some_iff

theorem Along.cons (hG : G s a) (hs : step s a = some s') (h : Along step G s' as) : Along step G s (a :: as) := by
  intro s₁ hs₁
  cases hs.symm.trans hs₁
  exact ⟨hG, h⟩

theorem along_cons (hs : step s a = some s') : Along step G s (a :: as) ↔ G s a ∧ Along step G s' as :=
  ⟨fun h => h s' hs, fun h => .cons h.1 hs h.2⟩

theorem Along.and_mem {Q : α → Prop} (h : Along step G s as) (hQ : ∀ a ∈ as, Q a) :
    Along step (fun s a => Q a ∧ G s a) s as := by
  induction as generalizing s with
  | nil => trivial
  | cons a as ih =>
    obtain ⟨ha, has⟩ := List.forall_mem_cons.1 hQ
    intro s₁ hs₁
    obtain ⟨hG, h⟩ := h s₁ hs₁
    exact ⟨⟨ha, hG⟩, ih h has⟩

theorem Always.start (h : Always step P s as) : P s := h [] (List.nil_prefix) s rfl

theorem Always.last (h : Always step P s as) (hrun : run step s as = some s') : P s' :=
  h as (List.prefix_refl as) s' hrun

theorem always_cons : Always step P s (a :: as) ↔ P s ∧ ∀ s', step s a = some s' → Always step P s' as := by
  constructor
  · intro h
    refine ⟨h.start, fun s₁ hs₁ pre hpre s' hrun => ?_⟩
    exact h (a :: pre) (List.cons_prefix_cons.2 ⟨rfl, hpre⟩) s' (run_cons.2 ⟨s₁, hs₁, hrun⟩)
  rintro ⟨h0, h⟩ pre hpre s' hrun
  cases pre with
  | nil => cases hrun; exact h0
  | cons b pre =>
    obtain ⟨rfl, htl⟩ := List.cons_prefix_cons.1 hpre
    obtain ⟨s₁, hs₁, hrun⟩ := run_cons.1 hrun
    exact h s₁ hs₁ pre htl s' hrun

/-- What holds at first and is kept by every step that meets `G` holds all along a run that meets `G`. -/
theorem Along.always (hstep : ∀ s a s', I s → G s a → step s a = some s' → I s') (h : Along step G s as)
    (hI : I s) : Always step I s as := by
  induction as generalizing s with
  | nil =>
    rintro pre hpre s' hrun
    rw [List.prefix_nil.1 hpre] at hrun
    cases hrun
    exact hI
  | cons a as ih =>
    refine always_cons.2 ⟨hI, fun s₁ hs₁ => ?_⟩
    obtain ⟨hG, h⟩ := h s₁ hs₁
    exact ih h (hstep s a s₁ hI hG hs₁)

theorem Along.each {Q : σ → α → σ → Prop} (hstep : ∀ s a s', I s → G s a → step s a = some s' → I s' ∧ Q s a s')
    (h : Along step G s as) (hI : I s) : Each step Q s as := by
  induction as generalizing s with
  | nil => trivial
  | cons a as ih =>
    intro s₁ hs₁
    obtain ⟨hG, h⟩ := h s₁ hs₁
    obtain ⟨hI₁, hQ⟩ := hstep s a s₁ hI hG hs₁
    exact ⟨hQ, ih h hI₁⟩

theorem Always.mono {Q : σ → Prop} (h : Always step P s as) (hPQ : ∀ s, P s → Q s) : Always step Q s as :=
  fun pre hpre s' hrun => hPQ s' (h pre hpre s' hrun)

theorem always_of_step (hstep : ∀ s a s', I s → step s a = some s' → I s') (hI : I s) :
    Always step I s as := by
  have h : Along step (fun _ _ => True) s as := by
    induction as generalizing s with
    | nil => trivial
    | cons a as ih => exact fun s₁ hs₁ => ⟨trivial, ih (hstep s a s₁ hI hs₁)⟩
  exact h.always (fun s a s' hI _ => hstep s a s' hI) hI

/-- What a run brings about (`Q`) was there at the start, or a step brought it about in a state with `W`. -/
theorem Along.once {β : Type} {Q W : σ → β → Prop} {x : β}
    (hstep : ∀ s a s', I s → G s a → step s a = some s' → I s' ∧ (Q s' x → Q s x ∨ W s' x))
    (h : Along step G s as) (hI : I s) {pre : List α} (hpre : pre <+: as) (hrun : run step s pre = some s')
    (hQ : Q s' x) : Q s x ∨ ∃ pre', pre' <+: pre ∧ ∃ s₁, run step s pre' = some s₁ ∧ W s₁ x := by
  induction pre generalizing s as with
  | nil =>
    cases hrun
    exact .inl hQ
  | cons a pre ih =>
    obtain ⟨s₁, hs₁, hrun⟩ := run_cons.1 hrun
    obtain ⟨as', rfl⟩ := hpre
    obtain ⟨hG, h⟩ := h s₁ hs₁
    obtain ⟨hI₁, hQ₁⟩ := hstep s a s₁ hI hG hs₁
    rcases ih h hI₁ (List.prefix_append pre as') hrun with hQ' | ⟨pre', hpre', s₂, hrun', hW⟩
    · rcases hQ₁ hQ' with hQ' | hW
      · exact .inl hQ'
      · exact .inr ⟨[a], ⟨pre, rfl⟩, s₁, run_cons.2 ⟨s₁, hs₁, rfl⟩, hW⟩
    · exact .inr ⟨a :: pre', List.cons_prefix_cons.2 ⟨rfl, hpre'⟩, s₂, run_cons.2 ⟨s₁, hs₁, hrun'⟩, hW⟩

/-- `G` is exact: with the invariant `I`, a step keeps it if it meets `G` and breaks `P` if it does not. -/
theorem always_iff_along (hP : ∀ s, I s → P s)
    (hgood : ∀ s a s', I s → G s a → step s a = some s' → I s')
    (hbad : ∀ s a s', I s → ¬ G s a → step s a = some s' → ¬ P s') (hI : I s) :
    Always step P s as ↔ Along step G s as := by
  refine ⟨fun h => ?_, fun h => (h.always hgood hI).mono hP⟩
  induction as generalizing s with
  | nil => trivial
  | cons a as ih =>
    intro s₁ hs₁
    obtain ⟨-, h⟩ := always_cons.1 h
    have hG : G s a := by
      by_contra hG
      exact hbad s a s₁ hI hG hs₁ (h s₁ hs₁).start
    exact ⟨hG, ih (hgood s a s₁ hI hG hs₁) (h s₁ hs₁)⟩

/-- If in a state with measure `i` either `P` holds or some step leads to a smaller one, `P` is reached. -/
theorem reaches_of_progress {ι : Type} [Preorder ι] [WellFoundedLT ι] {J : ι → σ → Prop}
    (hstep : ∀ i s, J i s → P s ∨ ∃ j < i, ∃ a s', step s a = some s' ∧ J j s') {i : ι} (hJ : J i s) :
    ∃ as s', run step s as = some s' ∧ P s' := by
  induction i using WellFoundedLT.induction generalizing s with
  | ind i ih =>
    rcases hstep i s hJ with hP | ⟨j, hj, a, s₁, hs₁, hJ₁⟩
    · exact ⟨[], s, rfl, hP⟩
    · obtain ⟨as, s', hrun, hP⟩ := ih j hj hJ₁
      exact ⟨a :: as, s', run_cons.2 ⟨s₁, hs₁, hrun⟩, hP⟩

end Steps
