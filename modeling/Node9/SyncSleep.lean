import Node9.SyncRun

/-!
# Sleep and interrupts

`Posted`: a process that is killed while a `Rendez` records it is about to be readied by the process that has
killed it. So whoever is killed goes on to the check at the end of its `Sleep`. `Due`: from then on there is no way
out of a `Sleep` but with `Eintr`.
-/

namespace Node9.Sync
open Waiting Function Option

variable {τ : Type}

/-- On the way to take `t` off the `Rendez` `r`. -/
def Pc.seeks : Pc τ → Option (τ × Nat)
  | swiproc t _ (.lockR r) | swiproc t _ (.test r) => some (t, r)
  | _ => none

/-- `p->r` is set. -/
def Pc.asleep : Pc τ → Option Nat
  | sleep r .unlockP | sleep r .block => some r
  | _ => none

def Pc.sleeps : Pc τ → Bool
  | sleep _ _ => true
  | _ => false

structure Posted (s : State τ) : Prop where
  r : ∀ p r, (s.proc p).pc.asleep = some r → s.r p = some r
  seeks : ∀ t r, s.killed t = true → s.rendez r = some t → ∃ u, (s.proc u).pc.seeks = some (t, r)

/-- What `Posted` is about, but for the processes. -/
structure Calm (s s' : State τ) : Prop where
  pc : ∀ u, (s'.proc u).pc = (s.proc u).pc
  r : s'.r = s.r
  killed : s'.killed = s.killed
  rendez : s'.rendez = s.rendez

variable [DecidableEq τ] {s s' : State τ} {p : τ} {pc : Pc τ} {v : Pc τ × List Hold}

theorem calm_lock {l : Spin τ} (h : s.lock p l = some s') : Calm s s' := by
  obtain ⟨-, rfl⟩ := lock_some h
  exact ⟨fun _ => rfl, rfl, rfl, rfl⟩

omit [DecidableEq τ] in
theorem Calm.refl (s : State τ) : Calm s s := ⟨fun _ => rfl, rfl, rfl, rfl⟩

theorem calm_setp {w : τ} {P : Proc τ} (h : P.pc = (s.proc w).pc) : Calm s (s.setp w P) := by
  refine ⟨fun u => ?_, rfl, rfl, rfl⟩
  by_cases hu : u = w
  · subst hu
    simp [State.setp, h]
  · simp [State.setp, hu]

theorem calm_osready (w : τ) : Calm s (s.osready w) := calm_setp rfl

theorem calm_osblock (h : s.osblock p = some s') : Calm s s' := by
  obtain ⟨-, rfl⟩ := osblock_some h
  exact calm_setp rfl

theorem pc_ret (u : τ) : ((s.ret p v).proc u).pc = if u = p then v.1 else (s.proc u).pc := by
  by_cases hu : u = p
  · subst hu
    simp [State.ret, State.setp]
  · simp [State.ret, State.setp, hu]

namespace Posted

theorem ret {s₁ : State τ} (h : Posted s) (hs : Calm s s₁) (hseeks : v.1.seeks = (s.proc p).pc.seeks)
    (hasleep : v.1.asleep = none ∨ v.1.asleep = (s.proc p).pc.asleep) : Posted (s₁.ret p v) := by
  have hpc : ∀ u, ((s₁.ret p v).proc u).pc = if u = p then v.1 else (s.proc u).pc := by
    intro u
    rw [pc_ret, hs.pc]
  refine ⟨fun u r hu => ?_, fun t r hk hr => ?_⟩
  · change s₁.r u = some r
    rw [hs.r]
    rw [hpc] at hu
    split at hu
    case isTrue hup =>
      subst hup
      rcases hasleep with hnone | hsame
      · rw [hnone] at hu
        cases hu
      · exact h.r u r (hsame ▸ hu)
    case isFalse => exact h.r u r hu
  change s₁.killed t = true at hk
  change s₁.rendez r = some t at hr
  rw [hs.killed] at hk
  rw [hs.rendez] at hr
  obtain ⟨u, hu⟩ := h.seeks t r hk hr
  refine ⟨u, ?_⟩
  rw [hpc]
  split
  case isTrue hup =>
    subst hup
    rw [hseeks]
    exact hu
  case isFalse => exact hu

theorem goto {s₁ : State τ} (h : Posted s) (hs : Calm s s₁) (hseeks : pc.seeks = (s.proc p).pc.seeks)
    (hasleep : pc.asleep = none ∨ pc.asleep = (s.proc p).pc.asleep) : Posted (s₁.goto p pc) :=
  h.ret (v := (pc, [])) hs hseeks hasleep

omit [DecidableEq τ] in
/-- Fewer are killed, or fewer are recorded. -/
theorem less {s₁ : State τ} (h : Posted s₁) (hproc : s'.proc = s₁.proc) (hr : s'.r = s₁.r)
    (hk : ∀ t, s'.killed t = true → s₁.killed t = true)
    (hrendez : ∀ r t, s'.rendez r = some t → s₁.rendez r = some t) : Posted s' := by
  refine ⟨fun u r hu => ?_, fun t r hkt hrt => ?_⟩
  · rw [hr]
    exact h.r u r (hproc ▸ hu)
  · rw [hproc]
    exact h.seeks t r (hk t hkt) (hrendez r t hrt)

end Posted

theorem of_update {α β : Type} [DecidableEq α] {f : α → β} {a b : α} {v w : β} (hv : v ≠ w)
    (h : update f a v b = w) : f b = w := by
  by_cases hb : b = a
  · rw [hb, update_self] at h
    exact absurd h hv
  · rwa [update_of_ne hb] at h

/-- `p` goes on outside of `Sleep`, and takes nobody off a `Rendez`. -/
inductive Quiet (s : State τ) (p : τ) : State τ → Prop
  | ret {s₁ : State τ} {v : Pc τ × List Hold} (calm : Calm s s₁) (seeks : v.1.seeks = (s.proc p).pc.seeks)
      (awake : v.1.sleeps = false) : Quiet s p (s₁.ret p v)

theorem Quiet.goto {s₁ : State τ} (hs : Calm s s₁) (hseeks : pc.seeks = (s.proc p).pc.seeks)
    (hawake : pc.sleeps = false) : Quiet s p (s₁.goto p pc) := .ret (v := (pc, [])) hs hseeks hawake

theorem Quiet.posted (hq : Quiet s p s') (h : Posted s) : Posted s' := by
  cases hq with
  | @ret s₁ v hs hseeks hawake =>
    refine h.ret hs hseeks (.inl ?_)
    cases hv : v.1 with
    | sleep r a =>
      rw [hv] at hawake
      cases hawake
    | _ => rfl

theorem qlock_quiet {c : LkFrom} {a : Lk} (hpc : (s.proc p).pc = .lk c a) (hs : qlock s p c a = some s') :
    Quiet s p s' := by
  have hseeks : none = (s.proc p).pc.seeks := (congrArg Pc.seeks hpc).symm
  have hret : (c.ret : Pc τ × List Hold).1.seeks = none ∧ (c.ret : Pc τ × List Hold).1.sleeps = false := by
    cases c <;> exact ⟨rfl, rfl⟩
  cases a with
  | lock =>
    obtain ⟨s₁, hl, rfl⟩ := map_eq_some_iff.1 hs
    exact .goto (calm_lock hl) hseeks rfl
  | test =>
    dsimp only [qlock] at hs
    split at hs
    all_goals
      cases hs
      exact .goto ⟨fun _ => rfl, rfl, rfl, rfl⟩ hseeks rfl
  | got =>
    cases hs
    exact .ret ⟨fun _ => rfl, rfl, rfl, rfl⟩ (hret.1.trans hseeks) hret.2
  | queued =>
    cases hs
    exact .goto ⟨fun _ => rfl, rfl, rfl, rfl⟩ hseeks rfl
  | block =>
    obtain ⟨s₁, hb, rfl⟩ := map_eq_some_iff.1 hs
    exact .ret (calm_osblock hb) (hret.1.trans hseeks) hret.2

theorem canqlock_quiet {c : CanFrom} {a : Can} (hpc : (s.proc p).pc = .can c a) : Quiet s p (canqlock s p c a) := by
  have hseeks : none = (s.proc p).pc.seeks := (congrArg Pc.seeks hpc).symm
  have hret : ∀ ok, (c.ret ok : Pc τ × List Hold).1.seeks = none ∧ (c.ret ok : Pc τ × List Hold).1.sleeps = false := by
    intro ok
    cases c <;> cases ok <;> exact ⟨rfl, rfl⟩
  cases a with
  | lock =>
    dsimp only [canqlock]
    cases hl : s.lock p (.use c.lock) with
    | some s₁ => exact .goto (calm_lock hl) hseeks rfl
    | none => exact .ret (Calm.refl s) ((hret false).1.trans hseeks) (hret false).2
  | test =>
    dsimp only [canqlock]
    split
    all_goals exact .goto ⟨fun _ => rfl, rfl, rfl, rfl⟩ hseeks rfl
  | no => exact .ret ⟨fun _ => rfl, rfl, rfl, rfl⟩ ((hret false).1.trans hseeks) (hret false).2
  | got => exact .ret ⟨fun _ => rfl, rfl, rfl, rfl⟩ ((hret true).1.trans hseeks) (hret true).2

theorem qunlock_quiet {c : UnFrom} {a : Un τ} (hpc : (s.proc p).pc = .un c a) (hs : qunlock s p c a = some s') :
    Quiet s p s' := by
  have hseeks : none = (s.proc p).pc.seeks := (congrArg Pc.seeks hpc).symm
  have hret : (c.ret : Pc τ × List Hold).1.seeks = none ∧ (c.ret : Pc τ × List Hold).1.sleeps = false := by
    cases c <;> exact ⟨rfl, rfl⟩
  cases a with
  | lock =>
    obtain ⟨s₁, hl, rfl⟩ := map_eq_some_iff.1 hs
    exact .goto (calm_lock hl) hseeks rfl
  | pop =>
    dsimp only [qunlock] at hs
    split at hs
    all_goals
      cases hs
      exact .goto ⟨fun _ => rfl, rfl, rfl, rfl⟩ hseeks rfl
  | popped w =>
    cases hs
    exact .goto ⟨fun _ => rfl, rfl, rfl, rfl⟩ hseeks rfl
  | ready w =>
    cases hs
    exact .ret (calm_osready w) (hret.1.trans hseeks) hret.2
  | freed =>
    cases hs
    exact .ret ⟨fun _ => rfl, rfl, rfl, rfl⟩ (hret.1.trans hseeks) hret.2

theorem rw_quiet {l : Nat} {a : Rw} (hpc : (s.proc p).pc = .rw l a) (hs : rw s p l a = some s') : Quiet s p s' := by
  have hseeks : none = (s.proc p).pc.seeks := (congrArg Pc.seeks hpc).symm
  cases a with
  | rlockL | runlockL =>
    obtain ⟨s₁, hl, rfl⟩ := map_eq_some_iff.1 hs
    exact .goto (calm_lock hl) hseeks rfl
  | rlockInc | rlockUn | runlockUn =>
    cases hs
    exact .goto ⟨fun _ => rfl, rfl, rfl, rfl⟩ hseeks rfl
  | runlockDec =>
    cases hs
    refine .goto ⟨fun _ => rfl, rfl, rfl, rfl⟩ (Eq.trans ?_ hseeks) ?_
    all_goals split <;> rfl

theorem pc_goto (u : τ) : ((s.goto p pc).proc u).pc = if u = p then pc else (s.proc u).pc := pc_ret (v := (pc, [])) u

theorem sleep_posted {r : Nat} {f : Bool} {a : Sl} (h : Posted s) (hpc : (s.proc p).pc = .sleep r a)
    (hs : sleep s p r f a = some s') : Posted s' := by
  have hseeks : none = (s.proc p).pc.seeks := (congrArg Pc.seeks hpc).symm
  cases a with
  | lockP | lockR | relock =>
    obtain ⟨s₁, hl, rfl⟩ := map_eq_some_iff.1 hs
    exact h.goto (calm_lock hl) hseeks (.inl rfl)
  | test =>
    dsimp only [sleep] at hs
    split at hs
    · cases hs
      exact h.goto (Calm.refl s) hseeks (.inl rfl)
    case isFalse hk =>
      have halive : s.killed p = false := by
        cases hb : s.killed p with
        | true => simp [hb] at hk
        | false => rfl
      split at hs
      · cases hs
        exact h.goto (Calm.refl s) hseeks (.inl rfl)
      cases hs
      have hsame : Posted (s.goto p (.sleep r .recorded)) := h.goto (Calm.refl s) hseeks (.inl rfl)
      refine ⟨hsame.r, fun t r' hkt hr' => ?_⟩
      change update s.rendez r (some p) r' = some t at hr'
      by_cases heq : r' = r
      · rw [heq, update_self] at hr'
        cases hr'
        exact absurd (halive.symm.trans hkt) Bool.false_ne_true
      · rw [update_of_ne heq] at hr'
        exact hsame.seeks t r' hkt hr'
  | panic => cases hs
  | stay | recorded | raise | done =>
    cases hs
    exact h.goto ⟨fun _ => rfl, rfl, rfl, rfl⟩ hseeks (.inl rfl)
  | unlockP =>
    cases hs
    exact h.goto ⟨fun _ => rfl, rfl, rfl, rfl⟩ hseeks (.inr (congrArg Pc.asleep hpc).symm)
  | note =>
    cases hs
    have hsame : Posted (s.goto p (.sleep r .recorded)) := h.goto (Calm.refl s) hseeks (.inl rfl)
    refine ⟨fun u r' hu => ?_, fun t r' hk hr => ?_⟩
    · change update s.r p (some r) u = some r'
      rw [pc_goto] at hu
      by_cases hup : u = p
      · rw [if_pos hup] at hu
        cases hu
        rw [hup, update_self]
      · rw [if_neg hup] at hu
        rw [update_of_ne hup]
        exact h.r u r' hu
    · obtain ⟨u, hu⟩ := hsame.seeks t r' hk hr
      refine ⟨u, ?_⟩
      rw [pc_goto] at hu ⊢
      split at hu
      · cases hu
      case isFalse hup =>
        rw [if_neg hup]
        exact hu
  | clear =>
    cases hs
    have hsame : Posted (s.goto p (.sleep r .check)) := h.goto (Calm.refl s) hseeks (.inl rfl)
    refine ⟨fun u r' hu => ?_, hsame.seeks⟩
    change update s.r p none u = some r'
    rw [pc_goto] at hu
    by_cases hup : u = p
    · rw [if_pos hup] at hu
      cases hu
    · rw [if_neg hup] at hu
      rw [update_of_ne hup]
      exact h.r u r' hu
  | block =>
    obtain ⟨s₁, hb, rfl⟩ := map_eq_some_iff.1 hs
    exact h.goto (calm_osblock hb) hseeks (.inl rfl)
  | check =>
    dsimp only [sleep] at hs
    split at hs
    · cases hs
      have hsame : Posted (s.goto p (.sleep r .raise)) := h.goto (Calm.refl s) hseeks (.inl rfl)
      exact hsame.less rfl rfl (fun _ => of_update Bool.false_ne_true) fun _ _ => id
    · cases hs
      exact h.goto (Calm.refl s) hseeks (.inl rfl)

theorem wakeup_posted {r : Nat} {a : Wk τ} (h : Posted s) (hpc : (s.proc p).pc = .wakeup r a)
    (hs : wakeup s p r a = some s') : Posted s' := by
  have hseeks : none = (s.proc p).pc.seeks := (congrArg Pc.seeks hpc).symm
  cases a with
  | lock =>
    obtain ⟨s₁, hl, rfl⟩ := map_eq_some_iff.1 hs
    exact h.goto (calm_lock hl) hseeks (.inl rfl)
  | take =>
    dsimp only [wakeup] at hs
    split at hs
    case h_1 w hr =>
      cases hs
      have hsame : Posted (s.goto p (.wakeup r (.ready w))) := h.goto (Calm.refl s) hseeks (.inl rfl)
      exact hsame.less rfl rfl (fun _ => id) fun _ t => of_update (some_ne_none t).symm
    case h_2 =>
      cases hs
      exact h.goto (Calm.refl s) hseeks (.inl rfl)
  | ready w =>
    cases hs
    exact h.goto (calm_setp rfl) hseeks (.inl rfl)
  | unlock =>
    cases hs
    exact h.goto ⟨fun _ => rfl, rfl, rfl, rfl⟩ hseeks (.inl rfl)

theorem notkilled_posted {a : Nk} (h : Posted s) (hpc : (s.proc p).pc = .notkilled a)
    (hs : notkilled s p a = some s') : Posted s' := by
  have hseeks : none = (s.proc p).pc.seeks := (congrArg Pc.seeks hpc).symm
  cases a with
  | lock =>
    obtain ⟨s₁, hl, rfl⟩ := map_eq_some_iff.1 hs
    exact h.goto (calm_lock hl) hseeks (.inl rfl)
  | clear =>
    cases hs
    have hsame : Posted (s.goto p (.notkilled .unlock)) := h.goto (Calm.refl s) hseeks (.inl rfl)
    exact hsame.less rfl rfl (fun _ => of_update Bool.false_ne_true) fun _ _ => id
  | unlock =>
    cases hs
    exact h.goto ⟨fun _ => rfl, rfl, rfl, rfl⟩ hseeks (.inl rfl)

variable [Fintype τ] {Q : QId → List τ} {t : τ} {i : Bool}

theorem Posted.recorded {r : Nat} (h : Posted s) (hw : Waits Q s) (hsp : Spins s)
    (hpc : (s.proc p).pc = .swiproc t i .kill) (hr : s.rendez r = some t) : s.r t = some r := by
  have ht : (s.proc t).pc.target = some (.r r) := hw.handoff.listed (.r r) t (by simp [lists, hr])
  have hp : .rlock t ∈ (s.proc p).pc.held p := by
    rw [hpc]
    exact List.mem_singleton_self _
  have hne : .rlock t ∉ (s.proc t).pc.held t := by
    intro hmem
    rw [hsp.unique hmem hp, hpc] at ht
    cases ht
  refine h.r t r ?_
  cases hpt : (s.proc t).pc with
  | sleep r' a =>
    rw [hpt] at ht hne
    cases a with
    | recorded | note => exact absurd (by simp [Pc.held]) hne
    | unlockP | block =>
      cases ht
      rfl
    | _ => cases ht
  | lk c a =>
    rw [hpt] at ht
    cases a <;> cases ht
  | _ =>
    rw [hpt] at ht
    cases ht

theorem swiproc_posted {a : Sw} (h : Posted s) (hw : Waits Q s) (hsp : Spins s)
    (hpc : (s.proc p).pc = .swiproc t i a) (hs : swiproc s p t i a = some s') : Posted s' := by
  have hseeks := (congrArg Pc.seeks hpc).symm
  cases a with
  | lockP | lockR r | lockS =>
    obtain ⟨s₁, hl, rfl⟩ := map_eq_some_iff.1 hs
    exact h.goto (calm_lock hl) hseeks (.inl rfl)
  | kill =>
    cases hs
    refine ⟨fun u r hu => ?_, fun t' r hk hr => ?_⟩
    · rw [pc_goto] at hu
      split at hu
      · cases hsr : s.r t <;> rw [hsr] at hu <;> cases hu
      · exact h.r u r hu
    by_cases ht : t' = t
    · subst ht
      refine ⟨p, ?_⟩
      rw [pc_goto, if_pos rfl, h.recorded hw hsp hpc hr]
      rfl
    have hold : s.killed t' = true := by
      change (if i then s.killed else update s.killed t true) t' = true at hk
      cases i with
      | true => exact hk
      | false => exact (update_of_ne ht _ _).symm.trans hk
    obtain ⟨u, hu⟩ := h.seeks t' r hold hr
    refine ⟨u, ?_⟩
    rw [pc_goto, if_neg]
    · exact hu
    · rintro rfl
      cases hseeks.trans hu
  | test r =>
    dsimp only [swiproc] at hs
    split at hs
    case isTrue hr =>
      cases hs
      refine ⟨fun u r' hu => ?_, fun t' r' hk hr' => ?_⟩
      · rw [pc_goto] at hu
        split at hu
        · cases hu
        · exact h.r u r' hu
      change update s.rendez r none r' = some t' at hr'
      by_cases heq : r' = r
      · rw [heq, update_self] at hr'
        cases hr'
      rw [update_of_ne heq] at hr'
      obtain ⟨u, hu⟩ := h.seeks t' r' hk hr'
      refine ⟨u, ?_⟩
      rw [pc_goto, if_neg]
      · exact hu
      · rintro rfl
        cases hseeks.trans hu
        exact heq rfl
    case isFalse hr =>
      cases hs
      refine ⟨fun u r' hu => ?_, fun t' r' hk hr' => ?_⟩
      · rw [pc_goto] at hu
        split at hu
        · cases hu
        · exact h.r u r' hu
      obtain ⟨u, hu⟩ := h.seeks t' r' hk hr'
      refine ⟨u, ?_⟩
      rw [pc_goto, if_neg]
      · exact hu
      · rintro rfl
        cases hseeks.trans hu
        exact hr hr'
  | ready r =>
    cases hs
    exact h.goto (calm_setp rfl) hseeks (.inl rfl)
  | host =>
    dsimp only [swiproc] at hs
    split at hs
    all_goals
      cases hs
      exact h.goto ⟨fun _ => rfl, rfl, rfl, rfl⟩ hseeks (.inl rfl)
  | unlockR r | unlockP | unlockH | unlockS =>
    cases hs
    exact h.goto ⟨fun _ => rfl, rfl, rfl, rfl⟩ hseeks (.inl rfl)

omit [Fintype τ] in
theorem call_posted {c : Call τ} (h : Posted s) (hpc : (s.proc p).pc = .idle) (hs : call s p c = some s') :
    Posted s' := by
  have hseeks : c.enter.seeks = (s.proc p).pc.seeks := Eq.trans (by cases c <;> rfl) (congrArg Pc.seeks hpc).symm
  have hasleep : c.enter.asleep = none := by cases c <;> rfl
  unfold call at hs
  split at hs
  · cases hs
    exact h.goto (Calm.refl s) hseeks (.inl hasleep)
  case h_2 hd hundo =>
    split at hs
    · cases hs
      have hgoto : Posted (State.goto (s.setp p { s.proc p with has := (s.proc p).has.erase hd }) p c.enter) :=
        h.goto (calm_setp rfl) hseeks (.inl hasleep)
      have heq : State.goto (s.setp p { s.proc p with has := (s.proc p).has.erase hd }) p c.enter =
          s.setp p { s.proc p with pc := c.enter, has := (s.proc p).has.erase hd } := by
        simp [State.goto, State.setp]
      rwa [heq] at hgoto
    · cases hs

theorem step_posted {a : Act τ} (h : Posted s) (hw : Waits Q s) (hsp : Spins s) (hs : step s a = some s') :
    Posted s' := by
  cases a with
  | call p c =>
    dsimp only [step] at hs
    split at hs
    case h_1 hpc => exact call_posted h hpc hs
    case h_2 => cases hs
  | go p f =>
    dsimp only [step, go] at hs
    split at hs
    case h_1 => cases hs
    case h_2 hpc => exact (qlock_quiet hpc hs).posted h
    case h_3 hpc =>
      cases hs
      exact (canqlock_quiet hpc).posted h
    case h_4 hpc => exact (qunlock_quiet hpc hs).posted h
    case h_5 hpc => exact (rw_quiet hpc hs).posted h
    case h_6 hpc => exact sleep_posted h hpc hs
    case h_7 hpc => exact wakeup_posted h hpc hs
    case h_8 hpc => exact swiproc_posted h hw hsp hpc hs
    case h_9 hpc => exact notkilled_posted h hpc hs
  | syscall p v =>
    dsimp only [step] at hs
    split at hs
    · cases hs
      exact ⟨h.r, h.seeks⟩
    · cases hs

/-- `swiproc(t, 0)` posts the interrupt. -/
def Act.Posts (s : State τ) (t : τ) : Act τ → Prop
  | .go u _ => (s.proc u).pc = .swiproc t false .kill
  | _ => False

/-- `t` goes through `notkilled`. -/
def Act.Clears (s : State τ) (t : τ) : Act τ → Prop
  | .go u _ => u = t ∧ (s.proc t).pc = .notkilled .clear
  | _ => False

/-- `t` is at the end of a `Sleep`. -/
def Act.Checks (s : State τ) (t : τ) : Act τ → Prop
  | .go u _ => u = t ∧ ∃ r, (s.proc t).pc = .sleep r .check
  | _ => False

/-- `t` raises `Eintr`. -/
def Raises (s : State τ) (t : τ) : Prop := ∃ r, (s.proc t).pc = .sleep r .raise

/-- `t` comes out of a `Sleep`. -/
def Act.Returns (s : State τ) (t : τ) (a : Act τ) : Prop :=
  (s.proc t).pc.sleeps = true ∧ ∃ s', step s a = some s' ∧ (s'.proc t).pc.sleeps = false

section
omit [Fintype τ]

theorem posts_killed {a : Act τ} (hs : step s a = some s') (ha : a.Posts s t) : s'.killed t = true := by
  cases a with
  | go u f =>
    have hpc : (s.proc u).pc = .swiproc t false .kill := ha
    dsimp only [step, go] at hs
    rw [hpc] at hs
    cases hs
    exact update_self _ _ _
  | call p c => cases ha
  | syscall p v => cases ha

theorem checks_raises {a : Act τ} (hs : step s a = some s') (hk : s.killed t = true) (ha : a.Checks s t) :
    Raises s' t := by
  cases a with
  | go u f =>
    obtain ⟨rfl, r, hpc⟩ := ha
    dsimp only [step, go] at hs
    rw [hpc] at hs
    dsimp only [sleep] at hs
    rw [hk, Bool.true_or, if_pos rfl] at hs
    cases hs
    exact ⟨r, by rw [pc_goto, if_pos rfl]⟩
  | call p c => cases ha
  | syscall p v => cases ha

/-! ### The way out of a `Sleep` -/

/-- `p` has come to `pc`, and nobody else anywhere. An interrupt is only taken back by who goes through `notkilled`, or
is at the end of a `Sleep`. -/
structure Went (s s' : State τ) (p : τ) (pc : Pc τ) : Prop where
  pc : ∀ u, (s'.proc u).pc = if u = p then pc else (s.proc u).pc
  killed : ∀ t, s.killed t = true → s'.killed t = true ∨
    t = p ∧ ((s.proc p).pc = .notkilled .clear ∨ ∃ r, (s.proc p).pc = .sleep r .check)

/-- `pc` is where `p` may come to in its next step. -/
structure Follows (s : State τ) (p : τ) (pc : Pc τ) : Prop where
  /-- only from the check of a process that is not killed -/
  done : ∀ r, pc = .sleep r .done → s.killed p = false
  raise : ∀ r, (s.proc p).pc = .sleep r .raise → pc.sleeps = false
  out : (s.proc p).pc.sleeps = true → pc.sleeps = false → ∃ r, (s.proc p).pc = .sleep r .raise ∨ (s.proc p).pc = .sleep r .done

theorem went_goto {s₁ : State τ} (h : ∀ u, (s₁.proc u).pc = (s.proc u).pc)
    (hk : ∀ t, s.killed t = true → s₁.killed t = true) : Went s (s₁.goto p pc) p pc :=
  ⟨fun u => by rw [pc_goto, h], fun t ht => .inl (hk t ht)⟩

theorem Calm.went {s₁ : State τ} (h : Calm s s₁) : Went s (s₁.goto p pc) p pc :=
  went_goto h.pc fun t ht => (congrFun h.killed t).trans ht

/-- a step outside of `Sleep` -/
def Awake (s s' : State τ) (p : τ) : Prop := ∃ pc, Went s s' p pc ∧ pc.sleeps = false

theorem Quiet.awake (h : Quiet s p s') : Awake s s' p := by
  obtain ⟨hs, -, hawake⟩ := h
  exact ⟨_, ⟨fun u => by rw [pc_ret, hs.pc], fun t ht => .inl ((congrFun hs.killed t).trans ht)⟩, hawake⟩

omit [DecidableEq τ] in
theorem follows_of_awake (hpc : (s.proc p).pc.sleeps = false) (h : pc.sleeps = false) : Follows s p pc := by
  refine ⟨?_, fun _ _ => h, fun hs => absurd (hpc.symm.trans hs) Bool.false_ne_true⟩
  rintro r rfl
  cases h

theorem wakeup_awake {r : Nat} {a : Wk τ} (hs : wakeup s p r a = some s') : Awake s s' p := by
  cases a with
  | lock =>
    obtain ⟨s₁, hl, rfl⟩ := map_eq_some_iff.1 hs
    exact ⟨_, (calm_lock hl).went, rfl⟩
  | take =>
    dsimp only [wakeup] at hs
    split at hs
    all_goals
      cases hs
      exact ⟨_, went_goto (fun _ => rfl) fun _ => id, rfl⟩
  | ready w =>
    cases hs
    exact ⟨_, (calm_osready w).went, rfl⟩
  | unlock =>
    cases hs
    exact ⟨_, went_goto (fun _ => rfl) fun _ => id, rfl⟩

theorem swiproc_awake {t' : τ} {a : Sw} (hs : swiproc s p t' i a = some s') : Awake s s' p := by
  cases a with
  | lockP | lockR r | lockS =>
    obtain ⟨s₁, hl, rfl⟩ := map_eq_some_iff.1 hs
    exact ⟨_, (calm_lock hl).went, rfl⟩
  | kill =>
    cases hs
    refine ⟨_, ⟨pc_goto, fun t hk => .inl ?_⟩, rfl⟩
    change (if i then s.killed else update s.killed t' true) t = true
    cases i with
    | true => exact hk
    | false =>
      by_cases heq : t = t'
      · rw [heq]
        exact update_self _ _ _
      · exact (update_of_ne heq _ _).trans hk
  | test r | host =>
    dsimp only [swiproc] at hs
    split at hs
    all_goals
      cases hs
      exact ⟨_, went_goto (fun _ => rfl) fun _ => id, rfl⟩
  | ready r =>
    cases hs
    exact ⟨_, (calm_osready t').went, rfl⟩
  | unlockR r | unlockP | unlockH | unlockS =>
    cases hs
    exact ⟨_, went_goto (fun _ => rfl) fun _ => id, rfl⟩

theorem notkilled_awake {a : Nk} (hpc : (s.proc p).pc = .notkilled a) (hs : notkilled s p a = some s') :
    Awake s s' p := by
  cases a with
  | lock =>
    obtain ⟨s₁, hl, rfl⟩ := map_eq_some_iff.1 hs
    exact ⟨_, (calm_lock hl).went, rfl⟩
  | clear =>
    cases hs
    refine ⟨_, ⟨pc_goto, fun t hk => ?_⟩, rfl⟩
    by_cases heq : t = p
    · exact .inr ⟨heq, .inl hpc⟩
    · exact .inl ((update_of_ne heq _ _).trans hk)
  | unlock =>
    cases hs
    exact ⟨_, went_goto (fun _ => rfl) fun _ => id, rfl⟩

theorem sleep_went {r : Nat} {f : Bool} {a : Sl} (hpc : (s.proc p).pc = .sleep r a) (hs : sleep s p r f a = some s') :
    ∃ pc, Went s s' p pc ∧ Follows s p pc := by
  have hraise : a ≠ .raise → ∀ {pc : Pc τ} r', (s.proc p).pc = .sleep r' .raise → pc.sleeps = false := by
    intro ha _ r' hr
    rw [hpc] at hr
    cases hr
    exact absurd rfl ha
  cases a with
  | lockP | lockR | relock =>
    obtain ⟨s₁, hl, rfl⟩ := map_eq_some_iff.1 hs
    exact ⟨_, (calm_lock hl).went, nofun, hraise nofun, nofun⟩
  | test =>
    dsimp only [sleep] at hs
    repeat' split at hs
    all_goals
      cases hs
      exact ⟨_, went_goto (fun _ => rfl) fun _ => id, nofun, hraise nofun, nofun⟩
  | panic => cases hs
  | stay | recorded | note | unlockP | clear =>
    cases hs
    exact ⟨_, went_goto (fun _ => rfl) fun _ => id, nofun, hraise nofun, nofun⟩
  | block =>
    obtain ⟨s₁, hb, rfl⟩ := map_eq_some_iff.1 hs
    exact ⟨_, (calm_osblock hb).went, nofun, hraise nofun, nofun⟩
  | check =>
    dsimp only [sleep] at hs
    split at hs
    case isTrue =>
      cases hs
      refine ⟨_, ⟨pc_goto, fun t ht => ?_⟩, nofun, hraise nofun, nofun⟩
      by_cases heq : t = p
      · exact .inr ⟨heq, .inr ⟨r, hpc⟩⟩
      · exact .inl ((update_of_ne heq _ _).trans ht)
    case isFalse hk =>
      cases hs
      rw [Bool.or_eq_true, not_or, Bool.not_eq_true] at hk
      exact ⟨_, went_goto (fun _ => rfl) fun _ => id, fun _ _ => hk.1, hraise nofun, nofun⟩
  | raise =>
    cases hs
    exact ⟨_, went_goto (fun _ => rfl) fun _ => id, nofun, fun _ _ => rfl, fun _ _ => ⟨r, .inl hpc⟩⟩
  | done =>
    cases hs
    exact ⟨_, went_goto (fun _ => rfl) fun _ => id, nofun, hraise nofun, fun _ _ => ⟨r, .inr hpc⟩⟩

/-- A step takes one process on, or none. -/
theorem step_went {a : Act τ} (hs : step s a = some s') :
    Calm s s' ∨ ∃ p pc, Went s s' p pc ∧ Follows s p pc ∧ ((s.proc p).pc = .idle ∨ ∃ f, a = .go p f) := by
  cases a with
  | call p c =>
    dsimp only [step] at hs
    split at hs
    case h_1 hpc =>
      have hc : ∀ r, (c.enter : Pc τ) ≠ .sleep r .done := by
        intro r
        cases c <;> nofun
      refine .inr ⟨p, c.enter, ?_, ⟨fun r h => absurd h (hc r), fun r hr => ?_, fun h => ?_⟩, .inl hpc⟩
      · unfold call at hs
        split at hs
        · cases hs
          exact went_goto (fun _ => rfl) fun _ => id
        · split at hs
          · cases hs
            refine ⟨fun u => ?_, fun _ => .inl⟩
            by_cases hu : u = p
            · subst hu
              simp [State.setp]
            · simp [State.setp, hu]
          · cases hs
      · cases hpc.symm.trans hr
      · rw [hpc] at h
        cases h
    case h_2 => cases hs
  | go p f =>
    right
    refine ⟨p, ?_⟩
    dsimp only [step, go] at hs
    have hof : Awake s s' p → (s.proc p).pc.sleeps = false → ∃ pc, Went s s' p pc ∧ Follows s p pc := by
      rintro ⟨pc, hw, hpc⟩ hold
      exact ⟨pc, hw, follows_of_awake hold hpc⟩
    have hgo : (∃ pc, Went s s' p pc ∧ Follows s p pc) → ∃ pc, Went s s' p pc ∧ Follows s p pc ∧
        ((s.proc p).pc = .idle ∨ ∃ f', Act.go p f = .go p f') := by
      rintro ⟨pc, hw, hf⟩
      exact ⟨pc, hw, hf, .inr ⟨f, rfl⟩⟩
    refine hgo ?_
    split at hs
    case h_1 => cases hs
    case h_2 hpc => exact hof (qlock_quiet hpc hs).awake (congrArg Pc.sleeps hpc)
    case h_3 hpc =>
      cases hs
      exact hof (canqlock_quiet hpc).awake (congrArg Pc.sleeps hpc)
    case h_4 hpc => exact hof (qunlock_quiet hpc hs).awake (congrArg Pc.sleeps hpc)
    case h_5 hpc => exact hof (rw_quiet hpc hs).awake (congrArg Pc.sleeps hpc)
    case h_6 hpc => exact sleep_went hpc hs
    case h_7 hpc => exact hof (wakeup_awake hs) (congrArg Pc.sleeps hpc)
    case h_8 hpc => exact hof (swiproc_awake hs) (congrArg Pc.sleeps hpc)
    case h_9 hpc => exact hof (notkilled_awake hpc hs) (congrArg Pc.sleeps hpc)
  | syscall p v =>
    dsimp only [step] at hs
    split at hs
    · cases hs
      exact .inl ⟨fun _ => rfl, rfl, rfl, rfl⟩
    · cases hs

/-- The interrupt waits for the check of a `Sleep`, or is being raised. -/
def Due (s : State τ) (t : τ) : Prop := (s.killed t = true ∧ ∀ r, (s.proc t).pc ≠ .sleep r .done) ∨ Raises s t

theorem Due.returns {a : Act τ} (h : Due s t) (ha : a.Returns s t) : Raises s t := by
  rcases h with ⟨-, hdone⟩ | h
  · obtain ⟨hsl, s', hs, hout⟩ := ha
    rcases step_went hs with hsame | ⟨p, pc, hw, hf, -⟩
    · exact absurd (hsl.symm.trans ((congrArg Pc.sleeps (hsame.pc t)).symm.trans hout)) Bool.noConfusion
    by_cases htp : t = p
    · subst htp
      have hpc : pc.sleeps = false := by rwa [hw.pc t, if_pos rfl] at hout
      obtain ⟨r, hr | hr⟩ := hf.out hsl hpc
      · exact ⟨r, hr⟩
      · exact absurd hr (hdone r)
    · rw [hw.pc t, if_neg htp] at hout
      exact absurd (hsl.symm.trans hout) Bool.noConfusion
  · exact h

theorem Due.step {a : Act τ} (h : Due s t) (hclear : ¬ a.Clears s t) (hret : ¬ a.Returns s t)
    (hs : Sync.step s a = some s') : Due s' t := by
  rcases step_went hs with hsame | ⟨p, pc, hw, hf, ha⟩
  · rw [Due, Raises, hsame.pc, hsame.killed]
    exact h
  by_cases htp : t = p
  · subst htp
    have hpc : (s'.proc t).pc = pc := (hw.pc t).trans (if_pos rfl)
    rcases h with ⟨hk, hdone⟩ | ⟨r, hr⟩
    · rcases hw.killed t hk with hk' | ⟨-, hat⟩
      · refine .inl ⟨hk', fun r hr => ?_⟩
        exact absurd (hk.symm.trans (hf.done r (hpc.symm.trans hr))) Bool.noConfusion
      rcases ha with hidle | ⟨f, rfl⟩
      · rcases hat with hat | ⟨r, hat⟩ <;> cases hidle.symm.trans hat
      rcases hat with hat | hat
      · exact absurd ⟨rfl, hat⟩ hclear
      · exact .inr (checks_raises hs hk ⟨rfl, hat⟩)
    · -- the step that raises
      exact absurd ⟨congrArg Pc.sleeps hr, s', hs, hpc ▸ hf.raise r hr⟩ hret
  · have hpc : (s'.proc t).pc = (s.proc t).pc := (hw.pc t).trans (if_neg htp)
    rw [Due, Raises, hpc]
    exact h.imp_left fun h => ⟨(hw.killed t h.1).resolve_right fun h => htp h.1, h.2⟩

end

/-! ### What holds in every state -/

/-- Who is recorded as waiting: in the queue of a `QLock`, or on a `Rendez`. -/
def Recorded (s : State τ) (w : τ) : Target → Prop
  | .q q => w ∈ (s.came q).drop (s.gone q).length
  | .r r => s.rendez r = some w

def Readies (s : State τ) (u w : τ) : Prop := ∃ t, (s.proc u).pc.wakes = some (w, t)

/-- Outside a blocked section the semaphore is down and stays so; in one, the process is recorded, or one
other process is about to ready it, or it has been readied. -/
structure BlockSafe (s : State τ) (w : τ) : Prop where
  sem : (s.proc w).sem ≤ 1
  outside : (s.proc w).pc.target = none → (s.proc w).sem = 0 ∧ (∀ t, ¬ Recorded s w t) ∧ ∀ u, ¬ Readies s u w
  inside : ∀ t, (s.proc w).pc.target = some t →
    Recorded s w t ∧ (s.proc w).sem = 0 ∧ (∀ u, ¬ Readies s u w) ∨
      ¬ Recorded s w t ∧ (s.proc w).sem = 0 ∧ (∃! u, Readies s u w) ∨
      ¬ Recorded s w t ∧ (s.proc w).sem = 1 ∧ ∀ u, ¬ Readies s u w

/-- After an interrupt is posted, and as long as the process does not go through `notkilled`: the first `Sleep` that it
comes out of is left with `Eintr`. Until then `killed` is set or the error is being raised, and the process does not
sleep on: if it is recorded, it is about to be readied. -/
def Interrupts (s : State τ) (t : τ) : Prop :=
  ∀ a s₁, a.Posts s t → step s a = some s₁ →
    ∀ acts s₂, Steps.Along step (fun s a => ¬ a.Clears s t ∧ ¬ a.Returns s t) s₁ acts →
      Steps.run step s₁ acts = some s₂ →
        (s₂.killed t = true ∨ Raises s₂ t) ∧
          (∀ r, s₂.rendez r = some t → ∃ u, (s₂.proc u).pc.seeks = some (t, r)) ∧ ∀ b : Act τ, b.Returns s₂ t → Raises s₂ t

omit [DecidableEq τ] [Fintype τ] in
theorem start_posted : Posted (start τ) := by
  refine ⟨fun p r h => ?_, fun t r h => ?_⟩
  · cases h
  · cases h

theorem posted_always (acts : List (Act τ)) : Steps.Always step (fun s => Inv s ∧ Posted s) (start τ) acts := by
  refine Steps.always_of_step (fun s a s' h hs => ?_) ⟨start_inv, start_posted⟩
  obtain ⟨Q, hw⟩ := h.1.waits
  exact ⟨h.1.step hs, step_posted h.2 hw h.1.spins hs⟩

theorem recorded_iff (hw : Waits Q s) (w : τ) (t : Target) : Recorded s w t ↔ w ∈ lists Q s t := by
  cases t with
  | q q =>
    dsimp only [Recorded, lists]
    rw [hw.queues.order q, List.drop_left]
  | r r => simp [Recorded, lists]

theorem Inv.blockSafe (h : Inv s) (w : τ) : BlockSafe s w := by
  obtain ⟨Q, hw⟩ := h.waits
  have hready : ∀ u, Readies s u w ↔ 0 < View.takes w (view s u) := by
    intro u
    constructor
    · rintro ⟨t, ht⟩
      exact takes_pos ht
    intro hpos
    unfold View.takes at hpos
    split at hpos
    case isTrue hmap =>
      obtain ⟨⟨w', t⟩, hwk, rfl⟩ := map_eq_some_iff.1 hmap
      exact ⟨t, hwk⟩
    case isFalse => exact absurd hpos (lt_irrefl 0)
  refine ⟨hw.sem_le w, fun ht => ?_, fun t ht => ?_⟩
  · obtain ⟨hsem, hno⟩ := hw.handoff.idle ht
    refine ⟨hsem, fun t hrec => ?_, fun u hu => hno u _ hu.choose_spec⟩
    have := hw.handoff.listed t w ((recorded_iff hw w t).1 hrec)
    cases ht.symm.trans this
  have hone := hw.handoff.once w
  have hwt : (view s w).target = some t := ht
  have hrec : Waiting.recorded (lists Q s) w (view s w) = (lists Q s t).count w := by
    rw [Waiting.recorded, hwt, elim_some]
  rw [hrec, hwt] at hone
  simp only [isSome_some, ↓reduceIte] at hone
  have hnone : Tally.tally (View.takes w) (view s) = 0 → ∀ u, ¬ Readies s u w := by
    intro hz u hu
    have := (hready u).1 hu
    have := Tally.eq_zero_iff.1 hz u
    omega
  have hnot : (lists Q s t).count w = 0 → ¬ Recorded s w t := fun hz hr =>
    List.count_eq_zero.1 hz ((recorded_iff hw w t).1 hr)
  have hsem : (s.proc w).sem = (view s w).sem := rfl
  by_cases hlist : 0 < (lists Q s t).count w
  · exact .inl ⟨(recorded_iff hw w t).2 (List.count_pos_iff.1 hlist), by omega, hnone (by omega)⟩
  · by_cases htake : 0 < Tally.tally (View.takes w) (view s)
    · obtain ⟨u, hu⟩ := Tally.pos_iff.1 htake
      refine .inr (.inl ⟨hnot (by omega), by omega, u, (hready u).2 hu, fun v hv => ?_⟩)
      exact Tally.unique (by omega) ((hready v).1 hv) hu
    · exact .inr (.inr ⟨hnot (by omega), by omega, hnone (by omega)⟩)

theorem Inv.rendez (h : Inv s) (r : Nat) (w : τ) : s.rendez r = some w ↔
    (s.proc w).pc.target = some (.r r) ∧ (s.proc w).sem = 0 ∧ ∀ u, ¬ Readies s u w := by
  obtain ⟨Q, hw⟩ := h.waits
  have hmem : s.rendez r = some w ↔ w ∈ lists Q s (.r r) := by simp [lists]
  refine (hmem.trans hw.handoff.mem_iff).trans (and_congr_right fun _ => and_congr_right fun _ => ?_)
  constructor
  · rintro hno u ⟨t, hu⟩
    exact hno u t hu
  · exact fun hno u t hu => hno u ⟨t, hu⟩

/-- Who posts an interrupt has `p->rlock`, so that the process is not behind the check of a `Sleep`. -/
theorem due_posts {a : Act τ} (hi : Inv s) (ha : a.Posts s t) (hs : step s a = some s') : Due s' t := by
  refine .inl ⟨posts_killed hs ha, fun r hr => ?_⟩
  cases a with
  | go u f =>
    have hpc : (s.proc u).pc = .swiproc t false .kill := ha
    have hdone : (s.proc t).pc ≠ .sleep r .done := by
      intro hdone
      have hu : t = u := hi.spins.unique (l := .rlock t) (by simp [hdone, Pc.held]) (by simp [hpc, Pc.held])
      rw [hu, hpc] at hdone
      cases hdone
    dsimp only [step, go] at hs
    rw [hpc] at hs
    cases hs
    rw [pc_goto] at hr
    split at hr
    · cases hr
    · exact hdone hr
  | call p c => cases ha
  | syscall p v => cases ha

theorem Posted.interrupts (h : Posted s) (hi : Inv s) (t : τ) : Interrupts s t := by
  intro a s₁ ha hs acts s₂ halong hrun
  have hstart : (Inv s₁ ∧ Posted s₁) ∧ Due s₁ t := by
    obtain ⟨Q, hw⟩ := hi.waits
    exact ⟨⟨hi.step hs, step_posted h hw hi.spins hs⟩, due_posts hi ha hs⟩
  have hall : Steps.Always step (fun s => (Inv s ∧ Posted s) ∧ Due s t) s₁ acts := by
    refine halong.always (fun s a s' h ha hs => ⟨?_, h.2.step ha.1 ha.2 hs⟩) hstart
    obtain ⟨Q, hw⟩ := h.1.1.waits
    exact ⟨h.1.1.step hs, step_posted h.1.2 hw h.1.1.spins hs⟩
  obtain ⟨⟨hinv, hposted⟩, hdue⟩ := hall.last hrun
  refine ⟨hdue.imp_left And.left, fun r hr => ?_, fun b => hdue.returns⟩
  rcases hdue with ⟨hk, -⟩ | ⟨r', hr'⟩
  · exact hposted.seeks t r hk hr
  · have htarget := ((hinv.rendez r t).1 hr).1
    rw [hr'] at htarget
    cases htarget

theorem sleep_always (acts : List (Act τ)) :
    Steps.Always step (fun s => (∀ w, BlockSafe s w) ∧
      (∀ r w, s.rendez r = some w ↔
        (s.proc w).pc.target = some (.r r) ∧ (s.proc w).sem = 0 ∧ ∀ u, ¬ Readies s u w) ∧
      ∀ t, Interrupts s t) (start τ) acts :=
  (posted_always acts).mono fun _ h => ⟨h.1.blockSafe, h.1.rendez, h.2.interrupts h.1⟩

end Node9.Sync
