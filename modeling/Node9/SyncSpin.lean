import Node9.Lib.Locks
import Node9.Sync

/-!
# The spin locks

Which spin locks a process has taken can be told from where it is. `Spins`: these are the locks that it
owns. So two processes are never under the same spin lock.
-/

namespace Node9.Sync
open Locks Function Option

variable {τ : Type}

def CanFrom.held : CanFrom → List (Spin τ)
  | rlockK l => [.l l]
  | _ => []

def UnFrom.held : UnFrom → List (Spin τ)
  | runlock l => [.l l]
  | _ => []

def Pc.held (p : τ) : Pc τ → List (Spin τ)
  | idle => []
  | lk c a =>
    match a with
    | .lock | .block => []
    | .test | .got | .queued => [.use c.lock]
  | can c a =>
    match a with
    | .lock => c.held
    | .test | .no | .got => .use c.lock :: c.held
  | un c a =>
    match a with
    | .lock | .ready _ => c.held
    | .pop | .freed | .popped _ => .use c.lock :: c.held
  | rw l a =>
    match a with
    | .rlockL | .runlockL => []
    | .rlockInc | .rlockUn | .runlockDec | .runlockUn => [.l l]
  | sleep r a =>
    match a with
    | .lockP | .block | .relock => []
    | .lockR | .note | .unlockP | .clear | .check | .raise | .done => [.rlock p]
    | .test | .stay | .panic | .recorded => [.r r, .rlock p]
  | wakeup r a =>
    match a with
    | .lock => []
    | .take | .ready _ | .unlock => [.r r]
  | swiproc t _ a =>
    match a with
    | .lockP | .lockS => []
    | .kill | .lockR _ | .unlockP | .unlockH => [.rlock t]
    | .test r | .ready r | .unlockR r => [.r r, .rlock t]
    | .host | .unlockS => [.sysio t]
  | notkilled a =>
    match a with
    | .lock => []
    | .clear | .unlock => [.rlock p]

def held (s : State τ) (p : τ) : List (Spin τ) := (s.proc p).pc.held p

def Spins (s : State τ) : Prop := Owned True s.spin (held s)

theorem Spins.unique {s : State τ} {p u : τ} {l : Spin τ} (h : Spins s) (hp : l ∈ (s.proc p).pc.held p)
    (hu : l ∈ (s.proc u).pc.held u) : p = u :=
  Owned.unique p u h hp hu

variable [DecidableEq τ] {s s' : State τ} {p : τ} {P : Proc τ} {l : Spin τ} {pc : Pc τ}

theorem held_setp : held (s.setp p P) = update (held s) p (P.pc.held p) := by
  funext u
  by_cases hu : u = p
  · subst hu
    simp [held, State.setp]
  · simp [held, State.setp, hu]

theorem held_osready (w : τ) : held (s.osready w) = held s := by
  unfold State.osready
  rw [held_setp]
  exact update_eq_self _ _

theorem lock_some (h : s.lock p l = some s') :
    s.spin l = none ∧ s' = { s with spin := update s.spin l (some p) } := by
  unfold State.lock at h
  split at h
  case isTrue hl =>
    cases h
    exact ⟨isNone_iff_eq_none.1 hl, rfl⟩
  case isFalse => cases h

theorem osblock_some (h : s.osblock p = some s') :
    0 < (s.proc p).sem ∧ s' = s.setp p { s.proc p with sem := (s.proc p).sem - 1 } := by
  unfold State.osblock at h
  split at h
  case isTrue hs =>
    cases h
    exact ⟨hs, rfl⟩
  case isFalse => cases h

namespace Spins

section
variable (h : Spins s)
include h

theorem stay (hspin : s'.spin = s.spin) (hheld : held s' = update (held s) p (held s p)) :
    Spins s' := by
  unfold Spins
  rw [hspin, hheld, update_eq_self]
  exact h

theorem goto (hs : (s.proc p).pc.held p = pc.held p) : Spins (s.goto p pc) := by
  refine h.stay (p := p) rfl ?_
  unfold State.goto
  rw [held_setp, held, hs]

theorem moved {s₁ : State τ} {pc₀ : Pc τ} (hpc : (s.proc p).pc = pc₀) (hspin : s₁.spin = s.spin)
    (hproc : s₁.proc = s.proc) (hs : pc₀.held p = pc.held p) : Spins (s₁.goto p pc) := by
  refine h.stay (p := p) hspin ?_
  have hheld : held s₁ = held s := funext fun u => by rw [held, held, hproc]
  rw [State.goto, held_setp, hheld, held, hpc, hs]

theorem ret {v : Pc τ × List Hold} (hs : (s.proc p).pc.held p = v.1.held p) : Spins (s.ret p v) := by
  refine h.stay (p := p) rfl ?_
  unfold State.ret
  rw [held_setp, held, hs]

theorem lock (hl : s.lock p l = some s') (hs : pc.held p = l :: (s.proc p).pc.held p) :
    Spins (s'.goto p pc) := by
  obtain ⟨hnone, rfl⟩ := lock_some hl
  unfold Spins State.goto
  rw [held_setp]
  refine Owned.acquire h hnone fun k => ?_
  rw [hs]
  exact List.mem_cons

theorem unlock {v : Pc τ × List Hold} (hs : (s.proc p).pc.held p = l :: v.1.held p)
    (hl : l ∉ v.1.held p) : Spins ((s.unlock l).ret p v) := by
  unfold Spins State.ret
  rw [held_setp]
  have hheld : held (s.unlock l) p = l :: v.1.held p := hs
  refine Owned.release h (t := p) (l := l) (by rw [hheld]; exact List.mem_cons_self) fun k => ?_
  change k ∈ v.1.held p ↔ k ≠ l ∧ k ∈ held (s.unlock l) p
  rw [hheld, List.mem_cons]
  constructor
  · intro hk
    exact ⟨fun hkl => hl (hkl ▸ hk), .inr hk⟩
  · rintro ⟨hne, hk⟩
    exact hk.resolve_left hne

theorem unlock_goto (hs : (s.proc p).pc.held p = l :: pc.held p) (hl : l ∉ pc.held p) :
    Spins ((s.unlock l).goto p pc) :=
  h.unlock (v := (pc, [])) hs hl

end

end Spins

section
variable (h : Spins s)
include h

attribute [local simp] Pc.held

theorem qlock_spins {c : LkFrom} {a : Lk} (hpc : (s.proc p).pc = .lk c a)
    (hs : qlock s p c a = some s') : Spins s' := by
  cases a with
  | lock =>
    obtain ⟨s₁, hl, rfl⟩ := map_eq_some_iff.1 hs
    exact h.lock hl (by rw [hpc]; rfl)
  | test =>
    dsimp only [qlock] at hs
    split at hs
    · cases hs
      exact h.moved hpc rfl rfl rfl
    · cases hs
      exact h.moved hpc rfl rfl rfl
  | got =>
    cases hs
    exact h.unlock (by rw [hpc]; cases c <;> rfl) (by cases c <;> simp [LkFrom.ret])
  | queued =>
    cases hs
    exact h.unlock_goto (by rw [hpc]; rfl) (by simp)
  | block =>
    obtain ⟨s₁, hb, rfl⟩ := map_eq_some_iff.1 hs
    obtain ⟨-, rfl⟩ := osblock_some hb
    refine h.stay (p := p) rfl ?_
    rw [State.ret, held_setp, held_setp, update_idem, held, hpc]
    congr 1
    cases c <;> rfl

theorem canqlock_spins {c : CanFrom} {a : Can} (hpc : (s.proc p).pc = .can c a) :
    Spins (canqlock s p c a) := by
  cases a with
  | lock =>
    dsimp only [canqlock]
    cases hl : s.lock p (.use c.lock) with
    | some s₁ => exact h.lock hl (by rw [hpc]; rfl)
    | none => exact h.ret (by rw [hpc]; cases c <;> rfl)
  | test =>
    dsimp only [canqlock]
    split
    · exact h.goto (by rw [hpc]; rfl)
    · exact h.moved hpc rfl rfl rfl
  | no => exact h.unlock (by rw [hpc]; cases c <;> rfl) (by cases c <;> simp [CanFrom.ret])
  | got => exact h.unlock (by rw [hpc]; cases c <;> rfl) (by cases c <;> simp [CanFrom.ret])

theorem qunlock_spins {c : UnFrom} {a : Un τ} (hpc : (s.proc p).pc = .un c a)
    (hs : qunlock s p c a = some s') : Spins s' := by
  cases a with
  | lock =>
    obtain ⟨s₁, hl, rfl⟩ := map_eq_some_iff.1 hs
    exact h.lock hl (by rw [hpc]; rfl)
  | pop =>
    dsimp only [qunlock] at hs
    split at hs
    all_goals
      cases hs
      exact h.moved hpc rfl rfl rfl
  | popped w =>
    cases hs
    exact h.unlock_goto (by rw [hpc]; rfl) (by cases c <;> simp [UnFrom.held])
  | ready w =>
    cases hs
    refine h.stay (p := p) rfl ?_
    rw [State.ret, held_setp, held_osready, held, hpc]
    congr 1
    cases c <;> rfl
  | freed =>
    cases hs
    exact h.unlock (by rw [hpc]; cases c <;> rfl) (by cases c <;> simp [UnFrom.ret, UnFrom.held])

theorem rw_spins {l : Nat} {a : Rw} (hpc : (s.proc p).pc = .rw l a) (hs : rw s p l a = some s') :
    Spins s' := by
  cases a with
  | rlockL | runlockL =>
    obtain ⟨s₁, hl, rfl⟩ := map_eq_some_iff.1 hs
    exact h.lock hl (by rw [hpc]; rfl)
  | rlockInc =>
    cases hs
    exact h.moved hpc rfl rfl rfl
  | runlockDec =>
    cases hs
    refine h.stay (p := p) rfl ?_
    rw [State.goto, held_setp, held, hpc]
    split <;> rfl
  | rlockUn | runlockUn =>
    cases hs
    exact h.unlock_goto (by rw [hpc]; rfl) (by simp [UnFrom.held])

theorem sleep_spins {r : Nat} {f : Bool} {a : Sl} (hpc : (s.proc p).pc = .sleep r a)
    (hs : sleep s p r f a = some s') : Spins s' := by
  cases a with
  | lockP | lockR | relock =>
    obtain ⟨s₁, hl, rfl⟩ := map_eq_some_iff.1 hs
    exact h.lock hl (by rw [hpc]; rfl)
  | test =>
    dsimp only [sleep] at hs
    split at hs
    · cases hs
      exact h.goto (by rw [hpc]; rfl)
    · split at hs
      all_goals
        cases hs
        exact h.moved hpc rfl rfl rfl
  | panic => cases hs
  | stay | recorded | unlockP | raise | done =>
    cases hs
    exact h.unlock_goto (by rw [hpc]; rfl) (by simp)
  | note | clear =>
    cases hs
    exact h.moved hpc rfl rfl rfl
  | block =>
    obtain ⟨s₁, hb, rfl⟩ := map_eq_some_iff.1 hs
    obtain ⟨-, rfl⟩ := osblock_some hb
    refine h.stay (p := p) rfl ?_
    rw [State.goto, held_setp, held_setp, update_idem, held, hpc]
    rfl
  | check =>
    dsimp only [sleep] at hs
    split at hs
    all_goals
      cases hs
      exact h.moved hpc rfl rfl rfl

theorem wakeup_spins {r : Nat} {a : Wk τ} (hpc : (s.proc p).pc = .wakeup r a)
    (hs : wakeup s p r a = some s') : Spins s' := by
  cases a with
  | lock =>
    obtain ⟨s₁, hl, rfl⟩ := map_eq_some_iff.1 hs
    exact h.lock hl (by rw [hpc]; rfl)
  | take =>
    dsimp only [wakeup] at hs
    split at hs
    all_goals
      cases hs
      exact h.moved hpc rfl rfl rfl
  | ready w =>
    cases hs
    refine h.stay (p := p) rfl ?_
    rw [State.goto, held_setp, held_osready, held, hpc]
    rfl
  | unlock =>
    cases hs
    exact h.unlock_goto (by rw [hpc]; rfl) (by simp)

theorem swiproc_spins {t : τ} {i : Bool} {a : Sw} (hpc : (s.proc p).pc = .swiproc t i a)
    (hs : swiproc s p t i a = some s') : Spins s' := by
  cases a with
  | lockP | lockR r | lockS =>
    obtain ⟨s₁, hl, rfl⟩ := map_eq_some_iff.1 hs
    exact h.lock hl (by rw [hpc]; rfl)
  | kill =>
    cases hs
    refine h.stay (p := p) rfl ?_
    rw [State.goto, held_setp, held, hpc]
    congr 1
    cases s.r t <;> rfl
  | test r | host =>
    dsimp only [swiproc] at hs
    split at hs
    all_goals
      cases hs
      exact h.moved hpc rfl rfl rfl
  | ready r =>
    cases hs
    refine h.stay (p := p) rfl ?_
    rw [State.goto, held_setp, held_osready, held, hpc]
    rfl
  | unlockR r | unlockP | unlockH | unlockS =>
    cases hs
    exact h.unlock_goto (by rw [hpc]; rfl) (by simp)

theorem notkilled_spins {a : Nk} (hpc : (s.proc p).pc = .notkilled a)
    (hs : notkilled s p a = some s') : Spins s' := by
  cases a with
  | lock =>
    obtain ⟨s₁, hl, rfl⟩ := map_eq_some_iff.1 hs
    exact h.lock hl (by rw [hpc]; rfl)
  | clear =>
    cases hs
    exact h.moved hpc rfl rfl rfl
  | unlock =>
    cases hs
    exact h.unlock_goto (by rw [hpc]; rfl) (by simp)

theorem go_spins {f : Bool} (hs : go s p f = some s') : Spins s' := by
  unfold go at hs
  split at hs
  case h_1 => cases hs
  case h_2 hpc => exact qlock_spins h hpc hs
  case h_3 hpc =>
    cases hs
    exact canqlock_spins h hpc
  case h_4 hpc => exact qunlock_spins h hpc hs
  case h_5 hpc => exact rw_spins h hpc hs
  case h_6 hpc => exact sleep_spins h hpc hs
  case h_7 hpc => exact wakeup_spins h hpc hs
  case h_8 hpc => exact swiproc_spins h hpc hs
  case h_9 hpc => exact notkilled_spins h hpc hs

end

omit [DecidableEq τ] in
theorem enter_held (c : Call τ) : c.enter.held p = [] := by
  cases c <;> rfl

theorem call_spins {c : Call τ} (h : Spins s) (hpc : (s.proc p).pc = .idle) (hs : call s p c = some s') :
    Spins s' := by
  have hheld : held s p = c.enter.held p := by
    rw [enter_held, held, hpc]
    rfl
  unfold call at hs
  split at hs
  · cases hs
    exact h.goto hheld
  · split at hs
    · cases hs
      exact h.stay (p := p) rfl (by rw [held_setp, hheld])
    · cases hs

theorem step_spins {a : Act τ} (h : Spins s) (hs : step s a = some s') : Spins s' := by
  cases a with
  | call p c =>
    dsimp only [step] at hs
    split at hs
    case h_1 hpc => exact call_spins h hpc hs
    case h_2 => cases hs
  | go p f => exact go_spins h hs
  | syscall p v =>
    dsimp only [step] at hs
    split at hs
    · cases hs
      exact h
    · cases hs

end Node9.Sync
