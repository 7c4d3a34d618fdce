import Node9.Lib.Steps

/-!
# Calls that take and release locks

A call is a tree of what it does one after the other: it takes a lock, tries to, releases one, or does some other
operation and goes on by its answer. Threads make calls in any interleaving. `held` is the account of a thread: what its
calls have taken and not released, and `strays` are the releases of what was not on it. `Balanced` says of a call by
itself, with the answers that are allowed, that it releases what it has taken and nothing else; the accounts of all
threads then agree with it in every run.
-/

namespace LockCalls
open Steps Function

inductive Prog (ℓ ω ρ : Type)
  | ret (r : ρ)
  | lock (l : ℓ) (k : Prog ℓ ω ρ)
  | trylock (l : ℓ) (k : Bool → Prog ℓ ω ρ)
  | unlock (l : ℓ) (k : Prog ℓ ω ρ)
  | op (o : ω) (k : Bool → Prog ℓ ω ρ)

variable {τ ℓ ω ρ σ κ : Type}

/-- `taken` counts the holders of a lock, and `free` says when one can be taken. `exec o b` is what the operation does
when its answer is `b`, if it can be. -/
structure Sem (ℓ ω ρ σ κ : Type) where
  free : (ℓ → Nat) → ℓ → Bool
  exec : ω → Bool → σ → Option σ
  prog : κ → Prog ℓ ω ρ

structure St (τ ℓ ω ρ σ : Type) where
  dev : σ
  taken : ℓ → Nat
  prog : τ → Prog ℓ ω ρ
  held : τ → List ℓ
  strays : List (τ × ℓ)

/-- A thread makes a call, or goes on in one. -/
inductive Act (τ κ : Type)
  | call (t : τ) (c : κ)
  | go (t : τ) (b : Bool)

def Prog.isRet : Prog ℓ ω ρ → Bool
  | .ret _ => true
  | _ => false

/-- Of what it holds, the call releases everything, and nothing else. -/
def Balanced [DecidableEq ℓ] (allowed : ω → Bool → Prop) : List ℓ → Prog ℓ ω ρ → Prop
  | held, .ret _ => held = []
  | held, .lock l k => Balanced allowed (l :: held) k
  | held, .trylock l k => Balanced allowed (l :: held) (k true) ∧ Balanced allowed held (k false)
  | held, .unlock l k => l ∈ held ∧ Balanced allowed (held.erase l) k
  | held, .op o k => ∀ b, allowed o b → Balanced allowed held (k b)

/-- The answers of an action are allowed. -/
def Act.Allowed (allowed : ω → Bool → Prop) (s : St τ ℓ ω ρ σ) : Act τ κ → Prop
  | .call _ _ => True
  | .go t b => ∀ o k, s.prog t = .op o k → allowed o b

/-- A thread outside of its calls holds nothing, and nothing has been released that was not held. -/
structure Clean (s : St τ ℓ ω ρ σ) : Prop where
  held : ∀ t r, s.prog t = .ret r → s.held t = []
  strays : s.strays = []

structure Inv [DecidableEq ℓ] (allowed : ω → Bool → Prop) (s : St τ ℓ ω ρ σ) : Prop where
  balanced : ∀ t, Balanced allowed (s.held t) (s.prog t)
  strays : s.strays = []

theorem Inv.clean [DecidableEq ℓ] {allowed : ω → Bool → Prop} {s : St τ ℓ ω ρ σ} (h : Inv allowed s) : Clean s := by
  refine ⟨fun t r hr => ?_, h.strays⟩
  have hbal := h.balanced t
  rw [hr] at hbal
  exact hbal

variable [DecidableEq τ] [DecidableEq ℓ]

namespace St

def goOn (s : St τ ℓ ω ρ σ) (t : τ) (p : Prog ℓ ω ρ) : St τ ℓ ω ρ σ := { s with prog := Function.update s.prog t p }

def acquire (s : St τ ℓ ω ρ σ) (t : τ) (l : ℓ) : St τ ℓ ω ρ σ :=
  { s with
    taken := Function.update s.taken l (s.taken l + 1)
    held := Function.update s.held t (l :: s.held t) }

/-- A lock that is not on the account of the thread is released all the same. -/
def release (s : St τ ℓ ω ρ σ) (t : τ) (l : ℓ) : St τ ℓ ω ρ σ :=
  { s with
    taken := Function.update s.taken l (s.taken l - 1)
    held := Function.update s.held t ((s.held t).erase l)
    strays := if l ∈ s.held t then s.strays else (t, l) :: s.strays }

@[simp] theorem acquire_held (s : St τ ℓ ω ρ σ) (t : τ) (l : ℓ) : (s.acquire t l).held t = l :: s.held t :=
  update_self ..

@[simp] theorem release_held (s : St τ ℓ ω ρ σ) (t : τ) (l : ℓ) : (s.release t l).held t = (s.held t).erase l :=
  update_self ..

end St

def go (m : Sem ℓ ω ρ σ κ) (s : St τ ℓ ω ρ σ) (t : τ) (b : Bool) : Prog ℓ ω ρ → Option (St τ ℓ ω ρ σ)
  | .ret _ => none
  | .lock l k => if m.free s.taken l then some ((s.acquire t l).goOn t k) else none
  | .trylock l k =>
    if b then if m.free s.taken l then some ((s.acquire t l).goOn t (k true)) else none
    else some (s.goOn t (k false))
  | .unlock l k => some ((s.release t l).goOn t k)
  | .op o k => (m.exec o b s.dev).map fun d => { s with dev := d }.goOn t (k b)

def step (m : Sem ℓ ω ρ σ κ) (s : St τ ℓ ω ρ σ) : Act τ κ → Option (St τ ℓ ω ρ σ)
  | .call t c => if (s.prog t).isRet then some (s.goOn t (m.prog c)) else none
  | .go t b => go m s t b (s.prog t)

variable {allowed : ω → Bool → Prop} {m : Sem ℓ ω ρ σ κ} {s s' : St τ ℓ ω ρ σ} {a : Act τ κ} {t : τ} {l : ℓ} {b : Bool}

namespace Inv

theorem goOn {p : Prog ℓ ω ρ} (h : Inv allowed s) (hprog : s'.prog = s.prog) (hstrays : s'.strays = [])
    (hothers : ∀ u, u ≠ t → s'.held u = s.held u) (hp : Balanced allowed (s'.held t) p) :
    Inv allowed (s'.goOn t p) := by
  refine ⟨fun u => ?_, hstrays⟩
  show Balanced allowed (s'.held u) (update s'.prog t p u)
  rw [hprog]
  by_cases hu : u = t
  · rw [hu, update_self]
    exact hp
  · rw [update_of_ne hu, hothers u hu]
    exact h.balanced u

theorem acquire {p : Prog ℓ ω ρ} (h : Inv allowed s) (hp : Balanced allowed (l :: s.held t) p) :
    Inv allowed ((s.acquire t l).goOn t p) := by
  refine h.goOn rfl h.strays (fun u hu => update_of_ne hu _ _) ?_
  rw [St.acquire_held]
  exact hp

theorem release {p : Prog ℓ ω ρ} (h : Inv allowed s) (hl : l ∈ s.held t)
    (hp : Balanced allowed ((s.held t).erase l) p) :
    Inv allowed ((s.release t l).goOn t p) := by
  refine h.goOn rfl ?_ (fun u hu => update_of_ne hu _ _) ?_
  · rw [St.release, if_pos hl]
    exact h.strays
  · rw [St.release_held]
    exact hp

theorem go (h : Inv allowed s) (hG : ∀ o k, s.prog t = .op o k → allowed o b)
    (hs : LockCalls.go m s t b (s.prog t) = some s') : Inv allowed s' := by
  have hbal := h.balanced t
  cases hp : s.prog t with
  | ret r =>
    rw [hp] at hs
    cases hs
  | lock l k =>
    rw [hp] at hs hbal
    rw [LockCalls.go] at hs
    split at hs <;> cases hs
    exact h.acquire hbal
  | trylock l k =>
    rw [hp] at hs hbal
    rw [LockCalls.go] at hs
    split at hs
    · split at hs <;> cases hs
      exact h.acquire hbal.1
    · cases hs
      exact h.goOn rfl h.strays (fun _ _ => rfl) hbal.2
  | unlock l k =>
    rw [hp] at hs hbal
    cases hs
    exact h.release hbal.1 hbal.2
  | op o k =>
    rw [hp] at hs hbal
    obtain ⟨d, -, rfl⟩ := Option.map_eq_some_iff.1 hs
    exact h.goOn rfl h.strays (fun _ _ => rfl) (hbal b (hG o k hp))

theorem step (hm : ∀ c, Balanced allowed [] (m.prog c)) (h : Inv allowed s) (hG : a.Allowed allowed s)
    (hs : LockCalls.step m s a = some s') : Inv allowed s' := by
  cases a with
  | call t c =>
    rw [LockCalls.step] at hs
    split at hs <;> cases hs
    rename_i hret
    have hheld : s.held t = [] := by
      cases hp : s.prog t with
      | ret r => exact h.clean.held t r hp
      | lock _ _ | trylock _ _ | unlock _ _ | op _ _ =>
        rw [hp] at hret
        cases hret
    exact h.goOn rfl h.strays (fun _ _ => rfl) (hheld ▸ hm c)
  | go t b => exact h.go hG hs

end Inv

/-- Balanced calls leave no lock behind, and release none that they do not hold, in every run with answers that are
allowed. -/
theorem always_clean (hm : ∀ c, Balanced allowed [] (m.prog c)) {as : List (Act τ κ)}
    (hG : Along (step m) (fun s a => a.Allowed allowed s) s as) (h : Inv allowed s) : Always (step m) Clean s as :=
  (hG.always (I := Inv allowed) (fun _ _ _ hI hG hs => hI.step hm hG hs) h).mono fun _ h => h.clean

end LockCalls
