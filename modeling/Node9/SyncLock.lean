import Node9.SyncWait

/-!
# Who has which lock

There is one of each `QLock` to be had while it is locked, and none while it is not: it is with a process
that has locked it, with one that is about to pass it on, or with a waiter that has been readied (`owns`). The
inner lock `k` of a read/write lock is with a writer, or with all readers together (`covers`). `readers`
counts those between the `readers++` and the `--readers` (`reads`).

The only place where this needs the other processes is `rlock`, which does not look at what `canqlock(&l->k)`
returns: whoever could be in its way would have to hold `l->x` or the spin lock `l->l`.
-/

namespace Node9.Sync
open Tally Function List

variable {τ : Type}

def Hold.owns : Hold → List QId
  | q i => [.q i]
  | r _ => []
  | w l => [.x l, .k l]

def Hold.reads : Hold → List Nat
  | r l => [l]
  | _ => []

/-- What is locked while the call goes on, -/
def LkFrom.base : LkFrom → List QId
  | wlockK l => [.x l]
  | _ => []

def CanFrom.base : CanFrom → List QId
  | rlockK l => [.x l]
  | _ => []

def UnFrom.base : UnFrom → List QId
  | wunlockK l => [.x l]
  | _ => []

/-- and what it takes or gives back for the process itself. -/
def CanFrom.takes : CanFrom → List QId
  | user i => [.q i]
  | canrlock l => [.x l]
  | rlockK _ => []

def UnFrom.gives : UnFrom → List QId
  | user i => [.q i]
  | rlockX l => [.x l]
  | runlock _ => []
  | wunlockK l => [.k l]
  | wunlockX l => [.x l]

/-- `n` is the semaphore of the process. -/
def Pc.owns (n : Nat) : Pc τ → List QId
  | lk c a => c.base ++
    match a with
    | .lock | .test => []
    | .got => [c.lock]
    | .queued | .block => List.replicate n c.lock
  | can c a => c.base ++
    match a with
    | .lock | .test | .no => []
    | .got => c.takes
  | un c a => c.base ++
    match a with
    | .lock | .pop => c.gives
    | .popped _ | .ready _ => [c.lock]
    | .freed => []
  | rw l a =>
    match a with
    | .rlockL | .rlockInc | .rlockUn => [.x l]
    | .runlockL | .runlockDec | .runlockUn => []
  | _ => []

def CanFrom.reads : CanFrom → List Nat
  | rlockK l => [l]
  | _ => []

/-- Inside the read lock: counted by `readers`. -/
def Pc.reads : Pc τ → List Nat
  | can c _ => c.reads
  | un c _ =>
    match c with
    | .rlockX l => [l]
    | _ => []
  | rw l a =>
    match a with
    | .rlockUn | .runlockL | .runlockDec => [l]
    | .rlockL | .rlockInc | .runlockUn => []
  | _ => []

/-- Inside the read lock: `k` is locked for this process too. -/
def Pc.covers : Pc τ → List Nat
  | can c a =>
    match a with
    | .lock | .test => []
    | .no | .got => c.reads
  | un c a =>
    match c, a with
    | .rlockX l, _ => [l]
    | .runlock l, .lock | .runlock l, .pop => [l]
    | _, _ => []
  | rw l a =>
    match a with
    | .rlockUn | .runlockL | .runlockDec => [l]
    | .rlockL | .rlockInc | .runlockUn => []
  | _ => []

/-- The last reader gives back `k`. -/
def Pc.last : Pc τ → Option Nat
  | un (.runlock l) .lock | un (.runlock l) .pop => some l
  | _ => none

def tok (q : QId) (P : Proc τ) : Nat := (P.pc.owns P.sem ++ P.has.flatMap Hold.owns).count q

def rds (l : Nat) (P : Proc τ) : Nat := (P.pc.reads ++ P.has.flatMap Hold.reads).count l

def cov (l : Nat) (P : Proc τ) : Nat := (P.pc.covers ++ P.has.flatMap Hold.reads).count l

/-- For the locks it is the same where the process is. -/
structure Alike (P P' : Proc τ) : Prop where
  tok : ∀ q, tok q P' = tok q P
  rds : ∀ l, rds l P' = rds l P
  cov : ∀ l, cov l P' = cov l P
  last : P'.pc.last = P.pc.last

theorem Alike.symm {P P' : Proc τ} (h : Alike P P') : Alike P' P :=
  ⟨fun q => (h.tok q).symm, fun l => (h.rds l).symm, fun l => (h.cov l).symm, h.last.symm⟩

theorem Alike.refl (P : Proc τ) : Alike P P := ⟨fun _ => rfl, fun _ => rfl, fun _ => rfl, rfl⟩

theorem alike_of {P P' : Proc τ} (hs : List Hold) (hhas : P'.has.Perm (hs ++ P.has))
    (howns : (P'.pc.owns P'.sem ++ hs.flatMap Hold.owns).Perm (P.pc.owns P.sem))
    (hrds : (P'.pc.reads ++ hs.flatMap Hold.reads).Perm P.pc.reads)
    (hcov : (P'.pc.covers ++ hs.flatMap Hold.reads).Perm P.pc.covers) (hlast : P'.pc.last = P.pc.last) :
    Alike P P' := by
  have hreads : (P'.has.flatMap Hold.reads).Perm (hs.flatMap Hold.reads ++ P.has.flatMap Hold.reads) := by
    rw [← flatMap_append]
    exact hhas.flatMap_right _
  refine ⟨fun q => ?_, fun l => ?_, fun l => ?_, hlast⟩
  · have howned : (P'.has.flatMap Hold.owns).Perm (hs.flatMap Hold.owns ++ P.has.flatMap Hold.owns) := by
      rw [← flatMap_append]
      exact hhas.flatMap_right _
    have hall := (howned.append_left (P'.pc.owns P'.sem)).trans
      (List.Perm.trans (.of_eq (append_assoc _ _ _).symm) (howns.append_right _))
    exact hall.count_eq q
  · have hall := (hreads.append_left P'.pc.reads).trans
      (List.Perm.trans (.of_eq (append_assoc _ _ _).symm) (hrds.append_right _))
    exact hall.count_eq l
  · have hall := (hreads.append_left P'.pc.covers).trans
      (List.Perm.trans (.of_eq (append_assoc _ _ _).symm) (hcov.append_right _))
    exact hall.count_eq l

theorem alike_ret {P : Proc τ} {pc : Pc τ} {v : Pc τ × List Hold} (hpc : P.pc = pc)
    (howns : ∀ n, v.1.owns n ++ v.2.flatMap Hold.owns = pc.owns n)
    (hrds : v.1.reads ++ v.2.flatMap Hold.reads = pc.reads) (hcov : v.1.covers ++ v.2.flatMap Hold.reads = pc.covers)
    (hlast : v.1.last = pc.last) : Alike P { P with pc := v.1, has := v.2 ++ P.has } := by
  subst hpc
  exact alike_of v.2 (.refl _) (.of_eq (howns _)) (.of_eq hrds) (.of_eq hcov) hlast

theorem alike_goto {P : Proc τ} {pc pc' : Pc τ} (hpc : P.pc = pc) (howns : ∀ n, pc'.owns n = pc.owns n)
    (hrds : pc'.reads = pc.reads) (hcov : pc'.covers = pc.covers) (hlast : pc'.last = pc.last) :
    Alike P { P with pc := pc' } :=
  alike_ret (v := (pc', [])) hpc (fun n => (append_nil _).trans (howns n)) ((append_nil _).trans hrds)
    ((append_nil _).trans hcov) hlast

theorem tok_post {P : Proc τ} (q : QId) :
    tok q { P with sem := P.sem + 1 } = tok q P + if P.pc.target = some (.q q) then 1 else 0 := by
  unfold tok
  rw [count_append, count_append]
  cases hpc : P.pc with
  | lk c a =>
    cases a with
    | queued | block =>
      dsimp only [Pc.owns, Pc.target]
      rw [replicate_succ', ← append_assoc, count_append, count_singleton]
      simp only [beq_iff_eq, Option.some.injEq, Target.q.injEq]
      omega
    | _ => rfl
  | sleep r a => cases a <;> rfl
  | _ => rfl

/-! ### What can be told from where a process is -/

theorem count_has (l : Nat) (hs : List Hold) :
    (hs.flatMap Hold.owns).count (.k l) = (hs.flatMap Hold.owns).count (.x l) := by
  induction hs with
  | nil => rfl
  | cons h hs ih =>
    rw [flatMap_cons, count_append, count_append, ih]
    congr 1
    cases h with
    | q i => simp [Hold.owns]
    | r l' => rfl
    | w l' => simp [Hold.owns, List.count_cons]

variable {P : Proc τ} {p : τ} {l : Nat}

attribute [local simp] Pc.held Pc.owns LkFrom.base LkFrom.lock UnFrom.base UnFrom.gives UnFrom.lock UnFrom.held CanFrom.base CanFrom.takes CanFrom.held

theorem tok_k_le (hsem : P.sem ≤ 1) (h : .l l ∉ P.pc.held p) : tok (.k l) P ≤ tok (.x l) P := by
  unfold tok
  rw [count_append, count_append, count_has]
  refine Nat.add_le_add_right ?_ _
  cases hpc : P.pc with
  | lk c a =>
    cases c with
    | wlockK l' =>
      cases a <;>
        simp [List.count_cons, count_replicate] <;> split_ifs <;> omega
    | user i => cases a <;> simp [count_replicate]
    | rlock l' => cases a <;> simp [count_replicate]
    | wlockX l' => cases a <;> simp [count_replicate]
  | can c a =>
    cases c <;> cases a <;> simp
  | un c a =>
    rw [hpc] at h
    cases c with
    | runlock l' =>
      have hne : l' ≠ l := by
        rintro rfl
        exact h (by cases a <;> simp)
      cases a <;> simp [hne]
    | user i => cases a <;> simp
    | rlockX l' => cases a <;> simp
    | wunlockK l' => cases a <;> simp [List.count_cons]
    | wunlockX l' => cases a <;> simp
  | rw l' a => cases a <;> simp
  | _ => simp

/-- A reader before its `canqlock(&l->k)` has `x` and not `k`. -/
theorem tok_k_lt {a : Can} (hpc : P.pc = .can (.rlockK l) a) : tok (.k l) P + 1 = tok (.x l) P := by
  unfold tok
  rw [count_append, count_append, count_has, hpc]
  cases a <;> simp [add_comm]

theorem cov_eq_rds (h : .l l ∉ P.pc.held p) : cov l P = rds l P := by
  unfold cov rds
  rw [count_append, count_append]
  congr 1
  cases hpc : P.pc with
  | can c a =>
    rw [hpc] at h
    cases c with
    | rlockK l' =>
      have hne : l' ≠ l := by
        rintro rfl
        exact h (by cases a <;> simp)
      cases a <;> simp [Pc.covers, Pc.reads, CanFrom.reads, hne]
    | user i => cases a <;> rfl
    | canrlock l' => cases a <;> rfl
  | un c a =>
    rw [hpc] at h
    cases c with
    | runlock l' =>
      have hne : l' ≠ l := by
        rintro rfl
        exact h (by cases a <;> simp)
      cases a <;> simp [Pc.covers, Pc.reads, hne]
    | _ => rfl
  | rw l' a => cases a <;> rfl
  | _ => rfl

theorem tok_of_use (h : .use (.k l) ∈ P.pc.held p) : 0 < tok (.x l) P ∨ .l l ∈ P.pc.held p := by
  unfold tok
  rw [count_append]
  cases hpc : P.pc with
  | lk c a =>
    rw [hpc] at h
    cases c <;> cases a <;> simp_all
  | can c a =>
    rw [hpc] at h
    cases c <;> cases a <;> simp_all [CanFrom.lock]
  | un c a =>
    rw [hpc] at h
    cases c <;> cases a <;> simp_all
  | rw l' a =>
    rw [hpc] at h
    cases a <;> simp at h
  | sleep r a =>
    rw [hpc] at h
    cases a <;> simp at h
  | wakeup r a =>
    rw [hpc] at h
    cases a <;> simp at h
  | swiproc t i a =>
    rw [hpc] at h
    cases a <;> simp at h
  | notkilled a =>
    rw [hpc] at h
    cases a <;> simp at h
  | idle =>
    rw [hpc] at h
    simp at h

variable [Fintype τ]

/-- One if the readers have the lock. -/
def group (s : State τ) : QId → Nat
  | .k l => if 0 < tally (cov l) s.proc then 1 else 0
  | _ => 0

structure Tokens (s : State τ) : Prop where
  locked : ∀ q, tally (tok q) s.proc + group s q = (s.qlock q).locked.toNat
  readers : ∀ l, s.readers l = (tally (rds l) s.proc : Nat)
  last : ∀ p l, (s.proc p).pc.last = some l → s.readers l = 0

theorem group_congr {s s' : State τ} (h : ∀ l, tally (cov l) s'.proc = tally (cov l) s.proc) (q : QId) :
    group s' q = group s q := by
  cases q with
  | q i => rfl
  | x l => rfl
  | k l =>
    dsimp only [group]
    rw [h]

namespace Tokens
variable {s s' : State τ} {u : τ} {q : QId} {c : LkFrom}

theorem tally_le (h : Tokens s) (q : QId) : tally (tok q) s.proc ≤ 1 := by
  have := h.locked q
  have := Bool.toNat_le (s.qlock q).locked
  omega

theorem unique (h : Tokens s) (hp : 0 < tok q (s.proc p)) (hu : 0 < tok q (s.proc u)) : p = u :=
  Tally.unique (h.tally_le q) hp hu

theorem alike (h : Tokens s) (hproc : ∀ u, Alike (s.proc u) (s'.proc u))
    (hlocked : ∀ q, (s'.qlock q).locked = (s.qlock q).locked) (hreaders : s'.readers = s.readers) : Tokens s' := by
  refine ⟨fun q => ?_, fun l => ?_, fun p l hl => ?_⟩
  · rw [Tally.congr fun u => (hproc u).tok q, group_congr (fun l => Tally.congr fun u => (hproc u).cov l) q, hlocked]
    exact h.locked q
  · rw [hreaders, Tally.congr fun u => (hproc u).rds l]
    exact h.readers l
  · rw [hreaders]
    rw [(hproc p).last] at hl
    exact h.last p l hl

variable [DecidableEq τ]

section
variable (h : Tokens s)
include h

theorem move {P' : Proc τ} (ha : Alike (s.proc p) P') (hproc : s'.proc = update s.proc p P')
    (hlocked : ∀ q, (s'.qlock q).locked = (s.qlock q).locked) (hreaders : s'.readers = s.readers) : Tokens s' := by
  refine h.alike (fun u => ?_) hlocked hreaders
  rw [hproc]
  by_cases hu : u = p
  · subst hu
    rw [update_self]
    exact ha
  · rw [update_of_ne hu]
    exact Alike.refl (s.proc u)

theorem ret {pc : Pc τ} {v : Pc τ × List Hold} (hpc : (s.proc p).pc = pc) (hproc : s'.proc = s.proc)
    (hlocked : ∀ q, (s'.qlock q).locked = (s.qlock q).locked) (hreaders : s'.readers = s.readers)
    (howns : ∀ n, v.1.owns n ++ v.2.flatMap Hold.owns = pc.owns n)
    (hrds : v.1.reads ++ v.2.flatMap Hold.reads = pc.reads) (hcov : v.1.covers ++ v.2.flatMap Hold.reads = pc.covers)
    (hlast : v.1.last = pc.last) : Tokens (s'.ret p v) := by
  refine h.move (alike_ret hpc howns hrds hcov hlast) ?_ hlocked hreaders
  rw [← hproc]
  rfl

theorem goto {pc pc' : Pc τ} (hpc : (s.proc p).pc = pc) (hproc : s'.proc = s.proc)
    (hlocked : ∀ q, (s'.qlock q).locked = (s.qlock q).locked) (hreaders : s'.readers = s.readers)
    (howns : ∀ n, pc'.owns n = pc.owns n) (hrds : pc'.reads = pc.reads) (hcov : pc'.covers = pc.covers)
    (hlast : pc'.last = pc.last) : Tokens (s'.goto p pc') := by
  refine h.move (alike_goto hpc howns hrds hcov hlast) ?_ hlocked hreaders
  rw [← hproc]
  rfl

theorem hand {w : τ} {W' P' : Proc τ} (hne : p ≠ w)
    (hproc : s'.proc = update (update s.proc w W') p P')
    (htok : ∀ q, tok q W' + tok q P' = tok q (s.proc w) + tok q (s.proc p))
    (hcovw : ∀ l, cov l W' = cov l (s.proc w)) (hcovp : ∀ l, cov l P' = cov l (s.proc p))
    (hrdsw : ∀ l, rds l W' = rds l (s.proc w)) (hrdsp : ∀ l, rds l P' = rds l (s.proc p))
    (hlastw : W'.pc.last = (s.proc w).pc.last) (hlastp : P'.pc.last = (s.proc p).pc.last) (hqlock : s'.qlock = s.qlock)
    (hreaders : s'.readers = s.readers) : Tokens s' := by
  have hp : update s.proc w W' p = s.proc p := update_of_ne hne _ _
  refine ⟨fun q => ?_, fun l => ?_, fun u l hu => ?_⟩
  · have hgroup : group s' q = group s q := group_congr (fun l => by
      rw [hproc, tally_update_eq (by rw [hp]; exact hcovp l), tally_update_eq (hcovw l)]) q
    have h₁ := tally_update (tok q) s.proc w W'
    have h₂ := tally_update (tok q) (update s.proc w W') p P'
    have hold := h.locked q
    have hsum := htok q
    rw [hp] at h₂
    rw [hproc, hgroup, hqlock]
    omega
  · rw [hproc, hreaders, tally_update_eq (by rw [hp]; exact hrdsp l), tally_update_eq (hrdsw l)]
    exact h.readers l
  rw [hreaders]
  rw [hproc] at hu
  by_cases hup : u = p
  · subst hup
    rw [update_self, hlastp] at hu
    exact h.last u l hu
  rw [update_of_ne hup] at hu
  by_cases huw : u = w
  · subst huw
    rw [update_self, hlastw] at hu
    exact h.last u l hu
  · rw [update_of_ne huw] at hu
    exact h.last u l hu

theorem relock {pc : Pc τ} (hcov : ∀ l, cov l { s.proc p with pc := pc } = cov l (s.proc p))
    (hrds : ∀ l, rds l { s.proc p with pc := pc } = rds l (s.proc p)) (hlast : pc.last = (s.proc p).pc.last)
    (hproc : s'.proc = s.proc) (hreaders : s'.readers = s.readers)
    (hlocked : ∀ q, tally (tok q) (update s.proc p { s.proc p with pc := pc }) + group s q =
      (s'.qlock q).locked.toNat) : Tokens (s'.goto p pc) := by
  have hupd : (s'.goto p pc).proc = update s.proc p { s.proc p with pc := pc } := by
    rw [← hproc]
    rfl
  refine ⟨fun q => ?_, fun l => ?_, fun u l hu => ?_⟩
  · have hgroup : group (s'.goto p pc) q = group s q :=
      group_congr (fun l => by rw [hupd, tally_update_eq (hcov l)]) q
    rw [hupd, hgroup]
    exact hlocked q
  · change s'.readers l = _
    rw [hupd, hreaders, tally_update_eq (hrds l)]
    exact h.readers l
  change s'.readers l = 0
  rw [hreaders]
  rw [hupd] at hu
  by_cases hup : u = p
  · subst hup
    rw [update_self, hlast] at hu
    exact h.last u l hu
  · rw [update_of_ne hup] at hu
    exact h.last u l hu

theorem take {pc : Pc τ} (hl : (s.qlock q).locked = false)
    (htok : ∀ q', tok q' { s.proc p with pc := pc } = tok q' (s.proc p) + if q' = q then 1 else 0) (hcov : ∀ l,
    cov l { s.proc p with pc := pc } = cov l (s.proc p))
    (hrds : ∀ l, rds l { s.proc p with pc := pc } = rds l (s.proc p)) (hlast : pc.last = (s.proc p).pc.last)
    (hproc : s'.proc = s.proc)
    (hlocked : ∀ q', (s'.qlock q').locked = if q' = q then true else (s.qlock q').locked)
    (hreaders : s'.readers = s.readers) : Tokens (s'.goto p pc) := by
  refine h.relock hcov hrds hlast hproc hreaders fun q' => ?_
  have hold := h.locked q'
  have htally := tally_update (tok q') s.proc p { s.proc p with pc := pc }
  rw [hlocked]
  rw [htok] at htally
  by_cases hq : q' = q
  · subst hq
    rw [hl] at hold
    simp only [↓reduceIte, Bool.toNat_true, Bool.toNat_false] at hold htally ⊢
    omega
  · simp only [hq, ↓reduceIte] at htally ⊢
    omega

theorem give {pc : Pc τ}
    (htok : ∀ q', tok q' (s.proc p) = tok q' { s.proc p with pc := pc } + if q' = q then 1 else 0) (hcov : ∀ l,
    cov l { s.proc p with pc := pc } = cov l (s.proc p))
    (hrds : ∀ l, rds l { s.proc p with pc := pc } = rds l (s.proc p)) (hlast : pc.last = (s.proc p).pc.last)
    (hproc : s'.proc = s.proc)
    (hlocked : ∀ q', (s'.qlock q').locked = if q' = q then false else (s.qlock q').locked)
    (hreaders : s'.readers = s.readers) : Tokens (s'.goto p pc) := by
  refine h.relock hcov hrds hlast hproc hreaders fun q' => ?_
  have hold := h.locked q'
  have hle := Bool.toNat_le (s.qlock q').locked
  have htally := tally_update (tok q') s.proc p { s.proc p with pc := pc }
  have hpos := le_tally (tok q') s.proc p
  rw [hlocked]
  rw [htok] at htally hpos
  by_cases hq : q' = q
  · subst hq
    simp only [↓reduceIte, Bool.toNat_false] at htally hpos ⊢
    omega
  · simp only [hq, ↓reduceIte] at htally ⊢
    omega

end

end Tokens

end Node9.Sync
