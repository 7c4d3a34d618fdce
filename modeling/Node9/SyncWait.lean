import Node9.Lib.Linked
import Node9.Lib.Waiting
import Node9.SyncSpin

/-!
# The queues and the semaphores

A process waits in the queue of a `QLock` or on a `Rendez`. `Queues`: the queue in memory is the list `Q q`
of those that came and to whom the lock has not been passed. `Waits`: a process that waits is recorded
there, or one process is about to ready it, or its semaphore is posted, and only one of these.
-/

namespace Node9.Sync
open Linked Waiting Function Option

variable {τ : Type}

inductive Target
  | q (q : QId)
  | r (r : Nat)
  deriving DecidableEq

def Pc.target : Pc τ → Option Target
  | lk c .queued | lk c .block => some (.q c.lock)
  | sleep r .recorded | sleep r .note | sleep r .unlockP | sleep r .block => some (.r r)
  | _ => none

/-- Whom the process is about to ready. -/
def Pc.wakes : Pc τ → Option (τ × Target)
  | un c (.popped w) | un c (.ready w) => some (w, .q c.lock)
  | wakeup r (.ready w) => some (w, .r r)
  | swiproc t _ (.ready r) => some (t, .r r)
  | _ => none

def Proc.view (P : Proc τ) : View τ Target := ⟨P.pc.target, P.pc.wakes, P.sem⟩

def view (s : State τ) (p : τ) : View τ Target := (s.proc p).view

def lists (Q : QId → List τ) (s : State τ) : Target → List τ
  | .q q => Q q
  | .r r => (s.rendez r).toList

def cells (s : State τ) : QId ⊕ τ → Option τ := Sum.elim (fun q => (s.qlock q).head) s.qnext

structure Queues (Q : QId → List τ) (s : State τ) : Prop where
  chain : ∀ q, Chain (cells s) Sum.inr (.inl q) (Q q)
  tail : ∀ q, (s.qlock q).tail = (Q q).getLast?
  busy : ∀ q, Q q ≠ [] → (s.qlock q).locked = true
  order : ∀ q, s.came q = s.gone q ++ Q q

variable [DecidableEq τ] {s s' : State τ} {p w : τ} {P : Proc τ} {q : QId} {Q : QId → List τ} {xs : List τ}

theorem view_setp : view (s.setp p P) = update (view s) p P.view := by
  funext u
  by_cases hu : u = p
  · subst hu
    simp [view, State.setp]
  · simp [view, State.setp, hu]

theorem view_same (hv : P.view = (s.proc p).view) : view (s.setp p P) = view s := by
  rw [view_setp, hv]
  exact update_eq_self _ _

/-! ### The queues in memory -/

namespace Queues

omit [DecidableEq τ] in
theorem congr (h : Queues Q s) (hhead : ∀ q, (s'.qlock q).head = (s.qlock q).head)
    (htail : ∀ q, (s'.qlock q).tail = (s.qlock q).tail)
    (hlocked : ∀ q, Q q ≠ [] → (s.qlock q).locked = true → (s'.qlock q).locked = true)
    (hnext : s'.qnext = s.qnext) (hcame : s'.came = s.came) (hgone : s'.gone = s.gone) : Queues Q s' := by
  have hcells : cells s' = cells s := by
    funext c
    cases c with
    | inl q => exact hhead q
    | inr a => exact congrFun hnext a
  refine ⟨fun q => ?_, fun q => ?_, fun q hq => hlocked q hq (h.busy q hq), fun q => ?_⟩
  · rw [hcells]
    exact h.chain q
  · rw [htail]
    exact h.tail q
  · rw [hcame, hgone]
    exact h.order q

omit [DecidableEq τ] in
theorem same (h : Queues Q s) (hqlock : s'.qlock = s.qlock) (hnext : s'.qnext = s.qnext)
    (hcame : s'.came = s.came) (hgone : s'.gone = s.gone) : Queues Q s' :=
  h.congr (fun _ => by rw [hqlock]) (fun _ => by rw [hqlock]) (fun _ _ => by rw [hqlock]; exact id) hnext hcame hgone

omit [DecidableEq τ] in
theorem setLocked (h : Queues Q s) {v : Bool} (hv : Q q ≠ [] → v = true) :
    Queues Q (s.setq q { s.qlock q with locked := v }) := by
  have hq : ∀ q', (s.setq q { s.qlock q with locked := v }).qlock q' =
      if q' = q then { s.qlock q with locked := v } else s.qlock q' := fun q' => update_apply _ _ _ _
  refine h.congr (fun q' => ?_) (fun q' => ?_) (fun q' hne hl => ?_) rfl rfl rfl
  · rw [hq]
    split
    case isTrue heq => rw [heq]
    case isFalse => rfl
  · rw [hq]
    split
    case isTrue heq => rw [heq]
    case isFalse => rfl
  · rw [hq]
    split
    case isTrue heq => exact hv (heq ▸ hne)
    case isFalse => exact hl

theorem cells_enqueue : cells (enqueue s q p) =
    update (update (cells s) (((s.qlock q).tail.map Sum.inr).getD (.inl q)) (some p)) (.inr p)
      none := by
  funext c
  cases htail : (s.qlock q).tail with
  | none =>
    cases c with
    | inl q' =>
      rw [update_of_ne Sum.inl_ne_inr]
      by_cases hq : q' = q
      · subst hq
        rw [map_none, getD_none, update_self]
        simp only [cells, enqueue, htail, Sum.elim_inl, update_self, isNone_none, ↓reduceIte]
      · rw [map_none, getD_none, update_of_ne fun heq => hq (Sum.inl.inj heq)]
        simp only [cells, enqueue, Sum.elim_inl, update_of_ne hq]
    | inr a =>
      by_cases ha : a = p
      · subst ha
        simp only [cells, enqueue, Sum.elim_inr, update_self]
      · rw [update_of_ne fun heq => ha (Sum.inr.inj heq), map_none, getD_none,
          update_of_ne Sum.inr_ne_inl]
        simp only [cells, enqueue, htail, Sum.elim_inr, elim_none, update_of_ne ha]
  | some b =>
    cases c with
    | inl q' =>
      rw [update_of_ne Sum.inl_ne_inr, map_some, getD_some,
        update_of_ne Sum.inl_ne_inr]
      by_cases hq : q' = q
      · subst hq
        simp only [cells, enqueue, htail, Sum.elim_inl, update_self, isNone_some, Bool.false_eq_true,
          ↓reduceIte]
      · simp only [cells, enqueue, Sum.elim_inl, update_of_ne hq]
    | inr a =>
      by_cases ha : a = p
      · subst ha
        simp only [cells, enqueue, Sum.elim_inr, update_self]
      rw [update_of_ne fun heq => ha (Sum.inr.inj heq), map_some, getD_some]
      by_cases hab : a = b
      · subst hab
        simp only [cells, enqueue, htail, Sum.elim_inr, elim_some, update_of_ne ha,
          update_self]
      · rw [update_of_ne fun heq => hab (Sum.inr.inj heq)]
        simp only [cells, enqueue, htail, Sum.elim_inr, elim_some, update_of_ne ha,
          update_of_ne hab]

theorem push (h : Queues Q s) (hp : ∀ q', p ∉ Q q') (hl : (s.qlock q).locked = true)
    (hdisj : ∀ q', q' ≠ q → ∀ b ∈ Q q', b ∉ Q q) :
    Queues (update Q q (Q q ++ [p])) (enqueue s q p) := by
  have hend : ((s.qlock q).tail.map Sum.inr).getD (.inl q) = endCell (Sum.inr (α := QId)) (.inl q) (Q q) := by
    rw [h.tail]
    rfl
  refine ⟨fun q' => ?_, fun q' => ?_, fun q' hne => ?_, fun q' => ?_⟩
  · rw [cells_enqueue, hend]
    by_cases hq : q' = q
    · subst hq
      rw [update_self]
      exact (h.chain q').snoc Sum.inl_ne_inr (hp q') Sum.inr_injective fun _ _ => Sum.inl_ne_inr
    rw [update_of_ne hq]
    refine (h.chain q').congr ?_ fun b hb => ?_
    · rw [update_of_ne Sum.inl_ne_inr, update_of_ne]
      rcases endCell_eq_or (Sum.inr (α := QId)) (.inl q) (Q q) with ⟨he, -⟩ | ⟨a, -, he⟩
      · rw [he]
        exact fun heq => hq (Sum.inl.inj heq)
      · rw [he]
        exact Sum.inl_ne_inr
    have hbp : b ≠ p := fun heq => hp q' (heq ▸ hb)
    rw [update_of_ne fun heq => hbp (Sum.inr.inj heq), update_of_ne]
    rcases endCell_eq_or (Sum.inr (α := QId)) (.inl q) (Q q) with ⟨he, -⟩ | ⟨a, ha, he⟩
    · rw [he]
      exact Sum.inr_ne_inl
    · rw [he]
      rintro heq
      exact hdisj q' hq b hb (Sum.inr.inj heq ▸ ha)
  · by_cases hq : q' = q
    · subst hq
      simp [enqueue]
    · simp [enqueue, hq, h.tail]
  · by_cases hq : q' = q
    · subst hq
      simp [enqueue, hl]
    · rw [update_of_ne hq] at hne
      simp [enqueue, hq, h.busy q' hne]
  · by_cases hq : q' = q
    · subst hq
      simp [enqueue, h.order]
    · simp [enqueue, hq, h.order]

omit [DecidableEq τ] in
theorem head_eq (h : Queues Q s) (q : QId) : (s.qlock q).head = (Q q).head? := by
  have hch := h.chain q
  cases hQ : Q q with
  | nil =>
    rw [hQ] at hch
    exact hch
  | cons w xs =>
    rw [hQ] at hch
    exact hch.1

attribute [local simp] State.setq dequeue

theorem cells_dequeue : cells (dequeue s q w) = update (cells s) (.inl q) (s.qnext w) := by
  funext c
  cases c with
  | inl q' =>
    by_cases hq : q' = q
    · subst hq
      simp [cells]
    · simp [cells, hq]
  | inr a => simp [cells]

theorem pop (h : Queues Q s) (hQ : Q q = w :: xs) :
    Queues (update Q q xs) (dequeue s q w) := by
  have hch := h.chain q
  rw [hQ] at hch
  refine ⟨fun q' => ?_, fun q' => ?_, fun q' hne => ?_, fun q' => ?_⟩
  · rw [cells_dequeue]
    by_cases hq : q' = q
    · subst hq
      rw [update_self]
      exact hch.pop fun _ => Sum.inl_ne_inr
    · rw [update_of_ne hq]
      exact (h.chain q').update_ne (fun heq => hq (Sum.inl.inj heq)) fun _ _ => Sum.inr_ne_inl
  · by_cases hq : q' = q
    · subst hq
      have hnext : s.qnext w = xs.head? := by
        cases xs with
        | nil => exact hch.2
        | cons b ys => exact hch.2.1
      have htail := h.tail q'
      rw [hQ] at htail
      cases xs with
      | nil => simp [hnext]
      | cons b ys => simpa [hnext] using htail
    · simp [hq, h.tail]
  · have hl : (s.qlock q).locked = true := h.busy q (by rw [hQ]; exact List.cons_ne_nil _ _)
    by_cases hq : q' = q
    · subst hq
      simp [hl]
    · rw [update_of_ne hq] at hne
      simp [hq, h.busy q' hne]
  · by_cases hq : q' = q
    · subst hq
      simp [h.order, hQ]
    · simp [hq, h.order]

end Queues

variable [Fintype τ]

structure Waits (Q : QId → List τ) (s : State τ) : Prop where
  queues : Queues Q s
  handoff : Handoff (lists Q s) (view s)

/-- The state of `s'` that `Waits` is about is that of `s`, but for the processes. -/
structure Keeps (s s' : State τ) : Prop where
  qlock : s'.qlock = s.qlock
  qnext : s'.qnext = s.qnext
  came : s'.came = s.came
  gone : s'.gone = s.gone
  rendez : s'.rendez = s.rendez

omit [Fintype τ] in
theorem view_goto {pc : Pc τ} (p : τ) (h : pc.target = (s.proc p).pc.target) (h' : pc.wakes = (s.proc p).pc.wakes) :
    view (s.goto p pc) = view s :=
  view_same (by simp [Proc.view, h, h'])

omit [Fintype τ] in
theorem view_ret {v : Pc τ × List Hold} (p : τ) (h : v.1.target = (s.proc p).pc.target)
    (h' : v.1.wakes = (s.proc p).pc.wakes) : view (s.ret p v) = view s :=
  view_same (by simp [Proc.view, h, h'])

omit [DecidableEq τ] [Fintype τ] in
theorem lists_same (hr : s'.rendez = s.rendez) : lists Q s' = lists Q s := by
  funext t
  cases t with
  | q q => rfl
  | r r => simp [lists, hr]

omit [DecidableEq τ] [Fintype τ] in
theorem lists_queue (hr : s'.rendez = s.rendez) :
    lists (update Q q xs) s' = update (lists Q s) (.q q) xs := by
  funext t
  cases t with
  | q q' =>
    by_cases hq : q' = q
    · subst hq
      simp [lists]
    · rw [update_of_ne fun heq => hq (Target.q.inj heq)]
      simp [lists, hq]
  | r r =>
    rw [update_of_ne Target.noConfusion]
    simp [lists, hr]

omit [DecidableEq τ] [Fintype τ] in
theorem lists_rendez {r : Nat} {v : Option τ} (hr : s'.rendez = update s.rendez r v) :
    lists Q s' = update (lists Q s) (.r r) v.toList := by
  funext t
  cases t with
  | q q => rw [update_of_ne Target.noConfusion, lists, lists]
  | r r' =>
    by_cases hr' : r' = r
    · subst hr'
      simp [lists, hr]
    · rw [update_of_ne fun heq => hr' (Target.r.inj heq)]
      simp [lists, hr, hr']

namespace Waits

theorem quiet (h : Waits Q s) (hk : Keeps s s') (hv : view s' = view s) : Waits Q s' := by
  refine ⟨h.queues.same hk.qlock hk.qnext hk.came hk.gone, ?_⟩
  rw [lists_same hk.rendez, hv]
  exact h.handoff

theorem not_mem (h : Waits Q s) (hp : (s.proc p).pc.target = none) (q : QId) : p ∉ Q q := by
  intro hmem
  have ht : (s.proc p).pc.target = some (.q q) := h.handoff.listed (.q q) p hmem
  rw [hp] at ht
  cases ht

theorem apart (h : Waits Q s) {q' : QId} (hq : q' ≠ q) (hw : w ∈ Q q') : w ∉ Q q := by
  intro hmem
  have h₁ : (s.proc w).pc.target = some (.q q') := h.handoff.listed (.q q') w hw
  have h₂ : (s.proc w).pc.target = some (.q q) := h.handoff.listed (.q q) w hmem
  exact hq (Target.q.inj (Option.some.inj (h₁.symm.trans h₂)))

theorem sem_zero (h : Waits Q s) (hp : (s.proc p).pc.target = none) : (s.proc p).sem = 0 :=
  (h.handoff.idle hp).1

theorem sem_le (h : Waits Q s) (p : τ) : (s.proc p).sem ≤ 1 := h.handoff.sem_le p

theorem enqueue {c : LkFrom} (h : Waits Q s) (hp : (s.proc p).pc = .lk c .test)
    (hl : (s.qlock c.lock).locked = true) :
    Waits (update Q c.lock (Q c.lock ++ [p])) ((enqueue s c.lock p).goto p (.lk c .queued)) := by
  have hnone : (s.proc p).pc.target = none := by rw [hp]; rfl
  refine ⟨(h.queues.push (h.not_mem hnone) hl fun q' hq b hb => h.apart hq hb).same rfl rfl rfl rfl, ?_⟩
  have hlists : lists (update Q c.lock (Q c.lock ++ [p])) ((Sync.enqueue s c.lock p).goto p (.lk c .queued)) =
      update (lists Q s) (.q c.lock) (Q c.lock ++ [p]) := lists_queue rfl
  rw [hlists, State.goto, view_setp]
  have hwakes : (s.proc p).pc.wakes = none := by rw [hp]; rfl
  exact h.handoff.wait hnone rfl hwakes.symm rfl List.perm_append_comm

theorem dequeue {c : UnFrom} (h : Waits Q s) (hp : (s.proc p).pc = .un c .pop) (hQ : Q c.lock = w :: xs) :
    Waits (update Q c.lock xs) ((dequeue s c.lock w).goto p (.un c (.popped w))) := by
  refine ⟨(h.queues.pop hQ).same rfl rfl rfl rfl, ?_⟩
  have hlists : lists (update Q c.lock xs) ((Sync.dequeue s c.lock w).goto p (.un c (.popped w))) =
      update (lists Q s) (.q c.lock) xs := lists_queue rfl
  rw [hlists, State.goto, view_setp]
  have hnone : (s.proc p).pc.target = none := by rw [hp]; rfl
  have hwakes : (s.proc p).pc.wakes = none := by rw [hp]; rfl
  exact h.handoff.take (List.Perm.of_eq hQ) hwakes hnone.symm rfl rfl

theorem sleep {r : Nat} (h : Waits Q s) (hp : (s.proc p).pc = .sleep r .test) (hr : s.rendez r = none) :
    Waits Q ({ s with rendez := update s.rendez r (some p) }.goto p (.sleep r .recorded)) := by
  refine ⟨h.queues.same rfl rfl rfl rfl, ?_⟩
  have hlists : lists Q ({ s with rendez := update s.rendez r (some p) }.goto p (.sleep r .recorded)) =
      update (lists Q s) (.r r) [p] := lists_rendez (r := r) (v := some p) rfl
  have hnone : (s.proc p).pc.target = none := by rw [hp]; rfl
  have hwakes : (s.proc p).pc.wakes = none := by rw [hp]; rfl
  rw [hlists, State.goto, view_setp]
  exact h.handoff.wait hnone rfl hwakes.symm rfl (by simp [lists, hr])

theorem wake {r : Nat} {pc : Pc τ} (h : Waits Q s) (hk : s'.proc = s.proc ∧ s'.qlock = s.qlock ∧
    s'.qnext = s.qnext ∧ s'.came = s.came ∧ s'.gone = s.gone ∧ s'.rendez = update s.rendez r none)
    (hr : s.rendez r = some w) (hwakes : (s.proc p).pc.wakes = none) (ht : pc.target = (s.proc p).pc.target)
    (hpc : pc.wakes = some (w, .r r)) : Waits Q (s'.goto p pc) := by
  obtain ⟨hproc, hqlock, hnext, hcame, hgone, hrendez⟩ := hk
  refine ⟨h.queues.same hqlock hnext hcame hgone, ?_⟩
  have hview : view s' = view s := by
    unfold view
    rw [hproc]
  have hlists : lists Q (s'.goto p pc) = update (lists Q s) (.r r) [] := lists_rendez hrendez
  rw [hlists, State.goto, view_setp, hview, hproc]
  have hmem : (lists Q s (.r r)).Perm [w] := List.Perm.of_eq (by simp [lists, hr])
  exact h.handoff.take hmem hwakes ht hpc rfl

theorem ready {t : Target} {v : Pc τ × List Hold} (h : Waits Q s) (hp : (s.proc p).pc.target = none)
    (hw : (s.proc p).pc.wakes = some (w, t)) (ht : v.1.target = none) (hv : v.1.wakes = none) :
    Waits Q ((s.osready w).ret p v) := by
  have hwt : (s.proc w).pc.target = some t := h.handoff.same p w t hw
  have hne : p ≠ w := by
    rintro rfl
    rw [hp] at hwt
    cases hwt
  refine ⟨h.queues.same rfl rfl rfl rfl, ?_⟩
  have hlists : lists Q ((s.osready w).ret p v) = lists Q s := lists_same rfl
  rw [hlists, State.ret, view_setp, State.osready, view_setp]
  have hsame : ((s.setp w { s.proc w with sem := (s.proc w).sem + 1 }).proc p) = s.proc p :=
    update_of_ne hne _ _
  rw [hsame]
  exact h.handoff.post hw hne (by rw [view, Proc.view, Proc.view, hp]; exact ht) hv rfl rfl rfl rfl

theorem pass {v : Pc τ × List Hold} (h : Waits Q s) (hs : s.osblock p = some s')
    (hw : v.1.wakes = (s.proc p).pc.wakes) (ht : v.1.target = none) : Waits Q (s'.ret p v) := by
  obtain ⟨hsem, rfl⟩ := osblock_some hs
  refine ⟨h.queues.same rfl rfl rfl rfl, ?_⟩
  have hlists : lists Q ((s.setp p { s.proc p with sem := (s.proc p).sem - 1 }).ret p v) = lists Q s := lists_same rfl
  rw [hlists, State.ret, view_setp, view_setp, update_idem]
  have hself : ((s.setp p { s.proc p with sem := (s.proc p).sem - 1 }).proc p) =
      { s.proc p with sem := (s.proc p).sem - 1 } := update_self _ _ _
  rw [hself]
  exact h.handoff.pass hsem ht hw rfl

theorem goto {pc : Pc τ} (h : Waits Q s) (ht : pc.target = (s.proc p).pc.target)
    (hw : pc.wakes = (s.proc p).pc.wakes) : Waits Q (s.goto p pc) :=
  h.quiet ⟨rfl, rfl, rfl, rfl, rfl⟩ (view_goto p ht hw)

theorem ret {v : Pc τ × List Hold} (h : Waits Q s) (ht : v.1.target = (s.proc p).pc.target)
    (hw : v.1.wakes = (s.proc p).pc.wakes) : Waits Q (s.ret p v) :=
  h.quiet ⟨rfl, rfl, rfl, rfl, rfl⟩ (view_ret p ht hw)

theorem lock {l : Spin τ} (h : Waits Q s) (hl : s.lock p l = some s') : Waits Q s' := by
  obtain ⟨-, rfl⟩ := lock_some hl
  exact h.quiet ⟨rfl, rfl, rfl, rfl, rfl⟩ rfl

theorem unlock (h : Waits Q s) (l : Spin τ) : Waits Q (s.unlock l) := h.quiet ⟨rfl, rfl, rfl, rfl, rfl⟩ rfl

theorem setLocked {v : Bool} (h : Waits Q s) (hv : Q q ≠ [] → v = true) :
    Waits Q (s.setq q { s.qlock q with locked := v }) :=
  ⟨h.queues.setLocked hv, h.handoff⟩

end Waits

omit [Fintype τ] in
theorem lock_pc {l : Spin τ} (hl : s.lock p l = some s') : s'.proc = s.proc := by
  obtain ⟨-, rfl⟩ := lock_some hl
  rfl

theorem qlock_waits {c : LkFrom} {a : Lk} (h : Waits Q s) (hpc : (s.proc p).pc = .lk c a)
    (hs : qlock s p c a = some s') : ∃ Q', Waits Q' s' := by
  cases a with
  | lock =>
    obtain ⟨s₁, hl, rfl⟩ := map_eq_some_iff.1 hs
    exact ⟨Q, (h.lock hl).goto (by rw [lock_pc hl, hpc]; rfl) (by rw [lock_pc hl, hpc]; rfl)⟩
  | test =>
    dsimp only [qlock] at hs
    split at hs
    · cases hs
      refine ⟨Q, (h.setLocked fun _ => rfl).goto ?_ ?_⟩
      · exact (congrArg Pc.target hpc).symm
      · exact (congrArg Pc.wakes hpc).symm
    case isFalse hl =>
      cases hs
      exact ⟨_, h.enqueue hpc (by simpa using hl)⟩
  | got =>
    cases hs
    refine ⟨Q, (h.unlock _).ret ?_ ?_⟩
    · exact Eq.trans (by cases c <;> rfl) (congrArg Pc.target hpc).symm
    · exact Eq.trans (by cases c <;> rfl) (congrArg Pc.wakes hpc).symm
  | queued =>
    cases hs
    refine ⟨Q, (h.unlock _).goto ?_ ?_⟩
    · exact (congrArg Pc.target hpc).symm
    · exact (congrArg Pc.wakes hpc).symm
  | block =>
    obtain ⟨s₁, hb, rfl⟩ := map_eq_some_iff.1 hs
    refine ⟨Q, h.pass hb ?_ ?_⟩
    · exact Eq.trans (by cases c <;> rfl) (congrArg Pc.wakes hpc).symm
    · cases c <;> rfl

theorem canqlock_waits {c : CanFrom} {a : Can} (h : Waits Q s) (hpc : (s.proc p).pc = .can c a) :
    Waits Q (canqlock s p c a) := by
  have ht : none = (s.proc p).pc.target := (congrArg Pc.target hpc).symm
  have hw : none = (s.proc p).pc.wakes := (congrArg Pc.wakes hpc).symm
  have hret : ∀ ok, (c.ret ok : Pc τ × List Hold).1.target = none ∧ (c.ret ok : Pc τ × List Hold).1.wakes = none := by
    intro ok
    cases c <;> cases ok <;> exact ⟨rfl, rfl⟩
  cases a with
  | lock =>
    dsimp only [canqlock]
    cases hl : s.lock p (.use c.lock) with
    | some s₁ => exact (h.lock hl).goto (by rw [lock_pc hl]; exact ht) (by rw [lock_pc hl]; exact hw)
    | none => exact h.ret ((hret false).1.trans ht) ((hret false).2.trans hw)
  | test =>
    dsimp only [canqlock]
    split
    · exact h.goto ht hw
    · exact (h.setLocked fun _ => rfl).goto ht hw
  | no => exact (h.unlock _).ret ((hret false).1.trans ht) ((hret false).2.trans hw)
  | got => exact (h.unlock _).ret ((hret true).1.trans ht) ((hret true).2.trans hw)

theorem qunlock_waits {c : UnFrom} {a : Un τ} (h : Waits Q s) (hpc : (s.proc p).pc = .un c a)
    (hs : qunlock s p c a = some s') : ∃ Q', Waits Q' s' := by
  have hret : (c.ret : Pc τ × List Hold).1.target = none ∧ (c.ret : Pc τ × List Hold).1.wakes = none := by
    cases c <;> exact ⟨rfl, rfl⟩
  have ht : none = (s.proc p).pc.target := (congrArg Pc.target hpc).symm
  have hw := (congrArg Pc.wakes hpc).symm
  cases a with
  | lock =>
    obtain ⟨s₁, hl, rfl⟩ := map_eq_some_iff.1 hs
    exact ⟨Q, (h.lock hl).goto (by rw [lock_pc hl]; exact ht) (by rw [lock_pc hl]; exact hw)⟩
  | pop =>
    dsimp only [qunlock] at hs
    have hhead := h.queues.head_eq c.lock
    split at hs
    case h_1 w hsome =>
      obtain ⟨xs, hQ⟩ := List.head?_eq_some_iff.1 (hhead.symm.trans hsome)
      cases hs
      exact ⟨_, h.dequeue hpc hQ⟩
    case h_2 hnone =>
      have hQ : Q c.lock = [] := List.head?_eq_none_iff.1 (hhead.symm.trans hnone)
      cases hs
      exact ⟨Q, Waits.goto (h.setLocked fun hne => absurd hQ hne) ht hw⟩
  | popped w =>
    cases hs
    exact ⟨Q, (h.unlock _).goto ht hw⟩
  | ready w =>
    cases hs
    exact ⟨Q, h.ready ht.symm hw.symm hret.1 hret.2⟩
  | freed =>
    cases hs
    exact ⟨Q, (h.unlock _).ret (hret.1.trans ht) (hret.2.trans hw)⟩

theorem rw_waits {l : Nat} {a : Rw} (h : Waits Q s) (hpc : (s.proc p).pc = .rw l a) (hs : rw s p l a = some s') :
    Waits Q s' := by
  have ht : none = (s.proc p).pc.target := (congrArg Pc.target hpc).symm
  have hw : none = (s.proc p).pc.wakes := (congrArg Pc.wakes hpc).symm
  cases a with
  | rlockL | runlockL =>
    obtain ⟨s₁, hl, rfl⟩ := map_eq_some_iff.1 hs
    exact (h.lock hl).goto (by rw [lock_pc hl]; exact ht) (by rw [lock_pc hl]; exact hw)
  | rlockInc =>
    cases hs
    exact Waits.goto (h.quiet ⟨rfl, rfl, rfl, rfl, rfl⟩ rfl) ht hw
  | runlockDec =>
    cases hs
    refine Waits.goto (h.quiet ⟨rfl, rfl, rfl, rfl, rfl⟩ rfl) ?_ ?_
    · split <;> exact ht
    · split <;> exact hw
  | rlockUn | runlockUn =>
    cases hs
    exact (h.unlock _).goto ht hw

theorem sleep_waits {r : Nat} {f : Bool} {a : Sl} (h : Waits Q s) (hpc : (s.proc p).pc = .sleep r a)
    (hs : sleep s p r f a = some s') : Waits Q s' := by
  have ht := (congrArg Pc.target hpc).symm
  have hw : none = (s.proc p).pc.wakes := (congrArg Pc.wakes hpc).symm
  cases a with
  | lockP | lockR | relock =>
    obtain ⟨s₁, hl, rfl⟩ := map_eq_some_iff.1 hs
    exact (h.lock hl).goto (by rw [lock_pc hl]; exact ht) (by rw [lock_pc hl]; exact hw)
  | test =>
    dsimp only [sleep] at hs
    split at hs
    · cases hs
      exact h.goto ht hw
    split at hs
    · cases hs
      exact h.goto ht hw
    case h_2 hr =>
      cases hs
      exact h.sleep hpc hr
  | panic => cases hs
  | stay | recorded | unlockP | raise | done =>
    cases hs
    exact (h.unlock _).goto ht hw
  | note | clear =>
    cases hs
    exact Waits.goto (h.quiet ⟨rfl, rfl, rfl, rfl, rfl⟩ rfl) ht hw
  | block =>
    obtain ⟨s₁, hb, rfl⟩ := map_eq_some_iff.1 hs
    exact h.pass (v := (.sleep r .relock, [])) hb hw rfl
  | check =>
    dsimp only [sleep] at hs
    split at hs
    · cases hs
      exact Waits.goto (h.quiet ⟨rfl, rfl, rfl, rfl, rfl⟩ rfl) ht hw
    · cases hs
      exact h.goto ht hw

theorem wakeup_waits {r : Nat} {a : Wk τ} (h : Waits Q s) (hpc : (s.proc p).pc = .wakeup r a)
    (hs : wakeup s p r a = some s') : Waits Q s' := by
  have ht : none = (s.proc p).pc.target := (congrArg Pc.target hpc).symm
  have hw := (congrArg Pc.wakes hpc).symm
  cases a with
  | lock =>
    obtain ⟨s₁, hl, rfl⟩ := map_eq_some_iff.1 hs
    exact (h.lock hl).goto (by rw [lock_pc hl]; exact ht) (by rw [lock_pc hl]; exact hw)
  | take =>
    dsimp only [wakeup] at hs
    split at hs
    case h_1 w hr =>
      cases hs
      exact h.wake ⟨rfl, rfl, rfl, rfl, rfl, rfl⟩ hr hw.symm ht rfl
    case h_2 =>
      cases hs
      exact h.goto ht hw
  | ready w =>
    cases hs
    exact h.ready (v := (.wakeup r .unlock, [])) ht.symm hw.symm rfl rfl
  | unlock =>
    cases hs
    exact (h.unlock _).goto ht hw

theorem swiproc_waits {t : τ} {i : Bool} {a : Sw} (h : Waits Q s) (hpc : (s.proc p).pc = .swiproc t i a)
    (hs : swiproc s p t i a = some s') : Waits Q s' := by
  have ht : none = (s.proc p).pc.target := (congrArg Pc.target hpc).symm
  have hw := (congrArg Pc.wakes hpc).symm
  cases a with
  | lockP | lockR r | lockS =>
    obtain ⟨s₁, hl, rfl⟩ := map_eq_some_iff.1 hs
    exact (h.lock hl).goto (by rw [lock_pc hl]; exact ht) (by rw [lock_pc hl]; exact hw)
  | kill =>
    cases hs
    refine Waits.goto (h.quiet ⟨rfl, rfl, rfl, rfl, rfl⟩ rfl) ?_ ?_
    · cases s.r t <;> exact ht
    · cases s.r t <;> exact hw
  | test r =>
    dsimp only [swiproc] at hs
    split at hs
    case isTrue hr =>
      cases hs
      exact h.wake ⟨rfl, rfl, rfl, rfl, rfl, rfl⟩ hr hw.symm ht rfl
    case isFalse =>
      cases hs
      exact h.goto ht hw
  | ready r =>
    cases hs
    exact h.ready (v := (.swiproc t i (.unlockR r), [])) ht.symm hw.symm rfl rfl
  | host =>
    dsimp only [swiproc] at hs
    split at hs
    · cases hs
      exact Waits.goto (h.quiet ⟨rfl, rfl, rfl, rfl, rfl⟩ rfl) ht hw
    · cases hs
      exact h.goto ht hw
  | unlockR r | unlockP | unlockH | unlockS =>
    cases hs
    exact (h.unlock _).goto ht hw

theorem notkilled_waits {a : Nk} (h : Waits Q s) (hpc : (s.proc p).pc = .notkilled a)
    (hs : notkilled s p a = some s') : Waits Q s' := by
  have ht : none = (s.proc p).pc.target := (congrArg Pc.target hpc).symm
  have hw : none = (s.proc p).pc.wakes := (congrArg Pc.wakes hpc).symm
  cases a with
  | lock =>
    obtain ⟨s₁, hl, rfl⟩ := map_eq_some_iff.1 hs
    exact (h.lock hl).goto (by rw [lock_pc hl]; exact ht) (by rw [lock_pc hl]; exact hw)
  | clear =>
    cases hs
    exact Waits.goto (h.quiet ⟨rfl, rfl, rfl, rfl, rfl⟩ rfl) ht hw
  | unlock =>
    cases hs
    exact (h.unlock _).goto ht hw

theorem go_waits {f : Bool} (h : Waits Q s) (hs : go s p f = some s') : ∃ Q', Waits Q' s' := by
  unfold go at hs
  split at hs
  case h_1 => cases hs
  case h_2 hpc => exact qlock_waits h hpc hs
  case h_3 hpc =>
    cases hs
    exact ⟨Q, canqlock_waits h hpc⟩
  case h_4 hpc => exact qunlock_waits h hpc hs
  case h_5 hpc => exact ⟨Q, rw_waits h hpc hs⟩
  case h_6 hpc => exact ⟨Q, sleep_waits h hpc hs⟩
  case h_7 hpc => exact ⟨Q, wakeup_waits h hpc hs⟩
  case h_8 hpc => exact ⟨Q, swiproc_waits h hpc hs⟩
  case h_9 hpc => exact ⟨Q, notkilled_waits h hpc hs⟩

theorem call_waits {c : Call τ} (h : Waits Q s) (hpc : (s.proc p).pc = .idle) (hs : call s p c = some s') :
    Waits Q s' := by
  have ht : c.enter.target = (s.proc p).pc.target := Eq.trans (by cases c <;> rfl) (congrArg Pc.target hpc).symm
  have hw : c.enter.wakes = (s.proc p).pc.wakes := Eq.trans (by cases c <;> rfl) (congrArg Pc.wakes hpc).symm
  unfold call at hs
  split at hs
  · cases hs
    exact h.goto ht hw
  · split at hs
    · cases hs
      exact h.quiet ⟨rfl, rfl, rfl, rfl, rfl⟩ (view_same (by simp [Proc.view, ht, hw]))
    · cases hs

theorem step_waits {a : Act τ} (h : Waits Q s) (hs : step s a = some s') : ∃ Q', Waits Q' s' := by
  cases a with
  | call p c =>
    dsimp only [step] at hs
    split at hs
    case h_1 hpc => exact ⟨Q, call_waits h hpc hs⟩
    case h_2 => cases hs
  | go p f => exact go_waits h hs
  | syscall p v =>
    dsimp only [step] at hs
    split at hs
    · cases hs
      exact ⟨Q, h.quiet ⟨rfl, rfl, rfl, rfl, rfl⟩ rfl⟩
    · cases hs

theorem start_waits : Waits (fun _ => []) (start τ) := by
  refine ⟨⟨fun q => rfl, fun q => rfl, fun q hq => absurd rfl hq, fun q => rfl⟩, fun t w hw => ?_, fun u w t hu => ?_,
    fun w => ?_⟩
  · cases t with
    | q q => cases hw
    | r r => cases hw
  · cases hu
  · have hzero : Tally.tally (View.takes w) (view (start τ)) = 0 := Tally.eq_zero_iff.2 fun u => rfl
    rw [hzero]
    rfl

end Node9.Sync
