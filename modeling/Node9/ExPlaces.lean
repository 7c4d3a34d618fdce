import Node9.ExSlave
import Node9.Lib.Locks

/-!
# Where the requests of an export are

Two facts that hold in every run, whatever the clients send: the locks exclude each other (`LockInv`), and
every request is in one place at a time (`Placed`): with its reader, in the queue, with a slave, in the flush
queue of another request, with the slave that answers it, or gone.
-/

namespace Node9.ExSlave
open Steps Locks Function Option

def Reader.holds (fs : Nat) : Reader → List Lock
  | .enq _ | .flush _ | .shut => [.exq]
  | .work _ | .wantReq _ _ | .abandon | .wantShutReq _ => [.fs fs]
  | .req _ q | .shutReq q => [.fs fs, .req q]
  | _ => []

def Reader.wants (fs : Nat) : Reader → Option Lock
  | .wantEnq _ | .wantFlush _ | .wantShut => some .exq
  | .wantWork _ | .wantAbandon => some (.fs fs)
  | .wantReq _ q | .wantShutReq q => some (.req q)
  | _ => none

def Slave.holds : Slave → List Lock
  | .sleep | .wantTake => [.qwait]
  | .take => [.qwait, .exq]
  | .wantPush _ _ => [.exq]
  | .push _ fs => [.exq, .fs fs]
  | .fin q _ _ | .loop q _ => [.req q]
  | .done _ fs => [.fs fs]
  | _ => []

def Slave.wants : Slave → Option Lock
  | .top => some .qwait
  | .wantTake => some .exq
  | .wantPush _ fs | .wantDone _ fs => some (.fs fs)
  | .wantFin q _ _ | .wantLoop q _ => some (.req q)
  | _ => none

attribute [local simp] Reader.holds Slave.holds

namespace St

def held (s : St) : Tid → List Lock
  | .reader fs => (s.reader fs).holds fs
  | .slave i => (s.slave i).holds

def wants (s : St) : Tid → Option Lock
  | .reader fs => (s.reader fs).wants fs
  | .slave i => (s.slave i).wants

end St

/-- With `strict`, a thread owns no more than its code says. -/
structure LockInv (strict : Prop) (s : St) : Prop where
  owned : Owned strict s.owner s.held
  readers : ∀ fs, s.nconn ≤ fs → s.reader fs = .unborn
  slaves : ∀ i, s.nslave ≤ i → s.slave i = .unborn

theorem lockInv_init (strict : Prop) : LockInv strict init where
  owned := ⟨fun t l hl => by cases t <;> simp [init, St.held] at hl, fun _ l t hl => nomatch hl⟩
  readers _ _ := rfl
  slaves _ _ := rfl

theorem held_goR (s : St) (fs : Nat) (p : Reader) :
    (s.goR fs p).held = update s.held (.reader fs) (p.holds fs) := by
  funext t
  cases t with
  | reader fs' =>
    by_cases h : fs' = fs
    · subst h; simp [St.held, St.goR]
    · simp [St.held, St.goR, h]
  | slave i => simp [St.held, St.goR]

theorem held_goS (s : St) (i : Nat) (p : Slave) :
    (s.goS i p).held = update s.held (.slave i) p.holds := by
  funext t
  cases t with
  | reader fs => simp [St.held, St.goS]
  | slave i' =>
    by_cases h : i' = i
    · subst h; simp [St.held, St.goS]
    · simp [St.held, St.goS, h]

theorem lock_eq_some {s s' : St} {l : Lock} {t : Tid} (h : s.lock l t = some s') :
    s.owner l = none ∧ s' = { s with owner := update s.owner l (some t) } := by
  unfold St.lock at h
  split at h
  · next hl => exact ⟨hl, (Option.some.inj h).symm⟩
  · cases h

namespace LockInv
variable {strict : Prop} {s s' : St} {fs i : Nat} {p : Reader} {p' : Slave} {l l' : Lock}

theorem set (h : LockInv strict s) (m : Mem) : LockInv strict (s.set m) := ⟨h.owned, h.readers, h.slaves⟩

theorem readers_update (h : LockInv strict s) (hp : s.reader fs ≠ .unborn) :
    ∀ fs', s.nconn ≤ fs' → update s.reader fs p fs' = .unborn := by
  intro fs' hfs
  have hne : fs' ≠ fs := by
    rintro rfl
    exact hp (h.readers fs' hfs)
  rw [update_of_ne hne]
  exact h.readers fs' hfs

theorem slaves_update (h : LockInv strict s) (hp : s.slave i ≠ .unborn) :
    ∀ i', s.nslave ≤ i' → update s.slave i p' i' = .unborn := by
  intro i' hi
  have hne : i' ≠ i := by
    rintro rfl
    exact hp (h.slaves i' hi)
  rw [update_of_ne hne]
  exact h.slaves i' hi

/-! The reader goes on: without a lock, with one more, with one or two less. -/

section
variable (h : LockInv strict s)
include h

theorem goR (hp : s.reader fs ≠ .unborn) (hh : p.holds fs = (s.reader fs).holds fs) :
    LockInv strict (s.goR fs p) := by
  refine ⟨?_, h.readers_update hp, h.slaves⟩
  rw [held_goR]
  exact h.owned.stay hh

theorem lockR (hs : (s.lock l (.reader fs)).map (St.goR · fs p) = some s')
    (hp : s.reader fs ≠ .unborn) (hh : ∀ k, k ∈ p.holds fs ↔ k = l ∨ k ∈ (s.reader fs).holds fs) :
    LockInv strict s' := by
  obtain ⟨s₁, hs₁, rfl⟩ := map_eq_some_iff.1 hs
  obtain ⟨hl, rfl⟩ := lock_eq_some hs₁
  refine ⟨?_, h.readers_update hp, h.slaves⟩
  rw [held_goR]
  exact h.owned.acquire hl hh

section
variable (hl : l ∈ (s.reader fs).holds fs)
include hl

theorem unlockR
    (hh : ∀ k, k ∈ p.holds fs ↔ k ≠ l ∧ k ∈ (s.reader fs).holds fs) : LockInv strict ((s.unlock l).goR fs p) := by
  have hp : s.reader fs ≠ .unborn := fun hu => by simp [hu] at hl
  refine ⟨?_, h.readers_update hp, h.slaves⟩
  rw [held_goR]
  exact h.owned.release hl hh

theorem unlockR₂ (hl' : l' ∈ (s.reader fs).holds fs)
    (hne : l' ≠ l)
    (hh : ∀ k, k ∈ p.holds fs ↔ k ≠ l' ∧ k ≠ l ∧ k ∈ (s.reader fs).holds fs) :
    LockInv strict (((s.unlock l).unlock l').goR fs p) := by
  have hp : s.reader fs ≠ .unborn := fun hu => by simp [hu] at hl
  refine ⟨?_, h.readers_update hp, h.slaves⟩
  rw [held_goR]
  exact h.owned.release₂ hl hl' hne hh

theorem forgetR (hh : p.holds fs = []) (hstrict : ¬ strict) :
    LockInv strict ((s.unlock l).goR fs p) := by
  have hp : s.reader fs ≠ .unborn := fun hu => by simp [hu] at hl
  refine ⟨?_, h.readers_update hp, h.slaves⟩
  rw [held_goR, hh]
  have h₁ := h.owned.release (t := .reader fs) (m := ((s.reader fs).holds fs).filter (· ≠ l)) hl
    (by simp [St.held, and_comm])
  have h₂ := h₁.forget (t := .reader fs) (m := []) hstrict (by simp)
  rwa [update_idem] at h₂

end

end

section
variable (h : LockInv strict s)
include h

theorem goS (hp : s.slave i ≠ .unborn) (hh : p'.holds = (s.slave i).holds) :
    LockInv strict (s.goS i p') := by
  refine ⟨?_, h.readers, h.slaves_update hp⟩
  rw [held_goS]
  exact h.owned.stay hh

theorem lockS (hs : (s.lock l (.slave i)).map (St.goS · i p') = some s')
    (hp : s.slave i ≠ .unborn) (hh : ∀ k, k ∈ p'.holds ↔ k = l ∨ k ∈ (s.slave i).holds) : LockInv strict s' := by
  obtain ⟨s₁, hs₁, rfl⟩ := map_eq_some_iff.1 hs
  obtain ⟨hl, rfl⟩ := lock_eq_some hs₁
  refine ⟨?_, h.readers, h.slaves_update hp⟩
  rw [held_goS]
  exact h.owned.acquire hl hh

theorem unlockS (hl : l ∈ (s.slave i).holds)
    (hh : ∀ k, k ∈ p'.holds ↔ k ≠ l ∧ k ∈ (s.slave i).holds) : LockInv strict ((s.unlock l).goS i p') := by
  have hp : s.slave i ≠ .unborn := fun hu => by simp [hu] at hl
  refine ⟨?_, h.readers, h.slaves_update hp⟩
  rw [held_goS]
  exact h.owned.release hl hh

theorem unlockS₂ (hl : l ∈ (s.slave i).holds) (hl' : l' ∈ (s.slave i).holds) (hne : l' ≠ l)
    (hh : ∀ k, k ∈ p'.holds ↔ k ≠ l' ∧ k ≠ l ∧ k ∈ (s.slave i).holds) :
    LockInv strict (((s.unlock l).unlock l').goS i p') := by
  have hp : s.slave i ≠ .unborn := fun hu => by simp [hu] at hl
  refine ⟨?_, h.readers, h.slaves_update hp⟩
  rw [held_goS]
  exact h.owned.release₂ hl hl' hne hh

attribute [local simp] St.set

theorem readerStep
    (hk : strict → ∀ fq q, s.reader fs = .req fq q → s.mem.finished q = false)
    (hs : readerStep s fs = some s') : LockInv strict s' := by
  unfold ExSlave.readerStep at hs
  cases hpc : s.reader fs <;> simp only [hpc] at hs
  case wantEnq q | wantFlush q | wantShut =>
    exact h.lockR hs (by simp [hpc]) (by simp [hpc])
  case wantWork fq | wantReq fq q | wantAbandon | wantShutReq q =>
    exact h.lockR hs (by simp [hpc]) (by simp [hpc, or_comm])
  case enq q =>
    cases hs
    refine (h.set _).unlockR ?_ ?_ <;> simp [hpc]
  case flush fq =>
    split at hs <;> cases hs
    · refine (h.set _).unlockR ?_ ?_ <;> simp [hpc]
    · refine h.unlockR ?_ ?_ <;> simp [hpc]
  case work fq =>
    split at hs <;> cases hs
    · refine h.goR ?_ ?_ <;> simp [hpc]
    · refine h.unlockR ?_ ?_ <;> simp [hpc]
  case req fq q =>
    split at hs <;> cases hs
    · next hfin =>
      -- `fs->l` is forgotten
      refine h.forgetR (by simp [hpc]) (by simp) fun hst => ?_
      exact absurd (hk hst fq q hpc) (by simp [hfin])
    · refine (h.set _).unlockR₂ ?_ ?_ ?_ ?_ <;> simp [hpc]
      tauto
  case reply fq =>
    cases hs
    refine (h.set _).goR ?_ ?_ <;> simp [hpc]
  case shut =>
    cases hs
    refine (h.set _).unlockR ?_ ?_ <;> simp [hpc]
  case abandon =>
    split at hs <;> cases hs
    · refine h.unlockR ?_ ?_ <;> simp [hpc]
    · refine (h.set _).goR ?_ ?_ <;> simp [hpc]
  case shutReq q =>
    cases hs
    refine (h.set _).unlockR ?_ ?_ <;> simp [hpc]
    grind -linarith
  all_goals cases hs

theorem slaveStep (hs : slaveStep s i = some s') : LockInv strict s' := by
  unfold ExSlave.slaveStep at hs
  cases hpc : s.slave i <;> simp only [hpc] at hs
  case top | wantTake | wantPush q fs | wantFin q fs err | wantLoop q fs | wantDone q fs =>
    exact h.lockS hs (by simp [hpc]) (by simp [hpc, or_comm])
  case take =>
    split at hs <;> cases hs
    · refine h.unlockS₂ ?_ ?_ ?_ ?_ <;> simp [hpc]
      tauto
    · refine (h.set _).unlockS ?_ ?_ <;> simp [hpc]
      grind -linarith
  case push q fs =>
    cases hs
    refine (h.set _).unlockS₂ ?_ ?_ ?_ ?_ <;> simp [hpc]
    tauto
  case fin q fs err =>
    split at hs
    · cases hs
      refine (h.set _).unlockS ?_ ?_ <;> simp [hpc]
    · split at hs <;> cases hs
      · refine h.unlockS ?_ ?_ <;> simp [hpc]
      · refine h.goS ?_ ?_ <;> simp [hpc]
  case reply q fs | replyFlush q fs fq =>
    cases hs
    refine (h.set _).goS ?_ ?_ <;> simp [hpc]
  case loop q fs =>
    split at hs <;> cases hs
    all_goals refine (h.set _).unlockS ?_ ?_ <;> simp [hpc]
  case done q fs =>
    cases hs
    refine (h.set _).unlockS ?_ ?_ <;> simp [hpc]
  all_goals cases hs

theorem step {op : Op}
    (hk : strict → ∀ fs fq q, s.reader fs = .req fq q → s.mem.finished q = false)
    (hs : step s op = some s') : LockInv strict s' := by
  cases op with
  | connect =>
    cases hs
    refine ⟨?_, fun fs hfs => ?_, h.slaves⟩
    · rw [held_goR]
      exact h.owned.stay (by simp [St.held, h.readers s.nconn (le_refl _)])
    · have hne : fs ≠ s.nconn := fun heq => Nat.not_succ_le_self _ (heq ▸ hfs)
      exact (update_of_ne hne _ _).trans (h.readers fs (Nat.le_of_succ_le hfs))
  | kproc =>
    cases hs
    refine ⟨?_, h.readers, fun i hi => ?_⟩
    · rw [held_goS]
      exact h.owned.stay (by simp [St.held, h.slaves s.nslave (le_refl _)])
    · have hne : i ≠ s.nslave := fun heq => Nat.not_succ_le_self _ (heq ▸ hi)
      exact (update_of_ne hne _ _).trans (h.slaves i (Nat.le_of_succ_le hi))
  | recv fs tag oldtag =>
    simp only [ExSlave.step] at hs
    split at hs <;> cases hs
    next hpc =>
      refine (h.set _).goR ?_ ?_
      · simp [hpc]
      · cases oldtag <;> simp [hpc]
  | refuse fs tag =>
    simp only [ExSlave.step] at hs
    split at hs <;> cases hs
    next hpc => refine (h.set _).goR ?_ ?_ <;> simp [hpc]
  | eof fs =>
    simp only [ExSlave.step] at hs
    split at hs <;> cases hs
    next hpc => refine h.goR ?_ ?_ <;> simp [hpc]
  | reader fs => exact h.readerStep (fun hst => hk hst fs) hs
  | wake i =>
    simp only [ExSlave.step] at hs
    split at hs <;> cases hs
    next hpc => refine h.goS ?_ ?_ <;> simp [hpc]
  | intr i =>
    simp only [ExSlave.step] at hs
    split at hs <;> cases hs
    next hpc => refine h.unlockS ?_ ?_ <;> simp [hpc]
  | ret i err =>
    simp only [ExSlave.step] at hs
    split at hs <;> cases hs
    next hpc => refine h.goS ?_ ?_ <;> simp [hpc]
  | slave i => exact h.slaveStep hs

end

end LockInv

/-- The request that the reader has in its hands. -/
def Reader.own : Reader → Option Nat
  | .wantEnq q | .enq q | .wantFlush q | .flush q | .wantWork q | .work q | .wantReq q _ | .req q _ | .reply q => some q
  | _ => none

/-- The request of the work list that it looks at. -/
def Reader.sees : Reader → Option Nat
  | .wantReq _ q | .req _ q | .wantShutReq q | .shutReq q => some q
  | _ => none

/-- The request that the slave executes. -/
def Slave.job : Slave → Option Nat
  | .wantPush q _ | .push q _ | .exec q _ | .wantFin q _ _ | .fin q _ _ | .reply q _ | .wantLoop q _ | .loop q _
  | .replyFlush q _ _ | .wantDone q _ | .done q _ => some q
  | _ => none

def Slave.answers : Slave → Option Nat
  | .replyFlush _ _ fq => some fq
  | _ => none

/-- The connection of that request. -/
def Slave.conn : Slave → Option Nat
  | .wantPush _ fs | .push _ fs | .exec _ fs | .wantFin _ fs _ | .fin _ fs _ | .reply _ fs | .wantLoop _ fs | .loop _ fs
  | .replyFlush _ fs _ | .wantDone _ fs | .done _ fs => some fs
  | _ => none

/-- It has put the request on the work list. -/
def Slave.pushed : Slave → Bool
  | .exec _ _ | .wantFin _ _ _ | .fin _ _ _ | .reply _ _ | .wantLoop _ _ | .loop _ _ | .replyFlush _ _ _ | .wantDone _ _
  | .done _ _ => true
  | _ => false

/-- It will not reply to its request any more. -/
def Slave.late : Slave → Bool
  | .wantLoop _ _ | .loop _ _ | .replyFlush _ _ _ | .wantDone _ _ | .done _ _ => true
  | _ => false

inductive Place
  | reader (fs : Nat)
  | queue
  | slave (i : Nat)
  | flush (q : Nat)
  | answer (i : Nat)
  | gone

def Place.isSlave : Place → Bool
  | .slave _ => true
  | _ => false

/-- Nothing will be sent in reply to `n` any more. -/
def Past (sl : Nat → Slave) (loc : Nat → Place) (n : Nat) : Prop :=
  loc n = .gone ∨ ∃ i, loc n = .slave i ∧ (sl i).late = true

structure Placed (m : Mem) (r : Nat → Reader) (sl : Nat → Slave) (loc : Nat → Place) : Prop where
  reader : ∀ fs n, loc n = .reader fs ↔ (r fs).own = some n
  queue : ∀ n, loc n = .queue ↔ n ∈ m.queue
  slave : ∀ i n, loc n = .slave i ↔ (sl i).job = some n
  flush : ∀ q n, loc n = .flush q ↔ n ∈ m.flush q
  answer : ∀ i n, loc n = .answer i ↔ (sl i).answers = some n
  work : ∀ fs, ∀ n ∈ m.work fs, m.fs n = fs ∧ (loc n).isSlave = true
  pushed : ∀ fs, ∀ n ∈ m.work fs, ∀ i, loc n = .slave i → (sl i).pushed = true
  conn : ∀ i n, (sl i).job = some n → (sl i).conn = some (m.fs n)
  sees : ∀ fs n, (r fs).sees = some n → n < m.fresh
  fresh : ∀ n, m.fresh ≤ n → loc n = .gone ∧ m.flush n = []
  queue_nodup : m.queue.Nodup
  work_nodup : ∀ fs, (m.work fs).Nodup
  flush_nodup : ∀ q, (m.flush q).Nodup
  sent : ∀ n ∈ m.sent, n < m.fresh ∧ Past sl loc n
  sent_nodup : m.sent.Nodup

theorem placed_init : Placed init.mem init.reader init.slave fun _ => .gone where
  reader _ _ := by simp [init, Reader.own]
  queue _ := by simp [init]
  slave _ _ := by simp [init, Slave.job]
  flush _ _ := by simp [init]
  answer _ _ := by simp [init, Slave.answers]
  work _ _ h := nomatch h
  pushed _ _ h := nomatch h
  conn _ _ h := nomatch h
  sees _ _ h := nomatch h
  fresh _ _ := ⟨rfl, rfl⟩
  queue_nodup := List.nodup_nil
  work_nodup _ := List.nodup_nil
  flush_nodup _ := List.nodup_nil
  sent _ h := nomatch h
  sent_nodup := List.nodup_nil

/-- From the queue a request gets to a slave, and from a slave nowhere else. -/
def Place.goes : Place → Place → Prop
  | .queue, p => p = .queue ∨ p = .gone ∨ ∃ i, p = .slave i
  | .slave i, p => p = .slave i ∨ p = .gone
  | _, _ => True

theorem Place.goes_refl (p : Place) : p.goes p := by
  cases p <;> simp [goes]

theorem Place.goes_update {loc : Nat → Place} {k : Nat} {p : Place} (h : (loc k).goes p) (n : Nat) :
    (loc n).goes (update loc k p n) := by
  by_cases hn : n = k
  · subst hn
    rwa [update_self]
  · rw [update_of_ne hn]
    exact goes_refl _

open Place (isSlave goes goes_refl goes_update)

/-- The requests go on to other places, and what is past stays so. -/
def Moves (m : Mem) (sl : Nat → Slave) (loc : Nat → Place) (m' : Mem) (r' : Nat → Reader) (sl' : Nat → Slave) : Prop :=
  ∃ loc', Placed m' r' sl' loc' ∧ (∀ n < m.fresh, Past sl loc n → Past sl' loc' n) ∧ ∀ n, (loc n).goes (loc' n)

namespace Placed
variable {m : Mem} {r : Nat → Reader} {sl : Nat → Slave} {loc : Nat → Place} {fs i n q fq : Nat} {p : Reader}
  {p' : Slave} {tag : UInt16} {oldtag : Option UInt16} {qs fqs : List Nat}

section
variable (h : Placed m r sl loc)
include h

theorem lt_fresh (hn : loc n ≠ .gone) : n < m.fresh := by
  by_contra hge
  exact hn (h.fresh n (le_of_not_gt hge)).1

theorem not_sent (hn : ¬ Past sl loc n) : n ∉ m.sent := fun hs => hn (h.sent n hs).2

theorem moveR (hown : p.own = (r fs).own) (hsees : ∀ n, p.sees = some n → n < m.fresh) :
    Moves m sl loc m (update r fs p) sl := by
  refine ⟨loc, { h with reader := fun fs' n => ?_, sees := fun fs' n hn => ?_ }, fun n _ hn => hn,
    fun n => goes_refl _⟩
  · by_cases hf : fs' = fs
    · subst hf
      rw [update_self, hown, h.reader]
    · rw [update_of_ne hf, h.reader]
  by_cases hf : fs' = fs
  · subst hf
    rw [update_self] at hn
    exact hsees n hn
  · rw [update_of_ne hf] at hn
    exact h.sees fs' n hn

theorem recv (hr : (r fs).own = none) (hp : p.own = some m.fresh) (hs : p.sees = none) :
    Moves m sl loc (m.recv fs tag oldtag) (update r fs p) sl := by
  have hloc := h.fresh m.fresh (le_refl _)
  have hjob : ∀ i, (sl i).job ≠ some m.fresh := fun i hi => by have := (h.slave i m.fresh).2 hi; simp [hloc] at this
  refine ⟨update loc m.fresh (.reader fs), ?_, by grind -linarith [Past], goes_update (by simp [hloc, goes])⟩
  cases h
  constructor
  all_goals simp only [Mem.recv, update_apply, Past]
  all_goals grind -linarith [Past, isSlave]

theorem enqueue (hr : (r fs).own = some q) (hp : p.own = none) (hs : p.sees = none) :
    Moves m sl loc (m.enqueue q) (update r fs p) sl := by
  have hloc := (h.reader fs q).2 hr
  by_cases hq : m.queue = [] ∨ m.tail = m.queue.getLast?
  · have he : (m.enqueue q).queue = m.queue ++ [q] := by
      rcases hq with hq | hq <;> simp [Mem.enqueue, hq]
    refine ⟨update loc q .queue, ?_, by grind -linarith [Past], goes_update (by simp [hloc, goes])⟩
    cases h
    constructor
    all_goals simp only [Mem.enqueue, update_apply, Past]
    all_goals grind -linarith [Past, isSlave]
  · have he : (m.enqueue q).queue = m.queue := by
      simp only [not_or] at hq
      simp [Mem.enqueue, hq]
    refine ⟨update loc q .gone, ?_, by grind -linarith [Past], goes_update (by simp [hloc, goes])⟩
    cases h
    constructor
    all_goals simp only [Mem.enqueue, update_apply, Past]
    all_goals grind -linarith [Past, isSlave]

theorem unqueue (hqs : qs.Sublist m.queue) (hown : p.own = (r fs).own) (hs : p.sees = none) :
    Moves m sl loc { m with queue := qs } (update r fs p) sl := by
  have hsub := hqs.subset
  have hnd := hqs.nodup h.queue_nodup
  have hqueue := h.queue
  refine ⟨fun n => if n ∈ m.queue ∧ n ∉ qs then .gone else loc n, ?_, by grind -linarith [Past],
    by grind -linarith [goes, goes_refl]⟩
  cases h
  constructor
  all_goals try simp only [update_apply]
  all_goals grind -linarith [Past, isSlave]

theorem append (hr : (r fs).own = some fq) (hp : p.own = none) (hs : p.sees = none)
    (hq : q < m.fresh) : Moves m sl loc (m.setFlush q (m.flush q ++ [fq])) (update r fs p) sl := by
  have hloc := (h.reader fs fq).2 hr
  refine ⟨update loc fq (.flush q), ?_, by grind -linarith [Past], goes_update (by simp [hloc, goes])⟩
  cases h
  constructor
  all_goals simp only [Mem.setFlush, update_apply, Past]
  all_goals grind -linarith [Past, isSlave]

theorem replyR (hr : (r fs).own = some fq) (hp : p.own = none) (hs : p.sees = none) :
    Moves m sl loc (m.reply fq) (update r fs p) sl := by
  have hloc := (h.reader fs fq).2 hr
  have hsent := h.not_sent (n := fq) (by simp [Past, hloc])
  have hlt := h.lt_fresh (n := fq) (by simp [hloc])
  refine ⟨update loc fq .gone, ?_, by grind -linarith [Past], goes_update (by simp [hloc, goes])⟩
  cases h
  constructor
  all_goals simp only [Mem.reply, update_apply, Past]
  all_goals grind -linarith [Past, isSlave]

theorem unwork (hqs : qs.Sublist (m.work fs)) (hown : p.own = (r fs).own)
    (hs : ∀ n, p.sees = some n → n ∈ m.work fs) : Moves m sl loc (m.setWork fs qs) (update r fs p) sl := by
  have hsub := hqs.subset
  have hnd := hqs.nodup (h.work_nodup fs)
  refine ⟨loc, ?_, fun n _ hn => hn, fun n => goes_refl _⟩
  cases h
  constructor
  all_goals try simp only [Mem.setWork, update_apply]
  all_goals grind -linarith [Past, isSlave]

theorem shut {b : Nat → Bool} (hown : p.own = (r fs).own) (hs : p.sees = none) :
    Moves m sl loc { m with shut := b } (update r fs p) sl := by
  obtain ⟨loc', h', hp⟩ := h.moveR hown (by simp [hs])
  exact ⟨loc', { h' with }, hp⟩

theorem moveS (hjob : p'.job = (sl i).job) (hconn : p'.conn = (sl i).conn)
    (hans : p'.answers = (sl i).answers) (hpushed : (sl i).pushed = true → p'.pushed = true)
    (hlate : (sl i).late = true → p'.late = true) : Moves m sl loc m r (update sl i p') := by
  refine ⟨loc, ?_, by grind -linarith [Past], fun n => goes_refl _⟩
  cases h
  constructor
  all_goals try simp only [update_apply, Past]
  all_goals grind -linarith [Past]

theorem take (hq : m.queue = q :: qs) (hs : (sl i).job = none) (hans : (sl i).answers = none)
    (hp : p'.job = some q) (hc : p'.conn = some (m.fs q)) (hpa : p'.answers = none) :
    Moves m sl loc { m with queue := qs } r (update sl i p') := by
  have hloc := (h.queue q).2 (by simp [hq])
  have hslave := h.slave i
  refine ⟨update loc q (.slave i), ?_, by grind -linarith [Past], goes_update (by simp [hloc, goes])⟩
  cases h
  constructor
  all_goals try simp only [update_apply, Past]
  all_goals grind -linarith [Past, isSlave]

theorem push (hs : (sl i).job = some q) (hc : (sl i).conn = some fs)
    (hps : (sl i).pushed = false) (hans : p'.answers = (sl i).answers) (hp : p'.job = some q) (hpc : p'.conn = some fs)
    (hpp : p'.pushed = true) (hlate : (sl i).late = true → p'.late = true) :
    Moves m sl loc (m.setWork fs (q :: m.work fs)) r (update sl i p') := by
  have hloc := (h.slave i q).2 hs
  have hfs := h.conn i q hs
  refine ⟨loc, ?_, by grind -linarith [Past], fun n => goes_refl _⟩
  cases h
  constructor
  all_goals try simp only [Mem.setWork, update_apply, Past]
  all_goals grind -linarith [Past, isSlave]

theorem replyS (hs : (sl i).job = some q) (hl : (sl i).late = false)
    (hc : p'.conn = (sl i).conn)
    (hans : p'.answers = (sl i).answers) (hp : p'.job = some q) (hpp : p'.pushed = true) (hpl : p'.late = true) :
    Moves m sl loc (m.reply q) r (update sl i p') := by
  have hloc := (h.slave i q).2 hs
  have hlt := h.lt_fresh (n := q) (by simp [hloc])
  have hsent := h.not_sent (n := q) (by simp [Past, hloc, hl])
  refine ⟨loc, ?_, by grind -linarith [Past], fun n => goes_refl _⟩
  cases h
  constructor
  all_goals try simp only [Mem.reply, update_apply, Past]
  all_goals grind -linarith [Past, isSlave]

/-- `q->finished = 1`. -/
theorem finish (hjob : p'.job = (sl i).job) (hconn : p'.conn = (sl i).conn)
    (hans : p'.answers = (sl i).answers) (hpushed : p'.pushed = true) (hlate : p'.late = true) :
    Moves m sl loc (m.finish q) r (update sl i p') := by
  obtain ⟨loc', h', hp⟩ := h.moveS hjob hconn hans (fun _ => hpushed) fun _ => hlate
  exact ⟨loc', { h' with }, hp⟩

theorem pop (hf : m.flush q = fq :: fqs) (hp : p'.job = (sl i).job) (hc : p'.conn = (sl i).conn)
    (hpa : p'.answers = some fq) (hpp : p'.pushed = true) (hpl : p'.late = true) (hans : (sl i).answers = none) :
    Moves m sl loc (m.setFlush q fqs) r (update sl i p') := by
  have hloc := (h.flush q fq).2 (by simp [hf])
  have hnd := h.flush_nodup q
  refine ⟨update loc fq (.answer i), ?_, by grind -linarith [Past], goes_update (by simp [hloc, goes])⟩
  cases h
  constructor
  all_goals try simp only [Mem.setFlush, update_apply, Past]
  all_goals grind -linarith [Past, isSlave]

theorem replyF (hans : (sl i).answers = some fq) (hp : p'.job = (sl i).job)
    (hc : p'.conn = (sl i).conn) (hpa : p'.answers = none) (hpp : p'.pushed = true) (hpl : p'.late = true) :
    Moves m sl loc (m.reply fq) r (update sl i p') := by
  have hloc := (h.answer i fq).2 hans
  have hlt := h.lt_fresh (n := fq) (by simp [hloc])
  have hsent := h.not_sent (n := fq) (by simp [Past, hloc])
  refine ⟨update loc fq .gone, ?_, by grind -linarith [Past], goes_update (by simp [hloc, goes])⟩
  cases h
  constructor
  all_goals try simp only [Mem.reply, update_apply, Past]
  all_goals grind -linarith [Past, isSlave]

theorem done (hs : (sl i).job = some q) (hc : (sl i).conn = some fs) (hp : p'.job = none)
    (hans : (sl i).answers = none) (hpa : p'.answers = none) :
    Moves m sl loc (m.setWork fs ((m.work fs).erase q)) r (update sl i p') := by
  have hloc := (h.slave i q).2 hs
  have hfs := h.conn i q hs
  have hmem : ∀ n, n ∈ (m.work fs).erase q ↔ n ≠ q ∧ n ∈ m.work fs := fun n => (h.work_nodup fs).mem_erase_iff
  have hnd : ((m.work fs).erase q).Nodup := (h.work_nodup fs).erase q
  have hslave := h.slave i
  refine ⟨update loc q .gone, ?_, by grind -linarith [Past], goes_update (by simp [hloc, goes])⟩
  cases h
  constructor
  all_goals try simp only [Mem.setWork, update_apply, Past]
  all_goals grind -linarith [Past, isSlave]

end

variable {s s' : St} {op : Op}

attribute [local simp] Reader.own Reader.sees Slave.job Slave.answers Slave.conn Slave.pushed Slave.late

theorem readerStep (h : Placed s.mem s.reader s.slave loc) (hs : readerStep s fs = some s') :
    Moves s.mem s.slave loc s'.mem s'.reader s'.slave := by
  unfold ExSlave.readerStep at hs
  cases hpc : s.reader fs <;> simp only [hpc] at hs
  case wantEnq q | wantFlush q | wantShut | wantWork fq | wantAbandon =>
    obtain ⟨s₁, hs₁, rfl⟩ := map_eq_some_iff.1 hs
    obtain ⟨-, rfl⟩ := lock_eq_some hs₁
    exact h.moveR (by simp [hpc]) (by simp)
  case wantReq fq q | wantShutReq q =>
    obtain ⟨s₁, hs₁, rfl⟩ := map_eq_some_iff.1 hs
    obtain ⟨-, rfl⟩ := lock_eq_some hs₁
    refine h.moveR (by simp [hpc]) fun n hn => h.sees fs n ?_
    rwa [hpc]
  case enq q =>
    cases hs
    exact h.enqueue (by simp [hpc]) rfl rfl
  case flush fq =>
    split at hs <;> cases hs
    · exact h.unqueue List.eraseP_sublist (by simp [hpc]) rfl
    · exact h.moveR (by simp [hpc]) (by simp)
  case work fq =>
    split at hs <;> cases hs
    · next q hq =>
      refine h.moveR (by simp [hpc]) fun n hn => ?_
      cases hn
      obtain ⟨-, hsl⟩ := h.work fs q (List.mem_of_find?_eq_some hq)
      exact h.lt_fresh fun hg => by simp [hg, isSlave] at hsl
    · exact h.moveR (by simp [hpc]) (by simp)
  case req fq q =>
    split at hs <;> cases hs
    · exact h.moveR (by simp [hpc]) (by simp)
    · exact h.append (by simp [hpc]) rfl rfl (h.sees fs q (by simp [hpc]))
  case reply fq =>
    cases hs
    exact h.replyR (by simp [hpc]) rfl rfl
  case shut =>
    cases hs
    exact h.unqueue List.filter_sublist (by simp [hpc]) rfl
  case abandon =>
    split at hs <;> cases hs
    · exact h.moveR (by simp [hpc]) (by simp)
    · next q qs hq =>
      refine h.unwork (hq ▸ List.sublist_cons_self q qs) (by simp [hpc]) fun n hn => ?_
      cases hn
      simp [hq]
  case shutReq q =>
    cases hs
    exact h.shut (by simp [hpc]) rfl
  all_goals cases hs

theorem slaveStep (h : Placed s.mem s.reader s.slave loc) (hs : slaveStep s i = some s') :
    Moves s.mem s.slave loc s'.mem s'.reader s'.slave := by
  unfold ExSlave.slaveStep at hs
  cases hpc : s.slave i <;> simp only [hpc] at hs
  case top | wantTake | wantPush q fs | wantFin q fs err | wantLoop q fs | wantDone q fs =>
    obtain ⟨s₁, hs₁, rfl⟩ := map_eq_some_iff.1 hs
    obtain ⟨-, rfl⟩ := lock_eq_some hs₁
    refine h.moveS ?_ ?_ ?_ ?_ ?_ <;> simp [hpc]
  case take =>
    split at hs <;> cases hs
    · refine h.moveS ?_ ?_ ?_ ?_ ?_ <;> simp [hpc]
    · next q qs hq => refine h.take hq ?_ ?_ ?_ ?_ ?_ <;> simp [hpc]
  case push q fs =>
    cases hs
    refine h.push ?_ ?_ ?_ ?_ ?_ ?_ ?_ ?_ <;>
      simp [hpc]
  case fin q fs err =>
    split at hs
    · cases hs
      refine h.finish ?_ ?_ ?_ ?_ ?_ <;> simp [hpc]
    · split at hs <;> cases hs
      all_goals refine h.moveS ?_ ?_ ?_ ?_ ?_ <;>
        simp [hpc]
  case reply q fs =>
    cases hs
    refine h.replyS ?_ ?_ ?_ ?_ ?_ ?_ ?_ <;> simp [hpc]
  case replyFlush q fs fq =>
    cases hs
    refine h.replyF ?_ ?_ ?_ ?_ ?_ ?_ <;> simp [hpc]
  case loop q fs =>
    split at hs <;> cases hs
    · next hf _ =>
      refine h.pop hf ?_ ?_ ?_ ?_ ?_ ?_ <;> simp [hpc]
    · refine h.finish ?_ ?_ ?_ ?_ ?_ <;> simp [hpc]
  case done q fs =>
    cases hs
    refine h.done ?_ ?_ ?_ ?_ ?_ <;> simp [hpc]
  all_goals cases hs

theorem step (hl : LockInv False s) (h : Placed s.mem s.reader s.slave loc) (hs : step s op = some s') :
    Moves s.mem s.slave loc s'.mem s'.reader s'.slave := by
  cases op with
  | connect =>
    cases hs
    exact h.moveR (by simp [hl.readers s.nconn]) (by simp)
  | kproc =>
    cases hs
    refine h.moveS ?_ ?_ ?_ ?_ ?_ <;>
      simp [hl.slaves s.nslave]
  | recv fs tag oldtag =>
    simp only [ExSlave.step] at hs
    split at hs <;> cases hs
    next hpc => refine h.recv ?_ ?_ ?_ <;> cases oldtag <;> simp [hpc]
  | refuse fs tag =>
    simp only [ExSlave.step] at hs
    split at hs <;> cases hs
    next hpc => refine h.recv ?_ ?_ ?_ <;> simp [hpc]
  | eof fs =>
    simp only [ExSlave.step] at hs
    split at hs <;> cases hs
    next hpc => exact h.moveR (by simp [hpc]) (by simp)
  | reader fs => exact h.readerStep hs
  | slave i => exact h.slaveStep hs
  | wake i | intr i | ret i err =>
    simp only [ExSlave.step] at hs
    split at hs <;> cases hs
    next hpc =>
      refine h.moveS ?_ ?_ ?_ ?_ ?_ <;> simp [hpc]

end Placed

end Node9.ExSlave
