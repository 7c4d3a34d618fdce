import Node9.ExPlaces

/-!
# The locks of an export

Where a thread is in its code says which locks it should hold (`holds`) and which one it waits for (`wants`). The
locks agree with that as long as no flush meets a request that has finished and is still on the work list:
there `exflushed` returns with `fs->l` held. Otherwise every lock can be got rid of again, since they are
taken in the order `exq.qwait`, `exq.l`, `fs->l`, `q->l`.
-/

namespace Node9.ExSlave
open Steps Locks Function

namespace St

/-- The thread is not inside `exflushed` or `exshutdown`, or it is about to start an iteration of `exslave`. -/
def returned (s : St) : Tid → Prop
  | .reader fs => s.reader fs = .idle ∨ s.reader fs = .dead ∨ ∃ fq, s.reader fs = .reply fq
  | .slave i => s.slave i = .top

end St

/-- A thread that has returned holds no lock, and no thread waits for a lock that it holds itself. -/
structure Disciplined (s : St) : Prop where
  returned : ∀ t, s.returned t → ∀ l, s.owner l ≠ some t
  wants : ∀ t l, s.wants t = some l → s.owner l ≠ some t

/-- No lock is held, except for `exq.qwait` by a slave that sleeps. -/
structure Released (s : St) : Prop where
  exq : s.owner .exq = none
  fs : ∀ fs, s.owner (.fs fs) = none
  req : ∀ q, s.owner (.req q) = none
  qwait : ∀ t, s.owner .qwait = some t → ∃ i, t = .slave i ∧ s.slave i = .sleep

/-- The locks are used as they should be, and the threads can go on until all of them are released. -/
def LockSafe (s : St) : Prop := Disciplined s ∧ ∃ ops s', run step s ops = some s' ∧ Released s'

/-- The slave `i` holds the lock of `q` and is about to mark it as finished. -/
def Closing (s : St) (i q : Nat) : Prop :=
  (∃ fs, s.slave i = .loop q fs ∧ (s.mem.flush q = [] ∨ s.mem.shut q = true)) ∨
    ∃ fs err, s.slave i = .fin q fs err ∧ s.mem.shut q = true

/-- `exflushed` finds `q` on the work list of `fs`. -/
def Finds (s : St) (fs fq q : Nat) : Prop :=
  (s.mem.work fs).find? (fun q => some (s.mem.tag q) == s.mem.oldtag fq) = some q

/-- A flush has taken `fs->l` and goes for the lock of `q`. -/
def Meets (s : St) (fs q : Nat) : Prop :=
  ∃ fq, (s.reader fs = .work fq ∧ Finds s fs fq q) ∨ s.reader fs = .wantReq fq q

/-- A flush takes `fs->l` only if the request that it will find there is not finished nor about to be, and
no slave takes the lock of a request to finish it while a flush goes for it. -/
def Unfinished (s : St) : Op → Prop
  | .reader fs => ∀ fq q, s.reader fs = .wantWork fq → Finds s fs fq q →
      s.mem.finished q = false ∧ ∀ i, ¬ Closing s i q
  | .slave i => ∀ q fs, (s.slave i = .wantLoop q fs ∧ (s.mem.flush q = [] ∨ s.mem.shut q = true)) ∨
      (∃ err, s.slave i = .wantFin q fs err ∧ s.mem.shut q = true) → ∀ fs', ¬ Meets s fs' q
  | _ => True

/-! ### What a step does to what a flush looks at -/

structure Frame (s : St) (op : Op) (s' : St) : Prop where
  tag : ∀ n < s.mem.fresh, s'.mem.tag n = s.mem.tag n ∧ s'.mem.oldtag n = s.mem.oldtag n
  finished : ∀ q, s'.mem.finished q = true → s.mem.finished q = true ∨ ∃ i, op = .slave i ∧ Closing s i q
  flush : ∀ q, s'.mem.flush q = [] → s.mem.flush q = [] ∨ q = s.mem.fresh ∨
    ∃ i fs, op = .slave i ∧ s.slave i = .loop q fs
  shut : ∀ q, s'.mem.shut q = true → s.mem.shut q = true ∨ ∃ fs, op = .reader fs ∧ s.reader fs = .shutReq q
  work : ∀ fs, s'.mem.work fs = s.mem.work fs ∨ (op = .reader fs ∧ s.reader fs = .abandon) ∨
    ∃ i q, op = .slave i ∧ (s.slave i = .push q fs ∨ s.slave i = .done q fs)
  loop : ∀ i q fs, s'.slave i = .loop q fs → (s.slave i = .loop q fs ∧ op ≠ .slave i) ∨
    op = .slave i ∧ (s.slave i = .wantLoop q fs ∨
      ∃ err, s.slave i = .fin q fs err ∧ s.mem.flush q ≠ [] ∧ s.mem.shut q = false)
  fin : ∀ i q fs err, s'.slave i = .fin q fs err → (s.slave i = .fin q fs err ∧ op ≠ .slave i) ∨
    op = .slave i ∧ s.slave i = .wantFin q fs err
  looks : ∀ fs fq, s'.reader fs = .work fq → (s.reader fs = .work fq ∧ op ≠ .reader fs) ∨
    op = .reader fs ∧ s.reader fs = .wantWork fq
  wantReq : ∀ fs fq q, s'.reader fs = .wantReq fq q → (s.reader fs = .wantReq fq q ∧ op ≠ .reader fs) ∨
    op = .reader fs ∧ s.reader fs = .work fq ∧ Finds s fs fq q
  req : ∀ fs fq q, s'.reader fs = .req fq q → (s.reader fs = .req fq q ∧ op ≠ .reader fs) ∨
    op = .reader fs ∧ s.reader fs = .wantReq fq q

theorem frame_reader {s s' : St} {fs : Nat} (hs : readerStep s fs = some s') : Frame s (.reader fs) s' := by
  simp only [readerStep, St.lock] at hs
  repeat' split at hs
  all_goals cases hs
  all_goals constructor
  all_goals simp only [St.goR, St.set, St.unlock, Mem.enqueue, Mem.setFlush, Mem.setWork, Mem.reply,
    update_apply]
  all_goals grind -linarith [Finds, List.append_eq_nil_iff]

theorem frame_slave {s s' : St} {i : Nat} (hs : slaveStep s i = some s') : Frame s (.slave i) s' := by
  have hflush : ∀ q, s.mem.flush q = [] ∨ ∃ fq fqs, s.mem.flush q = fq :: fqs := fun q => by
    cases s.mem.flush q <;> simp
  simp only [slaveStep, St.lock] at hs
  repeat' split at hs
  all_goals cases hs
  all_goals constructor
  all_goals simp only [St.goS, St.set, St.unlock, Mem.setFlush, Mem.setWork, Mem.finish, Mem.reply,
    update_apply, Closing]
  all_goals grind -linarith

theorem step_frame {s s' : St} {op : Op} (hs : step s op = some s') : Frame s op s' := by
  cases op with
  | reader fs => exact frame_reader hs
  | slave i => exact frame_slave hs
  | connect | kproc =>
    cases hs
    constructor
    all_goals simp only [St.goR, St.goS, update_apply]
    all_goals grind -linarith
  | recv fs tag oldtag | refuse fs tag =>
    simp only [step] at hs
    split at hs <;> cases hs
    constructor
    all_goals simp only [St.goR, St.set, Mem.recv, update_apply]
    all_goals grind -linarith
  | eof i | wake i | intr i | ret i err =>
    simp only [step] at hs
    split at hs <;> cases hs
    constructor
    all_goals simp only [St.goR, St.goS, St.unlock, update_apply]
    all_goals grind -linarith

/-! ### No flush meets a finished request -/

structure Guarded (s : St) : Prop where
  locks : LockInv True s
  placed : ∃ loc, Placed s.mem s.reader s.slave loc
  meets : ∀ fs q, Meets s fs q → s.mem.finished q = false ∧ ∀ i, ¬ Closing s i q
  req : ∀ fs fq q, s.reader fs = .req fq q → s.mem.finished q = false

namespace Guarded
variable {s s' : St} {op : Op} {fs fq q i : Nat}

theorem init : Guarded init where
  locks := lockInv_init True
  placed := ⟨_, placed_init⟩
  meets fs q := by
    rintro ⟨fq, ⟨hr, -⟩ | hr⟩ <;> cases hr
  req _ _ _ hr := by cases hr

section
variable (h : Guarded s)
include h

theorem slave_slave {i' : Nat} (hi : .req q ∈ (s.slave i).holds) (hi' : .req q ∈ (s.slave i').holds) :
    i = i' := by
  cases h.locks.owned.unique (.slave i) (.slave i') hi hi'
  rfl

theorem slave_reader {l : Lock} (hi : l ∈ (s.slave i).holds) (hr : l ∈ (s.reader fs).holds fs) :
    False := by
  cases h.locks.owned.unique (.slave i) (.reader fs) hi hr

theorem closing_step (hs : step s op = some s') (hq : q < s.mem.fresh) (hi : ¬ Closing s i q)
    (hc : Closing s' i q) : op = .slave i ∧ ∃ fs,
      (s.slave i = .wantLoop q fs ∧ (s.mem.flush q = [] ∨ s.mem.shut q = true)) ∨
      ∃ err, s.slave i = .wantFin q fs err ∧ s.mem.shut q = true := by
  have hf := step_frame hs
  have hshut : .req q ∈ (s.slave i).holds → s'.mem.shut q = true → s.mem.shut q = true := fun hh hsh => by
    rcases hf.shut q hsh with hsh | ⟨fs, -, hr⟩
    · exact hsh
    · exact (h.slave_reader hh (by simp [hr, Reader.holds] : Lock.req q ∈ (s.reader fs).holds fs)).elim
  rcases hc with ⟨fs, hl, hc⟩ | ⟨fs, err, hl, hc⟩
  · rcases hf.loop i q fs hl with ⟨hl, hne⟩ | ⟨rfl, hw | ⟨err, hfin, hfl, hsh⟩⟩
    · have hh : .req q ∈ (s.slave i).holds := by simp [hl, Slave.holds]
      refine (hi (.inl ⟨fs, hl, ?_⟩)).elim
      refine hc.imp (fun he => ?_) (hshut hh)
      rcases hf.flush q he with he | rfl | ⟨i', fs', rfl, hl'⟩
      · exact he
      · exact absurd hq (lt_irrefl _)
      · -- only the slave that holds the lock takes flushes out
        have hh' : .req q ∈ (s.slave i').holds := by simp [hl', Slave.holds]
        exact (hne (by rw [h.slave_slave hh hh'])).elim
    · refine ⟨rfl, fs, .inl ⟨hw, hc.imp (fun he => ?_) fun hsh => ?_⟩⟩
      · rcases hf.flush q he with he | rfl | ⟨i', fs', hi', hl'⟩
        · exact he
        · exact absurd hq (lt_irrefl _)
        · cases hi'
          cases hw.symm.trans hl'
      · rcases hf.shut q hsh with hsh | ⟨fs, hop, -⟩
        · exact hsh
        · cases hop
    · have hh : .req q ∈ (s.slave i).holds := by simp [hfin, Slave.holds]
      exfalso
      rcases hc with he | hsh'
      · rcases hf.flush q he with he | rfl | ⟨i', fs', hi', hl'⟩
        · exact hfl he
        · exact absurd hq (lt_irrefl _)
        · cases hi'
          cases hfin.symm.trans hl'
      · simp [hshut hh hsh'] at hsh
  · rcases hf.fin i q fs err hl with ⟨hl, -⟩ | ⟨rfl, hw⟩
    · have hh : .req q ∈ (s.slave i).holds := by simp [hl, Slave.holds]
      exact (hi (.inr ⟨fs, err, hl, hshut hh hc⟩)).elim
    · refine ⟨rfl, fs, .inr ⟨err, hw, ?_⟩⟩
      rcases hf.shut q hc with hsh | ⟨fs, hop, -⟩
      · exact hsh
      · cases hop

/-- A flush gets to where it meets `q` only by taking `fs->l`. -/
theorem meets_step (hs : step s op = some s') (hm : Meets s' fs q) :
    Meets s fs q ∨ op = .reader fs ∧ ∃ fq, s.reader fs = .wantWork fq ∧ Finds s fs fq q := by
  have hf := step_frame hs
  obtain ⟨loc, hp⟩ := h.placed
  -- what is found on the work list is the same if the list is
  have hfinds : ∀ fq, fq < s.mem.fresh → s'.mem.work fs = s.mem.work fs → Finds s' fs fq q → Finds s fs fq q := by
    intro fq hfq hw hfi
    unfold Finds at hfi ⊢
    rw [hw] at hfi
    rw [← hfi]
    refine List.find?_congr fun n hn => ?_
    have hlt : n < s.mem.fresh := hp.lt_fresh fun hg => by simpa [hg, Place.isSlave] using (hp.work fs n hn).2
    rw [(hf.tag n hlt).1, (hf.tag fq hfq).2]
  obtain ⟨fq, ⟨hr, hfi⟩ | hr⟩ := hm
  · rcases hf.looks fs fq hr with ⟨hr, hne⟩ | ⟨rfl, hr⟩
    · have hlt : fq < s.mem.fresh := hp.lt_fresh (by simp [(hp.reader fs fq).2 (by simp [hr, Reader.own])])
      have hh : .fs fs ∈ (s.reader fs).holds fs := by simp [hr, Reader.holds]
      refine .inl ⟨fq, .inl ⟨hr, hfinds fq hlt ?_ hfi⟩⟩
      rcases hf.work fs with hw | ⟨rfl, -⟩ | ⟨i, q', rfl, hi | hi⟩
      · exact hw
      · exact (hne rfl).elim
      all_goals
        have hi' : .fs fs ∈ (s.slave i).holds := by simp [hi, Slave.holds]
        exact (h.slave_reader hi' hh).elim
    · have hlt : fq < s.mem.fresh := hp.lt_fresh (by simp [(hp.reader fs fq).2 (by simp [hr, Reader.own])])
      refine .inr ⟨rfl, fq, hr, hfinds fq hlt ?_ hfi⟩
      rcases hf.work fs with hw | ⟨-, ha⟩ | ⟨i, q', hop, -⟩
      · exact hw
      · cases hr.symm.trans ha
      · cases hop
  · rcases hf.wantReq fs fq q hr with ⟨hr, -⟩ | ⟨-, hr, hfi⟩
    · exact .inl ⟨fq, .inr hr⟩
    · exact .inl ⟨fq, .inl ⟨hr, hfi⟩⟩

theorem meets_lt (hm : Meets s fs q) : q < s.mem.fresh := by
  obtain ⟨loc, hp⟩ := h.placed
  obtain ⟨fq, ⟨-, hfi⟩ | hr⟩ := hm
  · have hw := hp.work fs q (List.mem_of_find?_eq_some hfi)
    exact hp.lt_fresh fun hg => by simp [hg, Place.isSlave] at hw
  · exact hp.sees fs q (by simp [hr, Reader.sees])

theorem step (hG : Unfinished s op) (hs : step s op = some s') : Guarded s' := by
  have hf := step_frame hs
  obtain ⟨loc, hp⟩ := h.placed
  refine ⟨h.locks.step (fun _ => h.req) hs, ?_, fun fs q hm => ?_, fun fs fq q hr => ?_⟩
  · obtain ⟨loc', hp', -, -⟩ := hp.step ⟨⟨h.locks.owned.holds, False.elim⟩, h.locks.readers, h.locks.slaves⟩ hs
    exact ⟨loc', hp'⟩
  · -- `q` is open in `s`, and no slave that goes for it now may finish it
    have hold : q < s.mem.fresh ∧ s.mem.finished q = false ∧ (∀ i, ¬ Closing s i q) ∧
      (Meets s fs q ∨ op = .reader fs) := by
      rcases h.meets_step hs hm with hm | ⟨rfl, fq, hr, hfi⟩
      · exact ⟨h.meets_lt hm, (h.meets fs q hm).1, (h.meets fs q hm).2, .inl hm⟩
      · have hw := hp.work fs q (List.mem_of_find?_eq_some hfi)
        have hlt : q < s.mem.fresh := hp.lt_fresh fun hg => by simp [hg, Place.isSlave] at hw
        exact ⟨hlt, (hG fq q hr hfi).1, (hG fq q hr hfi).2, .inr rfl⟩
    obtain ⟨hlt, hfin, hclose, hnow⟩ := hold
    constructor
    · rw [Bool.eq_false_iff]
      intro hfin'
      rcases hf.finished q hfin' with hfin' | ⟨i, -, hc⟩
      · simp [hfin] at hfin'
      · exact hclose i hc
    · intro i hc
      obtain ⟨rfl, fs', hw⟩ := h.closing_step hs hlt (hclose i) hc
      rcases hnow with hm | hop
      · exact hG q fs' hw fs hm
      · cases hop
  · have hfin : s.mem.finished q = false := by
      rcases hf.req fs fq q hr with ⟨hr, -⟩ | ⟨-, hr⟩
      · exact h.req fs fq q hr
      · exact (h.meets fs q ⟨fq, .inr hr⟩).1
    rw [Bool.eq_false_iff]
    intro hfin'
    rcases hf.finished q hfin' with hfin' | ⟨i, rfl, hc⟩
    · simp [hfin] at hfin'
    -- the reader has the lock of `q`, or takes it now
    have hi : .req q ∈ (s.slave i).holds := by
      rcases hc with ⟨fs', hl, -⟩ | ⟨fs', err, hl, -⟩ <;> simp [hl, Slave.holds]
    rcases hf.req fs fq q hr with ⟨hr, -⟩ | ⟨hop, -⟩
    · exact h.slave_reader hi (by simp [hr, Reader.holds] : Lock.req q ∈ (s.reader fs).holds fs)
    · cases hop

end

end Guarded

/-! ### The locks can be released -/

/-- The order in which the locks are taken. -/
def Lock.rank : Lock → Nat
  | .qwait => 0
  | .exq => 1
  | .fs _ => 2
  | .req _ => 3

/-- How far a thread that holds a lock is from giving it back. -/
def Reader.load : Reader → Nat
  | .enq _ | .flush _ | .shut | .abandon | .req _ _ => 1
  | .wantReq _ _ | .shutReq _ => 2
  | .work _ | .wantShutReq _ => 3
  | _ => 0

def Slave.load : Slave → Nat
  | .wantTake => 8
  | .take => 7
  | .wantPush _ _ => 6
  | .push _ _ => 5
  | .fin _ _ _ => 2
  | .loop _ _ | .done _ _ => 1
  | _ => 0

/-- `exshutdown` goes through the whole work list, three steps for each request. -/
def St.load (s : St) : Nat :=
  ∑ fs ∈ Finset.range s.nconn, ((s.reader fs).load + 3 * (s.mem.work fs).length) +
    ∑ i ∈ Finset.range s.nslave, (s.slave i).load

theorem sum_update {f g : Nat → Nat} {n k a b : Nat} (hk : k < n) (hfg : ∀ j, j ≠ k → g j = f j)
    (hab : g k + a = f k + b) : ∑ j ∈ Finset.range n, g j + a = ∑ j ∈ Finset.range n, f j + b := by
  have hmem := Finset.mem_range.2 hk
  have hsum : ∑ j ∈ (Finset.range n).erase k, g j = ∑ j ∈ (Finset.range n).erase k, f j :=
    Finset.sum_congr rfl fun j hj => hfg j (Finset.ne_of_mem_erase hj)
  have hg := Finset.add_sum_erase _ g hmem
  have hf := Finset.add_sum_erase _ f hmem
  omega

namespace St
variable {s : St} {fs i : Nat} {p : Reader} {p' : Slave} {m : Mem} {ws : List Nat}

@[simp] theorem load_unlock (l : Lock) : (s.unlock l).load = s.load := rfl

@[simp] theorem load_owner (o : Lock → Option Tid) : St.load { s with owner := o } = s.load := rfl

theorem load_set (hw : m.work = s.mem.work) : (s.set m).load = s.load := by
  simp [load, St.set, hw]

theorem load_goR (hfs : fs < s.nconn) : (s.goR fs p).load + (s.reader fs).load = s.load + p.load := by
  have h := sum_update (a := (s.reader fs).load) (b := p.load)
    (g := fun j => ((s.goR fs p).reader j).load + 3 * (s.mem.work j).length) hfs
    (f := fun j => (s.reader j).load + 3 * (s.mem.work j).length)
    (fun j hj => by simp [St.goR, hj]) (by simp [St.goR]; omega)
  simp only [load, St.goR] at h ⊢
  omega

theorem load_goS (p' : Slave) (hi : i < s.nslave) : (s.goS i p').load + (s.slave i).load = s.load + p'.load := by
  have h := sum_update (a := (s.slave i).load) (b := p'.load) (g := fun j => ((s.goS i p').slave j).load)
    (f := fun j => (s.slave j).load) hi (fun j hj => by simp [St.goS, hj]) (by simp [St.goS]; omega)
  simp only [load, St.goS] at h ⊢
  omega

theorem load_setWork (hfs : fs < s.nconn) :
    (s.set (s.mem.setWork fs ws)).load + 3 * (s.mem.work fs).length = s.load + 3 * ws.length := by
  have h := sum_update (a := 3 * (s.mem.work fs).length) (b := 3 * ws.length)
    (g := fun j => (s.reader j).load + 3 * ((s.mem.setWork fs ws).work j).length) hfs
    (f := fun j => (s.reader j).load + 3 * (s.mem.work j).length)
    (fun j hj => by simp [Mem.setWork, hj]) (by simp [Mem.setWork]; omega)
  simp only [load, St.set] at h ⊢
  omega

theorem load_setWork_le {k : Nat} (hk : ws.length ≤ (s.mem.work fs).length + k) :
    (s.set (s.mem.setWork fs ws)).load ≤ s.load + 3 * k := by
  by_cases hfs : fs < s.nconn
  · have h : (s.set (s.mem.setWork fs ws)).load + _ = _ := load_setWork hfs
    omega
  have hsum : ∑ j ∈ Finset.range s.nconn, ((s.reader j).load + 3 * ((s.mem.setWork fs ws).work j).length) =
      ∑ j ∈ Finset.range s.nconn, ((s.reader j).load + 3 * (s.mem.work j).length) := by
    refine Finset.sum_congr rfl fun j hj => ?_
    have hne : j ≠ fs := fun heq => hfs (heq ▸ Finset.mem_range.1 hj)
    simp [Mem.setWork, hne]
  simp only [load, St.set, hsum]
  omega

end St

namespace Guarded
variable {s s' : St} {fs i : Nat}

attribute [local simp] Reader.holds Slave.holds Reader.load Slave.load

theorem wants_rank {t : Tid} {l k : Lock} (hw : s.wants t = some l) (hk : k ∈ s.held t) : k.rank < l.rank := by
  cases t with
  | reader fs =>
    simp only [St.wants, St.held] at hw hk
    cases hr : s.reader fs <;> simp [hr, Reader.wants] at hw hk
    all_goals subst hw; subst hk; simp [Lock.rank]
  | slave i =>
    simp only [St.wants, St.held] at hw hk
    cases hi : s.slave i <;> simp [hi, Slave.wants] at hw hk
    all_goals subst hw; subst hk; simp [Lock.rank]

theorem disciplined (h : Guarded s) : Disciplined s where
  returned t ht l hl := by
    have hm := h.locks.owned.only trivial l t hl
    cases t with
    | reader fs => rcases ht with ht | ht | ⟨fq, ht⟩ <;> simp [St.held, ht] at hm
    | slave i => simp [St.held, St.returned] at hm ht; simp [ht] at hm
  wants t l hw hl := lt_irrefl _ (wants_rank hw (h.locks.owned.only trivial l t hl))

theorem lock_free {l : Lock} {t : Tid} (hl : s.owner l = none) :
    s.lock l t = some { s with owner := update s.owner l (some t) } := by
  unfold St.lock
  rw [hl]

theorem reader_goes (h : Guarded s) (hh : (s.reader fs).holds fs ≠ [])
    (hfree : ∀ l, (s.reader fs).wants fs = some l → s.owner l = none) :
    Unfinished s (.reader fs) ∧ ∃ s', ExSlave.step s (.reader fs) = some s' ∧ s'.load < s.load := by
  have hfs : fs < s.nconn := by
    by_contra hge
    simp [h.locks.readers fs (le_of_not_gt hge)] at hh
  have hun : Unfinished s (.reader fs) := fun fq q hw => by simp [hw] at hh
  refine ⟨hun, ?_⟩
  have hgo : ∀ (s₁ : St) (p : Reader), s₁.nconn = s.nconn → s₁.load ≤ s.load → s₁.reader = s.reader →
      p.load < (s.reader fs).load → (s₁.goR fs p).load < s.load := by
    intro s₁ p hn hle hr hp
    have hl := St.load_goR (s := s₁) (p := p) (hn ▸ hfs)
    rw [hr] at hl
    omega
  simp only [ExSlave.step, readerStep]
  cases hpc : s.reader fs <;> dsimp only <;> simp only [hpc, Reader.holds, ne_eq, not_true_eq_false, reduceCtorEq] at hh
  case enq q => exact ⟨_, rfl, hgo _ _ rfl (le_of_eq (St.load_set rfl)) rfl (by simp [hpc])⟩
  case flush fq =>
    split
    · exact ⟨_, rfl, hgo _ _ rfl (le_of_eq (St.load_set rfl)) rfl (by simp [hpc])⟩
    · exact ⟨_, rfl, hgo _ _ rfl (le_refl _) rfl (by simp [hpc])⟩
  case work fq =>
    split
    all_goals exact ⟨_, rfl, hgo _ _ rfl (le_refl _) rfl (by simp [hpc])⟩
  case wantReq fq q | wantShutReq q =>
    simp only [lock_free (hfree (.req q) (by simp [hpc, Reader.wants]))]
    exact ⟨_, rfl, hgo _ _ rfl (le_refl _) rfl (by simp [hpc])⟩
  case req fq q =>
    split
    · exact ⟨_, rfl, hgo _ _ rfl (le_refl _) rfl (by simp [hpc])⟩
    · exact ⟨_, rfl, hgo _ _ rfl (le_of_eq (St.load_set rfl)) rfl (by simp [hpc])⟩
  case shut => exact ⟨_, rfl, hgo _ _ rfl (le_of_eq (St.load_set rfl)) rfl (by simp [hpc])⟩
  case abandon =>
    split
    · exact ⟨_, rfl, hgo _ _ rfl (le_refl _) rfl (by simp [hpc])⟩
    next q qs hq =>
    -- the list gets shorter, which pays for the steps to come
    refine ⟨_, rfl, ?_⟩
    have hw : (s.set (s.mem.setWork fs qs)).load + _ = _ := St.load_setWork hfs
    have hl := St.load_goR (s := s.set (s.mem.setWork fs qs)) (p := .wantShutReq q) hfs
    simp only [hq, St.set, hpc, Reader.load, List.length_cons] at hw hl ⊢
    omega
  case shutReq q => exact ⟨_, rfl, hgo _ _ rfl (le_of_eq (St.load_set rfl)) rfl (by simp [hpc])⟩

theorem slave_goes (h : Guarded s) (hh : (s.slave i).holds ≠ []) (hsleep : s.slave i ≠ .sleep)
    (hfree : ∀ l, (s.slave i).wants = some l → s.owner l = none) :
    Unfinished s (.slave i) ∧ ∃ s', ExSlave.step s (.slave i) = some s' ∧ s'.load < s.load := by
  have hi : i < s.nslave := by
    by_contra hge
    simp [h.locks.slaves i (le_of_not_gt hge)] at hh
  have hun : Unfinished s (.slave i) := by
    rintro q fs (⟨hw, -⟩ | ⟨err, hw, -⟩) <;> simp [hw] at hh
  refine ⟨hun, ?_⟩
  have hgo : ∀ (s₁ : St) (p : Slave) (k : Nat), s₁.nslave = s.nslave → s₁.load ≤ s.load + k → s₁.slave = s.slave →
      p.load + k < (s.slave i).load → (s₁.goS i p).load < s.load := by
    intro s₁ p k hn hle hr hp
    have hl := St.load_goS (s := s₁) (i := i) p (hn ▸ hi)
    rw [hr] at hl
    omega
  simp only [ExSlave.step, slaveStep]
  cases hpc : s.slave i <;> dsimp only <;> simp only [hpc, Slave.holds, ne_eq, not_true_eq_false,
    reduceCtorEq] at hh hsleep
  case wantTake =>
    simp only [lock_free (hfree .exq (by simp [hpc, Slave.wants]))]
    exact ⟨_, rfl, hgo _ _ 0 rfl (le_refl _) rfl (by simp [hpc])⟩
  case take =>
    split
    · exact ⟨_, rfl, hgo _ _ 0 rfl (le_refl _) rfl (by simp [hpc])⟩
    · exact ⟨_, rfl, hgo _ _ 0 rfl (le_of_eq (St.load_set rfl)) rfl (by simp [hpc])⟩
  case wantPush q fs =>
    simp only [lock_free (hfree (.fs fs) (by simp [hpc, Slave.wants]))]
    exact ⟨_, rfl, hgo _ _ 0 rfl (le_refl _) rfl (by simp [hpc])⟩
  case push q fs =>
    have hw : (s.set (s.mem.setWork fs (q :: s.mem.work fs))).load ≤ s.load + 3 * 1 := St.load_setWork_le (by simp)
    refine ⟨_, rfl, hgo _ _ 3 rfl ?_ rfl (by simp [hpc])⟩
    rwa [St.load_unlock, St.load_unlock]
  case fin q fs err =>
    split
    · exact ⟨_, rfl, hgo _ _ 0 rfl (le_of_eq (St.load_set rfl)) rfl (by simp [hpc])⟩
    · split
      all_goals exact ⟨_, rfl, hgo _ _ 0 rfl (le_refl _) rfl (by simp [hpc])⟩
  case loop q fs =>
    split
    all_goals exact ⟨_, rfl, hgo _ _ 0 rfl (le_of_eq (St.load_set rfl)) rfl (by simp [hpc])⟩
  case done q fs =>
    have hw : (s.set (s.mem.setWork fs ((s.mem.work fs).erase q))).load ≤ s.load + 3 * 0 :=
      St.load_setWork_le List.length_erase_le
    refine ⟨_, rfl, hgo _ _ 0 rfl ?_ rfl (by simp [hpc])⟩
    rwa [St.load_unlock]

theorem progress (h : Guarded s) : Released s ∨ ∃ op s', Unfinished s op ∧ ExSlave.step s op = some s' ∧
    s'.load < s.load := by
  by_cases hall : ∀ l t, s.owner l = some t → l = .qwait ∧ ∃ i, t = .slave i ∧ s.slave i = .sleep
  · have hnone : ∀ l, l ≠ .qwait → s.owner l = none := fun l hne => by
      rw [Option.eq_none_iff_forall_ne_some]
      exact fun t ht => hne (hall l t ht).1
    exact .inl ⟨hnone _ (by simp), fun _ => hnone _ (by simp), fun _ => hnone _ (by simp), fun t ht => (hall _ t ht).2⟩
  push Not at hall
  obtain ⟨l, t, hl, hawake⟩ := hall
  have hbound : ∀ l : Lock, l.rank ≤ 3 := fun l => by cases l <;> simp [Lock.rank]
  obtain ⟨l', t', hl', hle, hfree⟩ :=
    h.locks.owned.exists_ready trivial hbound (fun t l hw k hk => wants_rank hw hk) hl
  have hm := h.locks.owned.only trivial l' t' hl'
  right
  cases t' with
  | reader fs =>
    obtain ⟨hun, s', hs', hlt⟩ := h.reader_goes (List.ne_nil_of_mem hm) hfree
    exact ⟨_, s', hun, hs', hlt⟩
  | slave i =>
    have hsleep : s.slave i ≠ .sleep := by
      intro hi
      -- then the lock is `exq.qwait`, and so is the one we started with
      have hq : l' = .qwait := by simpa [St.held, hi] using hm
      subst hq
      have hq : l = .qwait := by cases l <;> simp [Lock.rank] at hle ⊢
      subst hq
      exact hawake rfl i (Option.some.inj (hl.symm.trans hl')) hi
    obtain ⟨hun, s', hs', hlt⟩ := h.slave_goes (List.ne_nil_of_mem hm) hsleep hfree
    exact ⟨_, s', hun, hs', hlt⟩

theorem lockSafe (h : Guarded s) : LockSafe s := by
  refine ⟨h.disciplined, ?_⟩
  refine reaches_of_progress (J := fun n s => Guarded s ∧ s.load = n) ?_ ⟨h, rfl⟩
  rintro n s ⟨h, rfl⟩
  rcases h.progress with hrel | ⟨op, s', hun, hs', hlt⟩
  · exact .inl hrel
  · exact .inr ⟨_, hlt, op, s', hs', h.step hun hs', rfl⟩

end Guarded

/-- As long as no flush meets a request that has finished. -/
theorem lockSafe_of_unfinished (ops : List Op) (h : Along step Unfinished init ops) :
    Always step LockSafe init ops :=
  (h.always (fun _ _ _ hI hG hs => hI.step hG hs) Guarded.init).mono fun _ hI => hI.lockSafe

/-- The flush comes in between `q->finished = 1` and the `lock` after it: `exflushed` returns with `fs->l` held. -/
theorem not_lockSafe : ¬ ∀ ops, Always step LockSafe init ops := by
  intro h
  let ops : List Op := served ++ [.ret 0 false, .slave 0, .slave 0, .slave 0, .slave 0, .slave 0] ++ flushed
  have hrun : ((run step init ops).map fun s => (s.reader 0, s.owner (.fs 0))) = some (.reply 1,
    some (.reader 0)) := rfl
  obtain ⟨s, hs, heq⟩ := Option.map_eq_some_iff.1 hrun
  obtain ⟨hr, ho⟩ := Prod.mk.inj heq
  exact ((h ops).last hs).1.returned (.reader 0) (.inr (.inr ⟨1, hr⟩)) _ ho

theorem unfinished_reader {s : St} {fs : Nat} (h : ∀ fq, s.reader fs ≠ .wantWork fq) : Unfinished s (.reader fs) :=
  fun fq _ hr => absurd hr (h fq)

theorem unfinished_slave {s : St} {i : Nat} (h : ∀ q fs, s.slave i ≠ .wantLoop q fs)
    (h' : ∀ q fs err, s.slave i ≠ .wantFin q fs err) : Unfinished s (.slave i) := by
  rintro q fs (⟨hw, -⟩ | ⟨err, hw, -⟩)
  · exact absurd hw (h q fs)
  · exact absurd hw (h' q fs err)

theorem lockSafe_flush : Along step Unfinished init (served ++ flushed) ∧
    Always step LockSafe init (served ++ flushed) := by
  have h : Along step Unfinished init (served ++ flushed) := by
    refine .cons trivial rfl (.cons trivial rfl (.cons trivial rfl ?_))
    refine .cons (unfinished_reader (by rintro _ ⟨⟩)) rfl (.cons (unfinished_reader (by rintro _ ⟨⟩)) rfl ?_)
    refine .cons (unfinished_slave (by rintro _ _ ⟨⟩) (by rintro _ _ _ ⟨⟩)) rfl (.cons trivial rfl ?_)
    refine .cons (unfinished_slave (by rintro _ _ ⟨⟩) (by rintro _ _ _ ⟨⟩)) rfl (.cons (unfinished_slave (by rintro _ _ ⟨⟩) (by rintro _ _ _ ⟨⟩)) rfl ?_)
    refine .cons (unfinished_slave (by rintro _ _ ⟨⟩) (by rintro _ _ _ ⟨⟩)) rfl (.cons (unfinished_slave (by rintro _ _ ⟨⟩) (by rintro _ _ _ ⟨⟩)) rfl ?_)
    refine .cons trivial rfl (.cons
      (unfinished_reader (by rintro _ ⟨⟩)) rfl (.cons (unfinished_reader (by rintro _ ⟨⟩)) rfl ?_))
    -- the flush takes `fs->l` and finds the request, which the slave executes
    refine .cons (fun fq q hr hf => ?_) rfl ?_
    · cases hr
      cases hf
      refine ⟨rfl, fun i hc => ?_⟩
      by_cases hi : i = 0
      · subst hi
        rcases hc with ⟨fs, hl, -⟩ | ⟨fs, err, hl, -⟩ <;> cases hl
      · rcases hc with ⟨fs, hl, -⟩ | ⟨fs, err, hl, -⟩ <;> simp [St.goR, St.goS, St.unlock, St.set, init, hi] at hl
    refine .cons (unfinished_reader (by rintro _ ⟨⟩)) rfl (.cons (unfinished_reader (by rintro _ ⟨⟩)) rfl ?_)
    exact .cons (unfinished_reader (by rintro _ ⟨⟩)) rfl trivial
  exact ⟨h, lockSafe_of_unfinished _ h⟩
end Node9.ExSlave
