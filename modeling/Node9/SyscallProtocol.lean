import Node9.Syscall

/-!
# The request and reply protocol of the system calls

`Inv s reqs reps`: the request queue holds the nodes of the tasks `reqs` and the reply queue those of `reps`.
In a run that is `Plain` a task waits for a reply exactly if it is in one of the four places a request passes through
(`reqs`, a worker, a timer, `reps`), and it is there once. Its log is a number of whole rounds `call, reply, resume`,
and what the request that it waits for has seen so far.
-/

namespace Node9.Syscall
open Intrusive Steps List

def rounds (n : Nat) : List Ev := (List.replicate n [.call, .reply, .resume]).flatten

theorem rounds_succ (n : Nat) : rounds (n + 1) = rounds n ++ [.call, .reply] ++ [.resume] := by
  simp [rounds, replicate_succ']

theorem count_rounds (n : Nat) : (rounds n).count .call = n := by
  induction n with
  | zero => rfl
  | succ n ih => rw [rounds_succ]; simp [ih]

/-- What the links say: the nodes of the request queue and of the reply queue. -/
structure Queues (q : Links QNode) (reqs reps : List Nat) : Prop where
  req : Ring q .reqq (reqs.map .vp)
  rep : Ring q .repq (reps.map .vp)
  disj : ∀ t ∈ reqs, t ∉ reps

theorem vp_mem_reqq {t : Nat} {xs : List Nat} : QNode.vp t ∈ QNode.reqq :: xs.map .vp ↔ t ∈ xs := by simp

theorem vp_mem_repq {t : Nat} {xs : List Nat} : QNode.vp t ∈ QNode.repq :: xs.map .vp ↔ t ∈ xs := by simp

namespace Queues
variable {q : Links QNode} {reqs reps : List Nat} {pid : Nat}

section
variable (h : Queues q reqs reps)
include h

theorem symm_disj : ∀ x ∈ QNode.reqq :: reqs.map .vp, x ∉ QNode.repq :: reps.map .vp := by
  intro x hx
  cases x with
  | reqq => simp
  | repq => simp at hx
  | vp t => exact fun hx' => h.disj t (vp_mem_reqq.1 hx) (vp_mem_repq.1 hx')

theorem init_frame (hreq : pid ∉ reqs) (hrep : pid ∉ reps) :
    Queues (Intrusive.init q (.vp pid)) reqs reps :=
  ⟨h.req.init_frame fun hx => hreq (vp_mem_reqq.1 hx), h.rep.init_frame fun hx => hrep (vp_mem_repq.1 hx), h.disj⟩

theorem enter_reqq (hreq : pid ∉ reqs) (hrep : pid ∉ reps) :
    Queues (enter .reqq pid q) (reqs ++ [pid]) reps := by
  have h' := h.init_frame hreq hrep
  refine ⟨?_, ?_, ?_⟩
  · rw [map_append]
    exact h'.req.insertTail fun hx => hreq (vp_mem_reqq.1 hx)
  · exact h'.req.insertTail_frame h'.rep (fun hx => hrep (vp_mem_repq.1 hx)) h'.symm_disj
  · intro t ht
    rcases mem_append.1 ht with ht | ht
    · exact h.disj t ht
    · exact mem_singleton.1 ht ▸ hrep

theorem enter_repq (hreq : pid ∉ reqs) (hrep : pid ∉ reps) :
    Queues (enter .repq pid q) reqs (reps ++ [pid]) := by
  have h' := h.init_frame hreq hrep
  refine ⟨?_, ?_, ?_⟩
  · exact h'.rep.insertTail_frame h'.req (fun hx => hreq (vp_mem_reqq.1 hx)) fun x hx hx' => h'.symm_disj x hx' hx
  · rw [map_append]
    exact h'.rep.insertTail fun hx => hrep (vp_mem_repq.1 hx)
  · intro t ht hx
    rcases mem_append.1 hx with hx | hx
    · exact h.disj t ht hx
    · exact hreq (mem_singleton.1 hx ▸ ht)

end

theorem leave_reqq (h : Queues q (pid :: reqs) reps) : Queues (remove q (.vp pid)) reqs reps :=
  ⟨h.req.remove_head, h.req.remove_frame h.rep h.symm_disj, fun t ht => h.disj t (mem_cons_of_mem pid ht)⟩

theorem leave_repq (h : Queues q reqs (pid :: reps)) : Queues (remove q (.vp pid)) reqs reps := by
  refine ⟨?_, h.rep.remove_head, fun t ht hx => h.disj t ht (mem_cons_of_mem pid hx)⟩
  exact h.rep.remove_frame h.req fun x hx hx' => h.symm_disj x hx' hx

end Queues

theorem sysrep_eq {s : St} {reqs reps : List Nat} (h : Queues s.q reqs reps) : sysrep s =
    match reps with
    | [] => (0, s)
    | pid :: _ => (pid, { s with q := remove s.q (.vp pid) }) := by
  cases reps with
  | nil => simp [sysrep, h.rep.next_nil]
  | cons pid reps =>
    have hnext : s.q.next .repq = .vp pid := h.rep.next_cons
    simp [sysrep, hnext]

theorem dispatch_eq {s : St} {reqs reps : List Nat} (h : Queues s.q reqs reps) : dispatch s =
    match reqs with
    | [] => none
    | pid :: _ => some { s with q := remove s.q (.vp pid), working := s.working ++ [pid] } := by
  cases reqs with
  | nil => simp [dispatch, h.req.next_nil]
  | cons pid reqs =>
    have hnext : s.q.next .reqq = .vp pid := h.req.next_cons
    simp [dispatch, hnext]

/-- What the invariant says of one task: its status, its log and the lists that it is in. -/
structure TaskOk (k : TaskSt) (log : List Ev) (out replied rdy : Prop) : Prop where
  waiting : k = .waiting ↔ out ∨ replied
  ready : k = .ready ↔ rdy
  log_idle : k ≠ .waiting → ∃ n, log = rounds n
  log_out : out → ∃ n, log = rounds n ++ [.call]
  log_replied : replied → ∃ n, log = rounds n ++ [.call, .reply]

def Deed.Plain : Deed → Prop
  | .wake _ => True
  | _ => False

/-- No system call, and no channel operation that has to wait, is made in a coroutine of the task's own, and none of
another task is resumed. -/
def Op.Plain : Op → Prop
  | .sched act => ∀ d ∈ act.deeds, d.Plain
  | _ => True

structure Inv (s : St) (reqs reps : List Nat) : Prop where
  queues : Queues s.q reqs reps
  nodup : (reqs ++ s.working ++ s.timers ++ reps).Nodup
  ready_nodup : (s.rdyq ++ s.runq).Nodup
  tasks : ∀ t, TaskOk (s.task t) (s.log t) (t ∈ reqs ++ s.working ++ s.timers) (t ∈ reps) (t ∈ s.rdyq ++ s.runq)
  zero : s.task 0 = .absent
  runq : s.phase = .replies ∨ s.phase = .events → s.runq = []

namespace TaskOk
variable {k k' : TaskSt} {log : List Ev} {out replied rdy : Prop} {n : Nat}

section
variable (h : TaskOk k log out replied rdy)
include h

theorem not_out (hk : k ≠ .waiting) : ¬ out :=
  fun ho => hk (h.waiting.2 (.inl ho))

theorem not_replied (hk : k ≠ .waiting) : ¬ replied :=
  fun hr => hk (h.waiting.2 (.inr hr))

theorem not_rdy (hk : k ≠ .ready) : ¬ rdy := fun hr => hk (h.ready.2 hr)

end

theorem of_idle (hk : k ≠ .waiting) (hrdy : k = .ready ↔ rdy) (hlog : ∃ n, log = rounds n) (ho : ¬ out)
    (hr : ¬ replied) : TaskOk k log out replied rdy :=
  ⟨by simp [hk, ho, hr], hrdy, fun _ => hlog, fun h => absurd h ho, fun h => absurd h hr⟩

theorem of_out (ho : out) (hr : ¬ replied) (hrdy : ¬ rdy) (hlog : ∃ n, log = rounds n ++ [.call]) :
    TaskOk .waiting log out replied rdy :=
  ⟨by simp [ho], by simp [hrdy], fun h => absurd rfl h, fun _ => hlog, fun h => absurd h hr⟩

theorem of_replied (ho : ¬ out) (hr : replied) (hrdy : ¬ rdy) (hlog : ∃ n, log = rounds n ++ [.call, .reply]) :
    TaskOk .waiting log out replied rdy :=
  ⟨by simp [hr], by simp [hrdy], fun h => absurd rfl h, fun h => absurd h ho, fun _ => hlog⟩

theorem status (h : TaskOk k log out replied rdy) (hk : k ≠ .waiting ∧ k ≠ .ready)
    (hk' : k' ≠ .waiting ∧ k' ≠ .ready) : TaskOk k' log out replied rdy :=
  of_idle hk'.1 (by simp [hk'.2, h.not_rdy hk.2]) (h.log_idle hk.1) (h.not_out hk.1) (h.not_replied hk.1)

end TaskOk

theorem inv_init : Inv init [] [] := by
  refine ⟨⟨⟨⟨rfl, rfl⟩, by simp⟩, ⟨⟨rfl, rfl⟩, by simp⟩, by simp⟩, by simp [init], by simp [init], fun t => ?_, rfl,
    fun _ => rfl⟩
  refine .of_idle ?_ ?_ ⟨0, rfl⟩ (by simp [init]) (by simp)
  all_goals by_cases ht : t = 1 <;> simp [init, ht]

namespace Inv
variable {s s' : St} {reqs reps ts : List Nat} {pid : Nat}

theorem ne_zero (hI : Inv s reqs reps) (h : s.task pid ≠ .absent) : pid ≠ 0 := by
  rintro rfl
  exact h hI.zero

/-! A task begins to run. -/

attribute [local simp] St.setTask St.record

theorem begin_reply (hI : Inv s reqs (pid :: reps)) :
    Inv (begin true pid { s with q := remove s.q (.vp pid) }) reqs reps := by
  obtain ⟨hpid, hnd⟩ := nodup_cons.1 (perm_middle.nodup_iff.1 hI.nodup)
  rw [mem_append, not_or] at hpid
  have hok := hI.tasks pid
  have hw : s.task pid = .waiting := hok.waiting.2 (.inr mem_cons_self)
  have h0 : pid ≠ 0 := hI.ne_zero (by simp [hw])
  have hb : begin true pid { s with q := remove s.q (.vp pid) } =
      ({ s with q := remove s.q (.vp pid) }.record pid .resume).setTask pid .running := by
    simp [begin]
  rw [hb]
  refine ⟨hI.queues.leave_repq, hnd, hI.ready_nodup, fun t => ?_, ?_, hI.runq⟩
  · by_cases ht : t = pid
    · subst ht
      obtain ⟨n, hn⟩ := hok.log_replied mem_cons_self
      refine .of_idle (by simp) ?_ ⟨n + 1, by simp [hn, rounds_succ]⟩ hpid.1 hpid.2
      have hrdy := hok.not_rdy (by simp [hw])
      simpa using hrdy
    · simpa [ht] using hI.tasks t
  · simpa [h0.symm] using hI.zero

theorem begin_run (hI : Inv s reqs reps) (hts : s.runq = pid :: ts) (hphase : s.phase = .running) :
    Inv (begin false pid { s with runq := ts }) reqs reps := by
  have hok := hI.tasks pid
  have hr : s.task pid = .ready := hok.ready.2 (by simp [hts])
  have h0 : pid ≠ 0 := hI.ne_zero (by simp [hr])
  have hnd := hI.ready_nodup
  rw [hts] at hnd
  obtain ⟨hpid, hnd⟩ := nodup_cons.1 (perm_middle.nodup_iff.1 hnd)
  have hb : begin false pid { s with runq := ts } = { s with runq := ts }.setTask pid .running := by
    simp [begin, hr]
  rw [hb]
  refine ⟨hI.queues, hI.nodup, hnd, fun t => ?_, ?_, ?_⟩
  · by_cases ht : t = pid
    · subst ht
      refine .of_idle (by simp) ?_ (hok.log_idle (by simp [hr])) (hok.not_out (by simp [hr]))
        (hok.not_replied (by simp [hr]))
      simpa using hpid
    · simpa [ht, hts] using hI.tasks t
  · simpa [h0.symm] using hI.zero
  · simp [hphase]

/-! It makes tasks ready. -/

theorem wake_ok (hI : Inv s reqs reps) (h0 : pid ≠ 0) (hk : s.task pid ≠ .waiting) (hk' : s.task pid ≠ .ready) :
    Inv (wake pid s) reqs reps := by
  have hok := hI.tasks pid
  have hpid := hok.not_rdy hk'
  have hperm : (s.rdyq ++ [pid] ++ s.runq).Perm (pid :: (s.rdyq ++ s.runq)) := by
    rw [append_assoc]
    exact perm_middle
  refine ⟨hI.queues, hI.nodup, hperm.nodup_iff.2 (nodup_cons.2 ⟨hpid, hI.ready_nodup⟩), fun t => ?_, ?_, hI.runq⟩
  · by_cases ht : t = pid
    · subst ht
      exact .of_idle (by simp [wake]) (by simp [wake]) (hok.log_idle hk) (hok.not_out hk)
        (hok.not_replied hk)
    · simpa [wake, ht] using hI.tasks t
  · simpa [wake, h0.symm] using hI.zero

theorem deeds_ok {ds : List Deed} (hI : Inv s reqs reps) (hown : s.own = []) (hrun : s.task pid = .running)
    (hplain : ∀ d ∈ ds, d.Plain) (h : deeds pid ds s = some s') :
    Inv s' reqs reps ∧ s'.own = [] ∧ s'.task pid = .running := by
  induction ds generalizing s with
  | nil =>
    cases h
    exact ⟨hI, hown, hrun⟩
  | cons d ds ih =>
    obtain ⟨s₁, hd, h⟩ := Option.bind_eq_some_iff.1 h
    obtain ⟨hd', hds⟩ := forall_mem_cons.1 hplain
    cases d with
    | wake t =>
      simp only [deed, hown, not_mem_nil, or_false, erase_nil] at hd
      split at hd
      · next ht =>
        cases hd
        obtain ⟨h0, ht⟩ := ht
        have hk : s.task t ≠ .waiting ∧ s.task t ≠ .ready := by rcases ht with ht | ht <;> simp [ht]
        have hpt : pid ≠ t := by
          rintro rfl
          simp [hrun] at ht
        refine ih ?_ rfl ?_ hds h
        · obtain ⟨h1, h2, h3, h4, h5, h6⟩ := hI.wake_ok h0 hk.1 hk.2
          exact ⟨h1, h2, h3, h4, h5, h6⟩
        · simpa [wake, hpt] using hrun
      · cases hd
    | call c | block | resume t ends => exact hd'.elim

section
variable (hI : Inv s reqs reps)
include hI

section
variable (hrun : s.task pid = .running)
include hrun

theorem setTask_ok {k : TaskSt}
    (hk : k ≠ .waiting ∧ k ≠ .ready) : Inv (s.setTask pid k) reqs reps := by
  have h0 : pid ≠ 0 := hI.ne_zero (by simp [hrun])
  refine ⟨hI.queues, hI.nodup, hI.ready_nodup, fun t => ?_, ?_, hI.runq⟩
  · by_cases ht : t = pid
    · subst ht
      simpa using (hI.tasks t).status (by simp [hrun]) hk
    · simpa [ht] using hI.tasks t
  · simpa [h0.symm] using hI.zero

theorem call_ok {q : Links QNode} {reqs' timers : List Nat}
    (hq : Queues q reqs' reps) (hperm : (reqs' ++ s.working ++ timers).Perm (pid :: (reqs ++ s.working ++ s.timers))) :
    Inv (({ s with q := q, timers := timers }.record pid .call).setTask pid .waiting) reqs' reps := by
  have hok := hI.tasks pid
  have hout := hok.not_out (by simp [hrun])
  have hrep := hok.not_replied (by simp [hrun])
  have hrdy := hok.not_rdy (by simp [hrun])
  have h0 : pid ≠ 0 := hI.ne_zero (by simp [hrun])
  refine ⟨hq, ?_, hI.ready_nodup, fun t => ?_, ?_, hI.runq⟩
  · refine (hperm.append_right reps).nodup_iff.2 (nodup_cons.2 ⟨fun h => ?_, hI.nodup⟩)
    exact (mem_append.1 h).elim hout hrep
  · by_cases ht : t = pid
    · subst ht
      obtain ⟨n, hn⟩ := hok.log_idle (by simp [hrun])
      have hmem : t ∈ reqs' ++ s.working ++ timers := hperm.mem_iff.2 mem_cons_self
      have h : TaskOk .waiting (s.log t ++ [.call]) _ _ _ := .of_out hmem hrep hrdy ⟨n, by rw [hn]⟩
      simpa using h
    · have h := hI.tasks t
      have hmem : t ∈ reqs ++ s.working ++ s.timers ↔ t ∈ reqs' ++ s.working ++ timers := by
        rw [hperm.mem_iff, mem_cons, or_iff_right ht]
      rw [propext hmem] at h
      simpa [ht] using h
  · simpa [h0.symm] using hI.zero

theorem sysreq_ok :
    Inv ((call pid .sysreq s).setTask pid .waiting) (reqs ++ [pid]) reps := by
  have hok := hI.tasks pid
  have hreq : pid ∉ reqs := fun h => hok.not_out (by simp [hrun]) (by simp [h])
  refine hI.call_ok hrun (hI.queues.enter_reqq hreq (hok.not_replied (by simp [hrun]))) ?_
  simp only [append_assoc]
  exact perm_middle

theorem sys_sleep_ok : Inv ((call pid .sleep s).setTask pid .waiting) reqs reps := by
  refine hI.call_ok hrun hI.queues ?_
  rw [← append_assoc]
  exact perm_append_singleton _ _

theorem yield_ok (final : Final) :
    ∃ reqs', Inv (yield pid s final) reqs' reps := by
  cases final with
  | call c =>
    cases c with
    | sysreq => exact ⟨reqs ++ [pid], hI.sysreq_ok hrun⟩
    | sleep => exact ⟨reqs, hI.sys_sleep_ok hrun⟩
  | yielded => exact ⟨reqs, hI.wake_ok (hI.ne_zero (by simp [hrun])) (by simp [hrun]) (by simp [hrun])⟩
  | parked => exact ⟨reqs, hI.setTask_ok hrun (by simp)⟩
  | exited =>
    obtain ⟨hq, hnd, hrnd, htasks, h0, hrunq⟩ := hI.setTask_ok hrun (k := .dead) (by simp)
    refine ⟨reqs, hq, hnd, hrnd, htasks, h0, fun h => hrunq ?_⟩
    simp only [yield] at h
    split at h
    · simp at h
    · exact h

end

end

theorem resume_ok {act : Act} {replied : Bool} (hI : Inv (begin replied pid s) reqs reps) (hown : s.own = [])
    (hk : s.task pid ≠ .absent ∧ s.task pid ≠ .dead) (hplain : ∀ d ∈ act.deeds, d.Plain)
    (h : resume replied pid act s = some s') : (∃ reqs', Inv s' reqs' reps) ∧ s'.own = [] := by
  rw [resume, if_neg (not_or.2 hk)] at h
  obtain ⟨s₁, hs₁, rfl⟩ := Option.map_eq_some_iff.1 h
  have hrun : (begin replied pid s).task pid = .running := by simp [begin]
  have hown' : (begin replied pid s).own = [] := by
    unfold begin
    split <;> exact hown
  obtain ⟨hI₁, hown₁, hrun₁⟩ := hI.deeds_ok hown' hrun hplain hs₁
  refine ⟨hI₁.yield_ok hrun₁ act.final, ?_⟩
  cases hf : act.final with
  | call c => cases c <;> exact hown₁
  | yielded | parked | exited => exact hown₁

theorem dispatch_ok (hI : Inv s (pid :: reqs) reps) :
    Inv { s with q := remove s.q (.vp pid), working := s.working ++ [pid] } reqs reps := by
  have hperm : (pid :: reqs ++ s.working ++ s.timers).Perm (reqs ++ (s.working ++ [pid]) ++ s.timers) := by
    simp only [cons_append, append_assoc, nil_append]
    exact perm_middle.symm.trans (perm_middle.symm.append_left reqs)
  refine ⟨hI.queues.leave_reqq, (hperm.append_right reps).nodup_iff.1 hI.nodup, hI.ready_nodup, fun t => ?_, hI.zero,
    hI.runq⟩
  have h := hI.tasks t
  rwa [propext hperm.mem_iff] at h

section
variable (hI : Inv s reqs reps)
include hI

theorem reply_ok {working timers : List Nat}
    (hperm : (reqs ++ s.working ++ s.timers).Perm (pid :: (reqs ++ working ++ timers))) (hreq : pid ∉ reqs) :
    Inv ({ s with working := working, timers := timers, q := enter .repq pid s.q }.record pid .reply) reqs
      (reps ++ [pid]) := by
  have hok := hI.tasks pid
  have hout : pid ∈ reqs ++ s.working ++ s.timers := hperm.mem_iff.2 mem_cons_self
  have hnd := (hperm.append_right reps).nodup_iff.1 hI.nodup
  rw [cons_append] at hnd
  have hpid := (nodup_cons.1 hnd).1
  rw [mem_append, not_or] at hpid
  have hw : s.task pid = .waiting := hok.waiting.2 (.inl hout)
  refine ⟨hI.queues.enter_repq hreq hpid.2, ?_, hI.ready_nodup, fun t => ?_, hI.zero, hI.runq⟩
  · rw [← append_assoc]
    exact (perm_append_singleton _ _).nodup_iff.2 hnd
  by_cases ht : t = pid
  · subst ht
    obtain ⟨n, hn⟩ := hok.log_out hout
    have hrdy := hok.not_rdy (by simp [hw])
    have h : TaskOk .waiting (s.log t ++ [.reply]) _ (t ∈ reps ++ [t]) _ :=
      .of_replied hpid.1 (by simp) hrdy ⟨n, by simp [hn]⟩
    simpa [hw] using h
  · have h := hI.tasks t
    rw [propext hperm.mem_iff] at h
    simpa [ht] using h

theorem not_mem_reqs (h : pid ∈ s.working ++ s.timers) : pid ∉ reqs := by
  have hnd := hI.nodup
  simp only [append_assoc] at hnd
  obtain ⟨-, -, hdisj⟩ := nodup_append.1 hnd
  intro hreq
  refine hdisj pid hreq pid ?_ rfl
  rw [← append_assoc]
  exact mem_append_left reps h

theorem worker_done_ok (h : pid ∈ s.working) : Inv (worker_done pid s) reqs (reps ++ [pid]) := by
  refine hI.reply_ok ?_ (hI.not_mem_reqs (mem_append_left _ h))
  rw [← cons_append]
  refine List.Perm.append_right s.timers ?_
  exact ((perm_cons_erase h).append_left reqs).trans perm_middle

theorem sys_sleep_expired_ok (h : pid ∈ s.timers) :
    Inv (sys_sleep_expired pid s) reqs (reps ++ [pid]) := by
  refine hI.reply_ok ?_ (hI.not_mem_reqs (mem_append_right _ h))
  exact ((perm_cons_erase h).append_left _).trans perm_middle

end

/-! The loop of the scheduler goes on. -/

theorem run_ready (hI : Inv s reqs reps) (hphase : s.phase = .replies) :
    Inv { s with runq := s.rdyq, rdyq := [], phase := .running } reqs reps := by
  have hrunq := hI.runq (.inl hphase)
  have hnd := hI.ready_nodup
  rw [hrunq, append_nil] at hnd
  refine ⟨hI.queues, hI.nodup, hnd, fun t => ?_, hI.zero, by simp⟩
  simpa [hrunq] using hI.tasks t

theorem set_phase {ph : Phase} (hI : Inv s reqs reps) (hrunq : s.runq = []) : Inv { s with phase := ph } reqs reps :=
  ⟨hI.queues, hI.nodup, hI.ready_nodup, hI.tasks, hI.zero, fun _ => hrunq⟩

theorem step_ok {op : Op} (hI : Inv s reqs reps) (hown : s.own = []) (hplain : op.Plain) (h : step s op = some s') :
    (∃ reqs' reps', Inv s' reqs' reps') ∧ s'.own = [] := by
  cases op with
  | sched act =>
    rw [step] at h
    split at h
    · next hphase =>
      rw [sysrep_eq hI.queues] at h
      cases reps with
      | nil =>
        rw [if_pos rfl] at h
        cases h
        exact ⟨⟨reqs, [], hI.run_ready hphase⟩, hown⟩
      | cons pid reps =>
        have hok := hI.tasks pid
        have hw : s.task pid = .waiting := hok.waiting.2 (.inr mem_cons_self)
        have h0 : pid ≠ 0 := hI.ne_zero (by simp [hw])
        rw [if_neg h0] at h
        obtain ⟨⟨reqs', hI'⟩, hown'⟩ := resume_ok hI.begin_reply hown (by simp [hw]) hplain h
        exact ⟨⟨reqs', reps, hI'⟩, hown'⟩
    · next hphase =>
      split at h
      · next hrunq =>
        cases h
        exact ⟨⟨reqs, reps, hI.set_phase hrunq⟩, hown⟩
      · next pid ts hts =>
        have hr : s.task pid = .ready := (hI.tasks pid).ready.2 (by simp [hts])
        obtain ⟨⟨reqs', hI'⟩, hown'⟩ := resume_ok (hI.begin_run hts hphase) hown (by simp [hr]) hplain h
        exact ⟨⟨reqs', reps, hI'⟩, hown'⟩
    · cases h
  | dispatch =>
    rw [step] at h
    split at h
    · rw [dispatch_eq hI.queues] at h
      cases reqs with
      | nil => cases h
      | cons pid reqs =>
        cases h
        exact ⟨⟨reqs, reps, hI.dispatch_ok⟩, hown⟩
    · cases h
  | worker_done pid =>
    rw [step] at h
    split at h
    · next hp =>
      cases h
      exact ⟨⟨reqs, _, hI.worker_done_ok hp.2⟩, hown⟩
    · cases h
  | expired pid =>
    rw [step] at h
    split at h
    · next hp =>
      cases h
      exact ⟨⟨reqs, _, hI.sys_sleep_expired_ok hp.2⟩, hown⟩
    · cases h
  | serviced =>
    rw [step] at h
    split at h
    · next hphase =>
      cases h
      exact ⟨⟨reqs, reps, hI.set_phase (hI.runq (.inr hphase))⟩, hown⟩
    · cases h

end Inv

/-- Each task has at most one request under way, and it is in one place: `reqs` and `reps` are the contents
of the two queues. A task with no request under way has had one reply and one resume for each request. -/
def Protocol (s : St) : Prop :=
  ∃ reqs reps, Ring s.q .reqq (reqs.map .vp) ∧ Ring s.q .repq (reps.map .vp) ∧
    (reqs ++ s.working ++ s.timers ++ reps).Nodup ∧
    ∀ t, ∃ n, (t ∈ reqs ++ s.working ++ s.timers ∧ t ∉ reps ∧ s.log t = rounds n ++ [.call]) ∨
      (t ∉ reqs ++ s.working ++ s.timers ∧ t ∈ reps ∧ s.log t = rounds n ++ [.call, .reply]) ∨
      (t ∉ reqs ++ s.working ++ s.timers ∧ t ∉ reps ∧ s.log t = rounds n)

theorem Inv.protocol {s : St} {reqs reps : List Nat} (hI : Inv s reqs reps) : Protocol s := by
  refine ⟨reqs, reps, hI.queues.req, hI.queues.rep, hI.nodup, fun t => ?_⟩
  obtain ⟨-, -, hdisj⟩ := nodup_append.1 hI.nodup
  have hok := hI.tasks t
  by_cases ho : t ∈ reqs ++ s.working ++ s.timers
  · obtain ⟨n, hn⟩ := hok.log_out ho
    exact ⟨n, .inl ⟨ho, fun hr => hdisj t ho t hr rfl, hn⟩⟩
  · by_cases hr : t ∈ reps
    · obtain ⟨n, hn⟩ := hok.log_replied hr
      exact ⟨n, .inr (.inl ⟨ho, hr, hn⟩)⟩
    · obtain ⟨n, hn⟩ := hok.log_idle fun hw => (hok.waiting.1 hw).elim ho hr
      exact ⟨n, .inr (.inr ⟨ho, hr, hn⟩)⟩

/-- Every request submitted so far has its reply and its resume. -/
def Settled (s s' : St) : Prop := ∀ t, s'.log t = rounds ((s.log t).count .call)

/-- As long as the scheduler has not returned, it can go on until every request is settled. -/
def Completes (s : St) : Prop := s.phase ≠ .halted → ∃ ops s', run step s ops = some s' ∧ Settled s s'

/-- The steps that the requests under way still need. -/
def load (s : St) (reqs reps : List Nat) : Nat :=
  3 * reqs.length + 2 * s.working.length + 2 * s.timers.length + reps.length

/-- How far the loop of the scheduler is from the next of these steps. -/
def dist (s : St) (reps : List Nat) : Nat :=
  match s.phase with
  | .replies => if reps = [] then 3 + s.rdyq.length else 0
  | .running => 2 + s.runq.length
  | .events => if reps = [] then 0 else 1
  | .halted => 0

def weight (s : St) (reqs reps : List Nat) : Nat ×ₗ Nat := toLex (load s reqs reps, dist s reps)

theorem weight_lt_of_load {s s' : St} {reqs reps reqs' reps' : List Nat} (h : load s' reqs' reps' < load s reqs reps) :
    weight s' reqs' reps' < weight s reqs reps :=
  Prod.Lex.toLex_lt_toLex.2 (.inl h)

theorem weight_lt_of_dist {s s' : St} {reqs reps : List Nat} (h : load s' reqs reps = load s reqs reps)
    (h' : dist s' reps < dist s reps) : weight s' reqs reps < weight s reqs reps :=
  Prod.Lex.toLex_lt_toLex.2 (.inr ⟨h, h'⟩)

/-- A task that is resumed and at once parks. -/
def idle : Act := ⟨[], .parked⟩

theorem resume_idle {pid : Nat} {s : St} (replied : Bool) (hk : s.task pid ≠ .absent ∧ s.task pid ≠ .dead) :
    resume replied pid idle s = some ((begin replied pid s).setTask pid .parked) := if_neg (not_or.2 hk)

theorem count_record (s : St) (pid : Nat) {e : Ev} (he : e ≠ .call) (t : Nat) :
    ((s.record pid e).log t).count .call = (s.log t).count .call := by
  by_cases ht : t = pid
  · simp [St.record, ht, he]
  · simp [St.record, ht]

theorem count_begin (replied : Bool) (pid : Nat) (s : St) (t : Nat) :
    (((begin replied pid s).setTask pid .parked).log t).count .call = (s.log t).count .call := by
  by_cases hw : replied = true ∨ s.task pid = .waiting
  · rw [begin, if_pos hw]
    exact count_record s pid (by simp) t
  · rw [begin, if_neg hw]
    rfl

namespace Inv
variable {s s' : St} {reqs reps : List Nat} {pid : Nat}

theorem park {replied : Bool} (hI : Inv (begin replied pid s) reqs reps) :
    Inv ((begin replied pid s).setTask pid .parked) reqs reps :=
  hI.setTask_ok (by simp [begin, St.setTask]) (by simp)

/-- Some step takes the requests on without a submission. -/
def Advances (s : St) (reqs reps : List Nat) : Prop :=
  ∃ op s' reqs' reps', step s op = some s' ∧ Inv s' reqs' reps' ∧ s'.phase ≠ .halted ∧
    (∀ t, (s'.log t).count .call = (s.log t).count .call) ∧ weight s' reqs' reps' < weight s reqs reps

theorem advances_replies (hI : Inv s reqs reps) (hp : s.phase = .replies) : Advances s reqs reps := by
  cases reps with
  | nil =>
    refine ⟨.sched idle, _, reqs, [], ?_, hI.run_ready hp, by simp, fun _ => rfl, weight_lt_of_dist rfl ?_⟩
    · simp [step, hp, sysrep_eq hI.queues]
    · simp [dist, hp]
  | cons pid reps =>
    have hw : s.task pid = .waiting := (hI.tasks pid).waiting.2 (.inr mem_cons_self)
    have h0 : pid ≠ 0 := hI.ne_zero (by simp [hw])
    refine ⟨.sched idle, _, reqs, reps, ?_, hI.begin_reply.park, ?_, count_begin _ pid _, weight_lt_of_load ?_⟩
    · simp [step, hp, sysrep_eq hI.queues, h0, hw, resume_idle]
    · simp [begin, St.setTask, St.record, hw, hp]
    · simp [load, begin, St.setTask, St.record, hw]

theorem advances_running (hI : Inv s reqs reps) (hp : s.phase = .running) : Advances s reqs reps := by
  cases hq : s.runq with
  | nil =>
    refine ⟨.sched idle, { s with phase := .events }, reqs, reps, ?_, hI.set_phase hq, by simp, fun _ => rfl,
      weight_lt_of_dist rfl ?_⟩
    · simp [step, hp, hq]
    · simp only [dist, hp]
      split <;> omega
  | cons pid ts =>
    have hr : s.task pid = .ready := (hI.tasks pid).ready.2 (by simp [hq])
    refine ⟨.sched idle, _, reqs, reps, ?_, (hI.begin_run hq hp).park, ?_, count_begin _ pid _, weight_lt_of_dist ?_ ?_⟩
    · rw [step, hp]
      dsimp only
      rw [hq]
      exact resume_idle false (by simp [hr])
    · simp [begin, St.setTask, hr, hp]
    · simp [load, begin, St.setTask, hr]
    · simp [dist, begin, St.setTask, hr, hp, hq]

theorem advances_reply (op : Op) {working timers : List Nat} (hp : s.phase = .events)
    (hs : step s op = some ({ s with working := working, timers := timers, q := enter .repq pid s.q }.record pid .reply))
    (hI : Inv ({ s with working := working, timers := timers, q := enter .repq pid s.q }.record pid .reply) reqs [pid])
    (hlt : working.length + timers.length < s.working.length + s.timers.length) : Advances s reqs [] := by
  refine ⟨op, _, reqs, [pid], hs, hI, ?_, count_record _ pid (by simp), weight_lt_of_load ?_⟩
  · simp [St.record, hp]
  · simp only [load, St.record, length_singleton, length_nil]
    omega

theorem advances_events (hI : Inv s reqs reps) (hp : s.phase = .events)
    (hne : reqs ++ s.working ++ s.timers ++ reps ≠ []) : Advances s reqs reps := by
  cases reps with
  | cons pid reps =>
    refine ⟨.serviced, { s with phase := .replies }, reqs, pid :: reps, ?_, hI.set_phase (hI.runq (.inr hp)), by simp,
      fun _ => rfl, weight_lt_of_dist rfl ?_⟩
    · simp [step, hp]
    · simp [dist, hp]
  | nil =>
    obtain ⟨pid, hpid⟩ := exists_mem_of_ne_nil _ hne
    simp only [append_nil, mem_append] at hpid
    rcases hpid with (hpid | hpid) | hpid
    · cases reqs with
      | nil => cases hpid
      | cons pid' reqs =>
        refine ⟨.dispatch, _, reqs, [], ?_, hI.dispatch_ok, by simp [hp], fun _ => rfl, weight_lt_of_load ?_⟩
        · simp [step, hp, dispatch_eq hI.queues]
        · simp only [load, length_append, length_cons, length_nil]
          omega
    · have hlen := length_erase_of_mem hpid
      have hpos := length_pos_of_mem hpid
      refine advances_reply (.worker_done pid) hp ?_ (hI.worker_done_ok hpid) (by omega)
      rw [step, if_pos ⟨hp, hpid⟩]
      rfl
    · have hlen := length_erase_of_mem hpid
      have hpos := length_pos_of_mem hpid
      refine advances_reply (.expired pid) hp ?_ (hI.sys_sleep_expired_ok hpid) (by omega)
      rw [step, if_pos ⟨hp, hpid⟩]
      rfl

/-- While a request is under way there is a step that brings it nearer to its resume and submits nothing. -/
theorem progress (hI : Inv s reqs reps) (hphase : s.phase ≠ .halted)
    (hne : reqs ++ s.working ++ s.timers ++ reps ≠ []) : Advances s reqs reps := by
  cases hp : s.phase with
  | replies => exact hI.advances_replies hp
  | running => exact hI.advances_running hp
  | events => exact hI.advances_events hp hne
  | halted => exact absurd hp hphase

theorem completes (hI : Inv s reqs reps) : Completes s := by
  intro hphase
  -- the state reached and the ghost queues, with the requests counted as they are in `s`
  let J : Nat ×ₗ Nat → St → Prop := fun i s₁ => ∃ reqs₁ reps₁, Inv s₁ reqs₁ reps₁ ∧ s₁.phase ≠ .halted ∧
    (∀ t, (s₁.log t).count .call = (s.log t).count .call) ∧ weight s₁ reqs₁ reps₁ = i
  refine reaches_of_progress (J := J) ?_ ⟨reqs, reps, hI, hphase, fun _ => rfl, rfl⟩
  rintro i s₁ ⟨reqs₁, reps₁, hI₁, hphase₁, hcount, rfl⟩
  by_cases hne : reqs₁ ++ s₁.working ++ s₁.timers ++ reps₁ = []
  · left
    intro t
    have hok := hI₁.tasks t
    simp only [append_eq_nil_iff] at hne
    obtain ⟨n, hn⟩ := hok.log_idle (by simp [hok.waiting, hne])
    rw [← hcount t, hn, count_rounds]
  · right
    obtain ⟨op, s₂, reqs₂, reps₂, hs₂, hI₂, hphase₂, hcount₂, hlt⟩ := hI₁.progress hphase₁ hne
    exact ⟨_, hlt, op, s₂, hs₂, reqs₂, reps₂, hI₂, hphase₂, fun t => (hcount₂ t).trans (hcount t), rfl⟩

end Inv

/-- In every state of every run that is plain the requests follow the protocol, and each of them can still be
settled. -/
theorem protocol_always {ops : List Op} (h : Along step (fun _ op => op.Plain) init ops) :
    Always step (fun s => Protocol s ∧ Completes s) init ops := by
  have hI : Always step (fun s => (∃ reqs reps, Inv s reqs reps) ∧ s.own = []) init ops :=
    h.always (fun s op s' ⟨⟨_, _, hI⟩, hown⟩ hplain hs => hI.step_ok hown hplain hs) ⟨⟨[], [], inv_init⟩, rfl⟩
  exact hI.mono fun s ⟨⟨_, _, hI⟩, _⟩ => ⟨hI.protocol, hI.completes⟩

/-- The first task makes a second one ready and calls; the second one sleeps, and the first is resumed for its reply. -/
def reading : List Op :=
  [.sched ⟨[], .parked⟩, .sched ⟨[.wake 2], .call .sysreq⟩, .sched ⟨[], .parked⟩, .dispatch, .worker_done 1, .serviced,
    .sched ⟨[], .parked⟩, .sched ⟨[], .parked⟩, .sched ⟨[], .call .sleep⟩]

theorem protocol_reading : Always step (fun s => Protocol s ∧ Completes s) init reading ∧
    (run step init reading).map (fun s => (s.log 1, s.log 2)) = some ([.call, .reply, .resume], [.call]) := by
  have hnil : ∀ final, (Op.sched ⟨[], final⟩).Plain := fun _ _ hd => absurd hd not_mem_nil
  have hwake : (Op.sched ⟨[.wake 2], .call .sysreq⟩).Plain := fun d hd => by
    rw [mem_singleton.1 hd]
    trivial
  refine ⟨protocol_always ?_, rfl⟩
  refine .cons (hnil _) rfl (.cons hwake rfl (.cons (hnil _) rfl (.cons trivial rfl (.cons trivial rfl ?_))))
  exact .cons trivial rfl (.cons (hnil _) rfl (.cons (hnil _) rfl (.cons (hnil _) rfl trivial)))

/-- A call in a coroutine of the task's own, and then another one: the task has two requests under way. -/
theorem not_protocol_own : ¬ ∀ ops, Always step (fun s => Protocol s ∧ Completes s) init ops := by
  intro h
  obtain ⟨_, _, -, -, -, htask⟩ := ((h [.sched ⟨[], .parked⟩, .sched ⟨[.call .sysreq], .call .sysreq⟩]).last rfl).1
  obtain ⟨n, hlog⟩ := htask 1
  have hcalls : ∀ l, [Ev.call, .call] = rounds n ++ l → l = [.call, .call] := fun l hl => by
    cases n with
    | zero => exact hl.symm
    | succ n => cases hl
  rcases hlog with ⟨-, -, hlog⟩ | ⟨-, -, hlog⟩ | ⟨-, -, hlog⟩
  · cases hcalls _ hlog
  · cases hcalls _ hlog
  · cases hcalls [] (hlog.trans (append_nil _).symm)

end Node9.Syscall
