import Node9.Lib.Ring
import Node9.Lib.Steps

/-!
# System calls (`node9.c`, `roundrobin.lua`)

A task submits a request through its vproc's queue node and yields (`sysreq`), or arms its vproc's timer and
yields (`sys_sleep`). The event loop hands the requests to workers; `worker_done` and `sys_sleep_expired`
put the same node on the reply queue, in any order. The scheduler takes the replies off with `sysrep` and
resumes their tasks, then resumes the tasks that were made ready, then lets the event loop run.

A task that is resumed runs until it yields to the scheduler: it may make tasks ready (new ones, or ones parked
in a channel), and then calls, yields for the next round, parks or exits. Applications can make coroutines, and a
yield in one of their own gets no further than the task: it goes on after a system call there, and after a channel
operation that has to wait. It can also resume the coroutine of another task. `uv_timer_init` of a timer that is armed
is not followed: here it is armed twice.

`log` records for each task its calls, the replies put on the queue and the resumes by the scheduler for a reply, or
while the task waits for one.
-/

namespace Node9.Syscall
open Intrusive Steps

/-- The nodes of the two queues: `hp->reqq`, `hp->repq` and the `node` of each vproc. -/
inductive QNode
  | reqq
  | repq
  | vp (pid : Nat)
deriving DecidableEq

inductive TaskSt
  | absent
  | ready
  | running
  | parked
  | waiting
  | dead
deriving DecidableEq

inductive Ev
  | call
  | reply
  | resume
deriving DecidableEq

/-- Where the loop of the scheduler is: the replies, the ready tasks or `svc_events`. -/
inductive Phase
  | replies
  | running
  | events
  | halted
deriving DecidableEq

structure St where
  q : Links QNode
  /-- requests that a worker has and `worker_done` has not seen -/
  working : List Nat
  /-- timers that have not expired -/
  timers : List Nat
  rdyq : List Nat
  runq : List Nat
  phase : Phase
  task : Nat → TaskSt
  /-- the tasks that a channel has in a list for a coroutine of their own -/
  own : List Nat
  log : Nat → List Ev

/-- The first process is ready and both queues are empty. -/
def init : St where
  q := ⟨id, id⟩
  working := []
  timers := []
  rdyq := [1]
  runq := []
  phase := .replies
  task := Function.update (fun _ => .absent) 1 .ready
  own := []
  log _ := []

/-- `QUEUE_INIT(&vp->node); QUEUE_INSERT_TAIL(h, &vp->node)`. -/
def enter (h : QNode) (pid : Nat) (q : Links QNode) : Links QNode := insertTail (Intrusive.init q (.vp pid)) h (.vp pid)

def St.record (s : St) (pid : Nat) (e : Ev) : St := { s with log := Function.update s.log pid (s.log pid ++ [e]) }

def St.setTask (s : St) (pid : Nat) (t : TaskSt) : St := { s with task := Function.update s.task pid t }

def sysreq (pid : Nat) (s : St) : St := { s with q := enter .reqq pid s.q }

def sys_sleep (pid : Nat) (s : St) : St := { s with timers := s.timers ++ [pid] }

def worker_done (pid : Nat) (s : St) : St :=
  { s with working := s.working.erase pid, q := enter .repq pid s.q }.record pid .reply

def sys_sleep_expired (pid : Nat) (s : St) : St :=
  { s with timers := s.timers.erase pid, q := enter .repq pid s.q }.record pid .reply

/-- `sysrep`: the pid of the oldest reply, or 0. -/
def sysrep (s : St) : Nat × St :=
  if s.q.next .repq = .repq then (0, s)
  else
    match s.q.next .repq with
    | .vp pid => (pid, { s with q := remove s.q (.vp pid) })
    | _ => (0, s)

/-- One round of the loop of `dispatch`. -/
def dispatch (s : St) : Option St :=
  match s.q.next .reqq with
  | .vp pid => some { s with q := remove s.q (.vp pid), working := s.working ++ [pid] }
  | _ => none

inductive Call
  | sysreq
  | sleep

/-- The task `pid` makes a system call. -/
def call (pid : Nat) (c : Call) (s : St) : St :=
  let s := s.record pid .call
  match c with
  | .sysreq => sysreq pid s
  | .sleep => sys_sleep pid s

/-- What a task does that runs. -/
inductive Deed
  /-- `sched.ready(t)` -/
  | wake (t : Nat)
  /-- a system call in a coroutine of its own -/
  | call (c : Call)
  /-- a channel operation that has to wait, in a coroutine of its own -/
  | block
  /-- the coroutine of the task `t` is resumed, and goes to its next yield or ends -/
  | resume (t : Nat) (ends : Bool)

/-- How it yields to the scheduler. -/
inductive Final
  | call (c : Call)
  | yielded
  | parked
  | exited

structure Act where
  deeds : List Deed
  final : Final

def wake (t : Nat) (s : St) : St := { s.setTask t .ready with rdyq := s.rdyq ++ [t] }

def deed (pid : Nat) (s : St) : Deed → Option St
  -- a new task is made ready, or one that is in a list of a channel
  | .wake t =>
    if t ≠ 0 ∧ (s.task t = .absent ∨ s.task t = .parked ∨ t ∈ s.own) then
      some { wake t s with own := s.own.erase t }
    else none
  | .call c => some (call pid c s)
  | .block => some { s with own := s.own ++ [pid] }
  | .resume t ends =>
    if s.task t = .ready ∨ s.task t = .parked ∨ s.task t = .waiting then
      some (s.setTask t (if ends then .dead else .parked))
    else none

def deeds (pid : Nat) : List Deed → St → Option St
  | [], s => some s
  | d :: ds, s => (deed pid s d).bind (deeds pid ds)

/-- A task goes on, for a reply to it or because it was ready. -/
def begin (replied : Bool) (pid : Nat) (s : St) : St :=
  (if replied ∨ s.task pid = .waiting then s.record pid .resume else s).setTask pid .running

def yield (pid : Nat) (s : St) : Final → St
  | .call c => (call pid c s).setTask pid .waiting
  | .yielded => wake pid s
  | .parked => s.setTask pid .parked
  -- the scheduler returns when the first process is gone
  | .exited => { s.setTask pid .dead with phase := if pid = 1 then .halted else s.phase }

def resume (replied : Bool) (pid : Nat) (act : Act) (s : St) : Option St :=
  -- `procs[wait_pid]` is nil, or the coroutine has ended when another task resumed it
  if s.task pid = .absent ∨ s.task pid = .dead then some { s with phase := .halted }
  else (deeds pid act.deeds (begin replied pid s)).map fun s => yield pid s act.final

inductive Op
  /-- the next thing the scheduler does; `act` is what the task does that it resumes, if it does -/
  | sched (act : Act)
  | dispatch
  | worker_done (pid : Nat)
  | expired (pid : Nat)
  /-- `uv_run` returns -/
  | serviced

def step (s : St) : Op → Option St
  | .sched act =>
    match s.phase with
    | .replies =>
      let r := sysrep s
      if r.1 = 0 then some { s with runq := s.rdyq, rdyq := [], phase := .running } else resume true r.1 act r.2
    | .running =>
      match s.runq with
      | [] => some { s with phase := .events }
      | t :: ts => resume false t act { s with runq := ts }
    | _ => none
  | .dispatch => if s.phase = .events then dispatch s else none
  | .worker_done pid => if s.phase = .events ∧ pid ∈ s.working then some (worker_done pid s) else none
  | .expired pid => if s.phase = .events ∧ pid ∈ s.timers then some (sys_sleep_expired pid s) else none
  | .serviced => if s.phase = .events then some { s with phase := .replies } else none

end Node9.Syscall
