import Node9.Lib.Steps

/-!
# The reader and the slaves of an export (`exportfs.c`)

`exportproc` of each connection and any number of `exslave`s, with the four kinds of locks that they take.
Where a thread is in its code is a constructor of `Reader` or `Slave`; one that starts with `want` is about
to take a lock, and what stands between a `lock` and the next `lock` or `unlock` is one step. A request is
the number of its allocation, as in `ExQueue`; the list from `exq.head` is `queue`, and a request that is
linked behind an `exq.tail` that is no longer in it gets lost. `swiproc` only makes the call that `q` is in
fail sooner; how it ends is left open anyway, and so is how often a sleeping slave is woken up.

`sent` records the replies. `target fq` is the request that the `Tflush` `fq` was sent for: the one that was
outstanding with the tag `oldtag` when it came in.
-/

namespace Node9.ExSlave
open Steps Function

/-- `exq.l`, `exq.qwait`, `fs->l`, `q->l`. -/
inductive Lock
  | exq
  | qwait
  | fs (fs : Nat)
  | req (q : Nat)
deriving DecidableEq

inductive Tid
  | reader (fs : Nat)
  | slave (i : Nat)
deriving DecidableEq

/-- `exportproc`, with `exflushed` and `exshutdown`. -/
inductive Reader
  | unborn
  | idle
  | wantEnq (q : Nat)
  | enq (q : Nat)
  | wantFlush (fq : Nat)
  | flush (fq : Nat)
  | wantWork (fq : Nat)
  | work (fq : Nat)
  | wantReq (fq q : Nat)
  | req (fq q : Nat)
  /-- `exflushed` has returned 1, or the request is refused -/
  | reply (fq : Nat)
  | wantShut
  | shut
  | wantAbandon
  | abandon
  | wantShutReq (q : Nat)
  | shutReq (q : Nat)
  | dead

inductive Slave
  | unborn
  | top
  | sleep
  | wantTake
  | take
  | wantPush (q fs : Nat)
  | push (q fs : Nat)
  | exec (q fs : Nat)
  | wantFin (q fs : Nat) (err : Bool)
  | fin (q fs : Nat) (err : Bool)
  | reply (q fs : Nat)
  | wantLoop (q fs : Nat)
  | loop (q fs : Nat)
  | replyFlush (q fs fq : Nat)
  | wantDone (q fs : Nat)
  | done (q fs : Nat)

/-- The requests and the lists that they are in. -/
structure Mem where
  /-- `q->export` -/
  fs : Nat → Nat
  /-- `q->in.tag` -/
  tag : Nat → UInt16
  /-- `q->in.oldtag`, for a `Tflush` -/
  oldtag : Nat → Option UInt16
  fresh : Nat
  queue : List Nat
  tail : Option Nat
  /-- `fs->work` -/
  work : Nat → List Nat
  /-- `q->flush` -/
  flush : Nat → List Nat
  finished : Nat → Bool
  shut : Nat → Bool
  sent : List Nat
  target : Nat → Option Nat

structure St where
  mem : Mem
  owner : Lock → Option Tid
  nconn : Nat
  reader : Nat → Reader
  nslave : Nat
  slave : Nat → Slave

def init : St where
  mem := ⟨fun _ => 0, fun _ => 0, fun _ => none, 0, [], none, fun _ => [], fun _ => [], fun _ => false, fun _ => false,
    [], fun _ => none⟩
  owner _ := none
  nconn := 0
  reader _ := .unborn
  nslave := 0
  slave _ := .unborn

namespace Mem
variable (m : Mem)

/-- Neither answered, nor is a `Tflush` of it. -/
def outstanding (n : Nat) : Bool := n ∉ m.sent ∧ ∀ fq ∈ m.sent, m.target fq ≠ some n

/-- `n` is a request of `fs` that is outstanding with the tag `tag`. -/
def hasTag (fs : Nat) (tag : UInt16) (n : Nat) : Bool := m.fs n = fs ∧ m.tag n = tag ∧ m.outstanding n

/-- `exportproc` has read a message into a new request. -/
def recv (fs : Nat) (tag : UInt16) (oldtag : Option UInt16) : Mem :=
  { m with
    fs := update m.fs m.fresh fs
    tag := update m.tag m.fresh tag
    oldtag := update m.oldtag m.fresh oldtag
    fresh := m.fresh + 1
    flush := update m.flush m.fresh []
    finished := update m.finished m.fresh false
    shut := update m.shut m.fresh false
    target := update m.target m.fresh (oldtag.bind fun t => (List.range m.fresh).find? (m.hasTag fs t)) }

/-- `if(exq.head == nil) exq.head = q; else exq.tail->next = q; exq.tail = q`. What is written through an `exq.tail` that
has been unlinked, and may be another request's by now, is lost here. -/
def enqueue (q : Nat) : Mem :=
  { m with
    queue :=
      if m.queue = [] then [q]
      else if m.tail = m.queue.getLast? then m.queue ++ [q] else m.queue
    tail := some q }

/-- `q->export == fs && q->in.tag == fq->in.oldtag`. -/
def isOld (fs fq q : Nat) : Bool := m.fs q == fs && some (m.tag q) == m.oldtag fq

def setWork (fs : Nat) (qs : List Nat) : Mem := { m with work := update m.work fs qs }

def setFlush (q : Nat) (fqs : List Nat) : Mem := { m with flush := update m.flush q fqs }

def finish (q : Nat) : Mem := { m with finished := update m.finished q true }

/-- `exreply`. -/
def reply (q : Nat) : Mem := { m with sent := m.sent ++ [q] }

end Mem

namespace St
variable (s : St)

def lock (l : Lock) (t : Tid) : Option St :=
  match s.owner l with
  | none => some { s with owner := update s.owner l (some t) }
  | some _ => none

def unlock (l : Lock) : St := { s with owner := update s.owner l none }

def set (m : Mem) : St := { s with mem := m }

def goR (fs : Nat) (p : Reader) : St := { s with reader := update s.reader fs p }

def goS (i : Nat) (p : Slave) : St := { s with slave := update s.slave i p }

end St

/-- The next step of `exportproc` of the connection `fs`, except where it waits for a message. -/
def readerStep (s : St) (fs : Nat) : Option St :=
  let t := Tid.reader fs
  let m := s.mem
  match s.reader fs with
  | .wantEnq q => (s.lock .exq t).map (·.goR fs (.enq q))
  | .enq q => some (((s.set (m.enqueue q)).unlock .exq).goR fs .idle)
  | .wantFlush fq => (s.lock .exq t).map (·.goR fs (.flush fq))
  | .flush fq =>
    if m.queue.any (m.isOld fs fq) then
      some (((s.set { m with queue := m.queue.eraseP (m.isOld fs fq) }).unlock .exq).goR fs (.reply fq))
    else some ((s.unlock .exq).goR fs (.wantWork fq))
  | .wantWork fq => (s.lock (.fs fs) t).map (·.goR fs (.work fq))
  | .work fq =>
    match (m.work fs).find? fun q => some (m.tag q) == m.oldtag fq with
    | some q => some (s.goR fs (.wantReq fq q))
    | none => some ((s.unlock (.fs fs)).goR fs (.reply fq))
  | .wantReq fq q => (s.lock (.req q) t).map (·.goR fs (.req fq q))
  | .req fq q =>
    -- `unlock(&q->l); return 1`
    if m.finished q then some ((s.unlock (.req q)).goR fs (.reply fq))
    else some ((((s.set (m.setFlush q (m.flush q ++ [fq]))).unlock (.req q)).unlock (.fs fs)).goR fs .idle)
  | .reply fq => some ((s.set (m.reply fq)).goR fs .idle)
  | .wantShut => (s.lock .exq t).map (·.goR fs .shut)
  | .shut => some (((s.set { m with queue := m.queue.filter fun q => m.fs q != fs }).unlock .exq).goR fs .wantAbandon)
  | .wantAbandon => (s.lock (.fs fs) t).map (·.goR fs .abandon)
  | .abandon =>
    match m.work fs with
    | [] => some ((s.unlock (.fs fs)).goR fs .dead)
    | q :: qs => some ((s.set (m.setWork fs qs)).goR fs (.wantShutReq q))
  | .wantShutReq q => (s.lock (.req q) t).map (·.goR fs (.shutReq q))
  | .shutReq q => some (((s.set { m with shut := update m.shut q true }).unlock (.req q)).goR fs .abandon)
  | _ => none

/-- The next step of a slave, except where it sleeps and where a call returns. -/
def slaveStep (s : St) (i : Nat) : Option St :=
  let t := Tid.slave i
  let m := s.mem
  match s.slave i with
  | .top => (s.lock .qwait t).map (·.goS i .sleep)
  | .wantTake => (s.lock .exq t).map (·.goS i .take)
  | .take =>
    match m.queue with
    | [] => some (((s.unlock .exq).unlock .qwait).goS i .top)
    | q :: qs => some (((s.set { m with queue := qs }).unlock .qwait).goS i (.wantPush q (m.fs q)))
  | .wantPush q fs => (s.lock (.fs fs) t).map (·.goS i (.push q fs))
  | .push q fs => some ((((s.set (m.setWork fs (q :: m.work fs))).unlock (.fs fs)).unlock .exq).goS i (.exec q fs))
  | .wantFin q fs err => (s.lock (.req q) t).map (·.goS i (.fin q fs err))
  | .fin q fs err =>
    if m.shut q then some (((s.set (m.finish q)).unlock (.req q)).goS i (.wantDone q fs))
    else if m.flush q = [] ∨ err = false then some ((s.unlock (.req q)).goS i (.reply q fs))
    else some (s.goS i (.loop q fs))
  | .reply q fs => some ((s.set (m.reply q)).goS i (.wantLoop q fs))
  | .wantLoop q fs => (s.lock (.req q) t).map (·.goS i (.loop q fs))
  | .loop q fs =>
    match m.flush q, m.shut q with
    | fq :: fqs, false => some (((s.set (m.setFlush q fqs)).unlock (.req q)).goS i (.replyFlush q fs fq))
    | _, _ => some (((s.set (m.finish q)).unlock (.req q)).goS i (.wantDone q fs))
  | .replyFlush q fs fq => some ((s.set (m.reply fq)).goS i (.wantLoop q fs))
  | .wantDone q fs => (s.lock (.fs fs) t).map (·.goS i (.done q fs))
  | .done q fs => some (((s.set (m.setWork fs ((m.work fs).erase q))).unlock (.fs fs)).goS i .top)
  | _ => none

inductive Op
  /-- `export`: a new connection -/
  | connect
  /-- a new slave -/
  | kproc
  /-- a message comes in; a `Tflush` has an `oldtag` -/
  | recv (fs : Nat) (tag : UInt16) (oldtag : Option UInt16)
  /-- a request that writes comes in on a connection that is read-only -/
  | refuse (fs : Nat) (tag : UInt16)
  /-- the connection ends -/
  | eof (fs : Nat)
  | reader (fs : Nat)
  /-- `Sleep` returns -/
  | wake (i : Nat)
  /-- `Sleep` raises an error -/
  | intr (i : Nat)
  /-- the call returns, with or without an error -/
  | ret (i : Nat) (err : Bool)
  | slave (i : Nat)

def step (s : St) : Op → Option St
  | .connect => some ({ s with nconn := s.nconn + 1 }.goR s.nconn .idle)
  | .kproc => some ({ s with nslave := s.nslave + 1 }.goS s.nslave .top)
  | .recv fs tag oldtag =>
    match s.reader fs with
    | .idle =>
      let q := s.mem.fresh
      some ((s.set (s.mem.recv fs tag oldtag)).goR fs (if oldtag.isSome then .wantFlush q else .wantEnq q))
    | _ => none
  | .refuse fs tag =>
    match s.reader fs with
    | .idle => some ((s.set (s.mem.recv fs tag none)).goR fs (.reply s.mem.fresh))
    | _ => none
  | .eof fs =>
    match s.reader fs with
    | .idle => some (s.goR fs .wantShut)
    | _ => none
  | .reader fs => readerStep s fs
  | .wake i =>
    match s.slave i with
    | .sleep => some (s.goS i .wantTake)
    | _ => none
  | .intr i =>
    match s.slave i with
    | .sleep => some ((s.unlock .qwait).goS i .top)
    | _ => none
  | .ret i err =>
    match s.slave i with
    | .exec q fs => some (s.goS i (.wantFin q fs err))
    | _ => none
  | .slave i => slaveStep s i

/-! A run, in three parts. -/

/-- A request comes in, and a slave executes it. -/
def served : List Op :=
  [.connect, .kproc, .recv 0 1 none, .reader 0, .reader 0, .slave 0, .wake 0, .slave 0, .slave 0, .slave 0, .slave 0]

/-- A flush of it comes in, and finds it on the work list. -/
def flushed : List Op := [.recv 0 2 (some 1), .reader 0, .reader 0, .reader 0, .reader 0, .reader 0, .reader 0]

def answered : List Op := [.ret 0 true, .slave 0, .slave 0, .slave 0, .slave 0]

end Node9.ExSlave
